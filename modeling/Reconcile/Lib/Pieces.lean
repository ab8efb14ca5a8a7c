import Mathlib.Algebra.Order.Ring.Nat
import Mathlib.Data.List.Basic
import Mathlib.Data.List.Perm.Subperm

namespace Lib.Pieces
set_option autoImplicit true

variable {α : Type}

/-- Non-empty pieces between `lo` and `hi`, in order and without overlap. -/
def Spaced : Nat → List (Nat × List α) → Nat → Prop
  | lo, [], hi => lo ≤ hi
  | lo, p :: ps, hi => lo ≤ p.1 ∧ p.2 ≠ [] ∧ Spaced (p.1 + p.2.length) ps hi

def size (ps : List (Nat × List α)) : Nat := (ps.map fun p => p.2.length).sum

def join (ps : List (Nat × List α)) : List α := ps.flatMap Prod.snd

def find (ps : List (Nat × List α)) (o : Nat) : Option (List α) :=
  (ps.find? fun p => p.1 = o).map Prod.snd

def place (o : Nat) (b : List α) : List (Nat × List α) → List (Nat × List α)
  | [] => [(o, b)]
  | p :: ps =>
    if o < p.1 then (o, b) :: p :: ps
    else if o = p.1 then (o, b) :: ps
    else p :: place o b ps

/-- Whether a neighbour of the range reaches into it. -/
def overlaps (ps : List (Nat × List α)) (start stop : Nat) : Bool :=
  (ps.filter fun p => p.1 < start).getLast?.any (fun p => start < p.1 + p.2.length) ||
    (ps.find? fun p => start ≤ p.1).any fun p => p.1 < stop

def Covered (ps : List (Nat × List α)) (x : Nat) : Prop :=
  ∃ p ∈ ps, p.1 ≤ x ∧ x < p.1 + p.2.length

theorem covered_cons (p : Nat × List α) (ps : List (Nat × List α)) (x : Nat) :
    Covered (p :: ps) x ↔ (p.1 ≤ x ∧ x < p.1 + p.2.length) ∨ Covered ps x := by
  simp only [Covered, List.mem_cons, exists_eq_or_imp]

theorem Spaced.le {ps : List (Nat × List α)} (h : Spaced lo ps hi) : lo ≤ hi := by
  induction ps generalizing lo with
  | nil => exact h
  | cons p ps ih =>
    have hp := ih h.2.2
    have hlo := h.1
    omega

theorem Spaced.mem {ps : List (Nat × List α)} {p : Nat × List α} (h : Spaced lo ps hi)
    (hp : p ∈ ps) : lo ≤ p.1 ∧ p.2 ≠ [] ∧ p.1 + p.2.length ≤ hi := by
  induction ps generalizing lo with
  | nil => cases hp
  | cons q ps ih =>
    obtain ⟨hlo, hq, hs⟩ := h
    rcases List.mem_cons.1 hp with rfl | hp
    · exact ⟨hlo, hq, hs.le⟩
    · obtain ⟨hle, hne, hhi⟩ := ih hs hp
      exact ⟨by omega, hne, hhi⟩

theorem Spaced.pairwise {ps : List (Nat × List α)} (h : Spaced lo ps hi) :
    ps.Pairwise fun p q => p.1 + p.2.length ≤ q.1 := by
  induction ps generalizing lo with
  | nil => exact .nil
  | cons p ps ih => exact .cons (fun q hq => (h.2.2.mem hq).1) (ih h.2.2)

theorem spaced_of_pairwise {ps : List (Nat × List α)} (hle : lo ≤ hi)
    (hmem : ∀ p ∈ ps, lo ≤ p.1 ∧ p.2 ≠ [] ∧ p.1 + p.2.length ≤ hi)
    (hp : ps.Pairwise fun p q => p.1 + p.2.length ≤ q.1) : Spaced lo ps hi := by
  induction ps generalizing lo with
  | nil => exact hle
  | cons p ps ih =>
    obtain ⟨hlo, hne, hhi⟩ := hmem p List.mem_cons_self
    obtain ⟨hhead, htail⟩ := List.pairwise_cons.1 hp
    refine ⟨hlo, hne, ih hhi ?_ htail⟩
    intro q hq
    exact ⟨hhead q hq, (hmem q (List.mem_cons_of_mem p hq)).2⟩

theorem Spaced.sublist {ps qs : List (Nat × List α)} (h : Spaced lo ps hi) (hs : qs.Sublist ps) :
    Spaced lo qs hi :=
  spaced_of_pairwise h.le (fun _ hp => h.mem (hs.subset hp)) (h.pairwise.sublist hs)

theorem Spaced.pos {ps : List (Nat × List α)} {p : Nat × List α} (h : Spaced lo ps hi)
    (hp : p ∈ ps) : 0 < p.2.length :=
  List.length_pos_iff.2 (h.mem hp).2.1

theorem Spaced.disjoint {ps : List (Nat × List α)} {p q : Nat × List α} (h : Spaced lo ps hi)
    (hp : p ∈ ps) (hq : q ∈ ps) :
    p = q ∨ p.1 + p.2.length ≤ q.1 ∨ q.1 + q.2.length ≤ p.1 := by
  induction ps generalizing lo with
  | nil => cases hp
  | cons r ps ih =>
    rcases List.mem_cons.1 hp with rfl | hp
    · rcases List.mem_cons.1 hq with rfl | hq
      · exact .inl rfl
      · exact .inr (.inl (h.2.2.mem hq).1)
    · rcases List.mem_cons.1 hq with he | hq
      · rw [he]
        exact .inr (.inr (h.2.2.mem hp).1)
      · exact ih h.2.2 hp hq

theorem Spaced.nodup {ps : List (Nat × List α)} (h : Spaced lo ps hi) : ps.Nodup := by
  refine h.pairwise.imp_of_mem ?_
  intro p q hp _ hle he
  have hpos := h.pos hp
  rw [he] at hle hpos
  omega

theorem Spaced.ext {ps qs : List (Nat × List α)} (hp : Spaced lo ps hi) (hq : Spaced lo' qs hi')
    (hm : ∀ p, p ∈ ps ↔ p ∈ qs) : ps = qs := by
  have hperm := (List.perm_ext_iff_of_nodup hp.nodup hq.nodup).2 hm
  refine hperm.eq_of_pairwise ?_ hp.pairwise hq.pairwise
  intro a b ha _ hab hba
  have hpos := hp.pos ha
  omega

theorem Spaced.find_eq {ps : List (Nat × List α)} {o : Nat} {b : List α} (h : Spaced lo ps hi) :
    find ps o = some b ↔ (o, b) ∈ ps := by
  rw [find, Option.map_eq_some_iff]
  constructor
  · rintro ⟨p, hp, rfl⟩
    have ho := List.find?_some hp
    rw [decide_eq_true_eq] at ho
    rw [← ho]
    exact List.mem_of_find?_eq_some hp
  · intro hm
    cases hf : ps.find? fun p => p.1 = o with
    | none => exact absurd (List.find?_eq_none.1 hf (o, b) hm) (by simp)
    | some q =>
      refine ⟨q, rfl, ?_⟩
      have ho := List.find?_some hf
      rw [decide_eq_true_eq] at ho
      have hq := List.mem_of_find?_eq_some hf
      have hpos := h.pos hq
      have hpos' := h.pos hm
      rcases h.disjoint hq hm with rfl | hd | hd
      · rfl
      · simp only at hd
        omega
      · simp only at hd hpos'
        omega

/-- Looking at the neighbours is enough. -/
theorem Spaced.overlaps_iff {ps : List (Nat × List α)} (h : Spaced lo ps hi) (hs : start < stop) :
    overlaps ps start stop = true ↔ ∃ p ∈ ps, p.1 < stop ∧ start < p.1 + p.2.length := by
  simp only [overlaps, Bool.or_eq_true, Option.any_eq_true, decide_eq_true_eq]
  constructor
  · rintro (⟨p, hp, hlt⟩ | ⟨p, hp, hlt⟩)
    · have hm := List.mem_filter.1 (List.mem_of_getLast? hp)
      have hps := of_decide_eq_true hm.2
      exact ⟨p, hm.1, by omega, hlt⟩
    · have hps := List.find?_some hp
      rw [decide_eq_true_eq] at hps
      have hpos := h.pos (List.mem_of_find?_eq_some hp)
      exact ⟨p, List.mem_of_find?_eq_some hp, hlt, by omega⟩
  · rintro ⟨p, hp, hlt, hgt⟩
    by_cases hps : p.1 < start
    · -- the last piece that starts before the range is `p` itself
      left
      have hmem : p ∈ ps.filter fun p => p.1 < start := List.mem_filter.2 ⟨hp, decide_eq_true hps⟩
      cases hl : (ps.filter fun p => p.1 < start).getLast? with
      | none =>
        rw [List.getLast?_eq_none_iff.1 hl] at hmem
        cases hmem
      | some q =>
        refine ⟨q, rfl, ?_⟩
        obtain ⟨init, hinit⟩ := List.getLast?_eq_some_iff.1 hl
        have hpair := h.pairwise.filter fun p => p.1 < start
        rw [hinit] at hmem hpair
        rcases List.mem_append.1 hmem with hi | hi
        · have hle := (List.pairwise_append.1 hpair).2.2 p hi q List.mem_cons_self
          have hq : q ∈ ps.filter fun p => p.1 < start := List.mem_of_getLast? hl
          have hqs := of_decide_eq_true (List.mem_filter.1 hq).2
          omega
        · rwa [← List.mem_singleton.1 hi]
    · right
      cases hf : ps.find? fun p => start ≤ p.1 with
      | none => exact absurd (List.find?_eq_none.1 hf p hp) (by simpa using hps)
      | some q =>
        refine ⟨q, rfl, ?_⟩
        obtain ⟨_, as, bs, rfl, has⟩ := List.find?_eq_some_iff_append.1 hf
        rcases List.mem_append.1 hp with hi | hi
        · have hn := has p hi
          simp only [Bool.not_eq_true', decide_eq_false_iff_not] at hn
          omega
        · rcases List.mem_cons.1 hi with rfl | hi
          · exact hlt
          · have hpair := (List.pairwise_append.1 h.pairwise).2.1
            have hle := (List.pairwise_cons.1 hpair).1 p hi
            omega

theorem Spaced.apart {ps : List (Nat × List α)} (h : Spaced lo ps hi) (hs : start < stop)
    (hfree : overlaps ps start stop = false) :
    ∀ p ∈ ps, p.1 + p.2.length ≤ start ∨ stop ≤ p.1 := by
  intro p hp
  by_contra hn
  have ho := (h.overlaps_iff hs).2 ⟨p, hp, by omega, by omega⟩
  rw [hfree] at ho
  cases ho

theorem mem_place {ps : List (Nat × List α)} (hn : ∀ p ∈ ps, p.1 ≠ o) (p : Nat × List α) :
    p ∈ place o b ps ↔ p = (o, b) ∨ p ∈ ps := by
  induction ps with
  | nil => simp only [place, List.mem_singleton, List.not_mem_nil, or_false]
  | cons q ps ih =>
    have hq : o ≠ q.1 := fun he => hn q List.mem_cons_self he.symm
    rw [place, if_neg hq]
    split
    · exact List.mem_cons
    · rw [List.mem_cons, ih fun p hp => hn p (List.mem_cons_of_mem q hp), List.mem_cons]
      exact or_left_comm

theorem size_cons (p : Nat × List α) (ps : List (Nat × List α)) :
    size (p :: ps) = p.2.length + size ps := rfl

theorem size_place {ps : List (Nat × List α)} (hn : ∀ p ∈ ps, p.1 ≠ o) :
    size (place o b ps) = size ps + b.length := by
  induction ps with
  | nil => simp only [place, size, List.map_cons, List.map_nil, List.sum_cons, List.sum_nil, Nat.add_comm]
  | cons q ps ih =>
    have hq : o ≠ q.1 := fun he => hn q List.mem_cons_self he.symm
    have hi := ih fun p hp => hn p (List.mem_cons_of_mem q hp)
    simp only [size] at hi ⊢
    rw [place, if_neg hq]
    split
    · simp only [List.map_cons, List.sum_cons]
      omega
    · simp only [List.map_cons, List.sum_cons, hi]
      omega

theorem length_place {ps : List (Nat × List α)} (hn : ∀ p ∈ ps, p.1 ≠ o) :
    (place o b ps).length = ps.length + 1 := by
  induction ps with
  | nil => rfl
  | cons q ps ih =>
    have hq : o ≠ q.1 := fun he => hn q List.mem_cons_self he.symm
    have hi := ih fun p hp => hn p (List.mem_cons_of_mem q hp)
    rw [place, if_neg hq]
    split
    · rfl
    · rw [List.length_cons, hi, List.length_cons]

theorem place_after {ps : List (Nat × List α)}
    (h : ∀ q ∈ ps, q.2 ≠ [] ∧ q.1 + q.2.length ≤ o) : place o b ps = ps ++ [(o, b)] := by
  induction ps with
  | nil => rfl
  | cons q ps ih =>
    obtain ⟨hne, hle⟩ := h q List.mem_cons_self
    have hpos := List.length_pos_iff.2 hne
    rw [place, if_neg (by omega), if_neg (by omega), ih fun p hp => h p (List.mem_cons_of_mem q hp),
      List.cons_append]

theorem Spaced.place {ps : List (Nat × List α)} (h : Spaced lo ps hi) (hlo : lo ≤ o) (hb : b ≠ [])
    (hhi : o + b.length ≤ hi)
    (hd : ∀ p ∈ ps, p.1 + p.2.length ≤ o ∨ o + b.length ≤ p.1) :
    Spaced lo (place o b ps) hi := by
  have hpos := List.length_pos_iff.2 hb
  induction ps generalizing lo with
  | nil => exact ⟨hlo, hb, hhi⟩
  | cons p ps ih =>
    obtain ⟨hp, hne, hs⟩ := h
    have hlen := List.length_pos_iff.2 hne
    have hdp := hd p List.mem_cons_self
    rw [Pieces.place]
    split
    · exact ⟨hlo, hb, show o + b.length ≤ p.1 by omega, hne, hs⟩
    · rw [if_neg (by omega)]
      exact ⟨hp, hne, ih hs (by omega) fun q hq => hd q (List.mem_cons_of_mem p hq)⟩

theorem Spaced.size_le {ps : List (Nat × List α)} (h : Spaced lo ps hi) : lo + size ps ≤ hi := by
  induction ps generalizing lo with
  | nil => exact h
  | cons p ps ih =>
    have hi := ih h.2.2
    have hlo := h.1
    simp only [size, List.map_cons, List.sum_cons] at hi ⊢
    omega

theorem Spaced.size_add_le {ps : List (Nat × List α)} {b : List α} (h : Spaced lo ps hi)
    (hlo : lo ≤ o) (hb : b ≠ []) (hhi : o + b.length ≤ hi) (hfree : overlaps ps o (o + b.length) = false) :
    lo + (size ps + b.length) ≤ hi := by
  have hpos := List.length_pos_iff.2 hb
  have hd := h.apart (Nat.lt_add_of_pos_right hpos) hfree
  have hne : ∀ p ∈ ps, p.1 ≠ o := by
    intro p hp
    have hp' := h.pos hp
    have hdp := hd p hp
    omega
  rw [← size_place hne]
  exact (h.place hlo hb hhi hd).size_le

theorem Spaced.not_covered {ps : List (Nat × List α)} (h : Spaced lo ps hi) (hx : x < lo) :
    ¬ Covered ps x := by
  rintro ⟨p, hp, hle, _⟩
  have hlo := (h.mem hp).1
  omega

theorem Spaced.covered_iff {ps : List (Nat × List α)} (h : Spaced lo ps hi) :
    lo + size ps = hi ↔ ∀ x, lo ≤ x → x < hi → Covered ps x := by
  induction ps generalizing lo with
  | nil =>
    simp only [size, List.map_nil, List.sum_nil, Nat.add_zero]
    constructor
    · intro he x hx hlt
      omega
    · intro hc
      have hle : lo ≤ hi := h
      by_contra hne
      obtain ⟨p, hp, _⟩ := hc lo (Nat.le_refl lo) (by omega)
      cases hp
  | cons p ps ih =>
    obtain ⟨hp, hne, hs⟩ := h
    have hlen := List.length_pos_iff.2 hne
    have hle := hs.size_le
    have hsize := size_cons p ps
    rw [hsize]
    constructor
    · intro he x hx hlt
      rw [covered_cons]
      by_cases hxp : x < p.1 + p.2.length
      · exact .inl ⟨by omega, hxp⟩
      · exact .inr ((ih hs).1 (by omega) x (by omega) hlt)
    · intro hc
      have hstart : p.1 = lo := by
        by_contra hgt
        rcases (covered_cons p ps lo).1 (hc lo (Nat.le_refl lo) (by omega)) with hl | hl
        · omega
        · exact hs.not_covered (by omega) hl
      have hrest := (ih hs).2 fun x hx hlt => by
        rcases (covered_cons p ps x).1 (hc x (by omega) hlt) with hl | hl
        · omega
        · exact hl
      omega

/-- Pieces cut out of one string, laid end to end, give back the string. -/
theorem Spaced.join_eq {ps : List (Nat × List α)} {l : List α} (h : Spaced lo ps l.length)
    (hl : ∀ p ∈ ps, p.2 = (l.drop p.1).take p.2.length) (hs : lo + size ps = l.length) :
    join ps = l.drop lo := by
  induction ps generalizing lo with
  | nil =>
    simp only [size, List.map_nil, List.sum_nil, Nat.add_zero] at hs
    rw [hs, List.drop_length]
    rfl
  | cons p ps ih =>
    have hle := h.2.2.size_le
    have hlo := h.1
    simp only [size, List.map_cons, List.sum_cons] at hs hle
    have hstart : p.1 = lo := by omega
    have hrest := ih h.2.2 (fun q hq => hl q (List.mem_cons_of_mem p hq)) (by
      simp only [size]
      omega)
    have hcut := hl p List.mem_cons_self
    rw [join, List.flatMap_cons, ← join, hrest, hstart, ← List.drop_drop, ← hstart]
    nth_rewrite 1 [hcut]
    exact List.take_append_drop _ _

theorem size_append (ps qs : List (Nat × List α)) : size (ps ++ qs) = size ps + size qs := by
  simp only [size, List.map_append, List.sum_append]

theorem length_join (ps : List (Nat × List α)) : (join ps).length = size ps :=
  List.length_flatMap

/-- With every place covered, a piece stands in the whole where its offset says. -/
theorem Spaced.getElem?_join {ps : List (Nat × List α)} {p : Nat × List α} (h : Spaced lo ps hi)
    (hs : lo + size ps = hi) (hp : p ∈ ps) (hk : k < p.2.length) :
    (join ps)[p.1 - lo + k]? = p.2[k]? := by
  induction ps generalizing lo with
  | nil => cases hp
  | cons q ps ih =>
    have hle := h.2.2.size_le
    have hlo := h.1
    have hsize := size_cons q ps
    have hstart : q.1 = lo := by omega
    have hjoin : join (q :: ps) = q.2 ++ join ps := List.flatMap_cons
    rw [hjoin]
    rcases List.mem_cons.1 hp with rfl | hp
    · rw [hstart, Nat.sub_self, Nat.zero_add, List.getElem?_append_left hk]
    · have hafter := (h.2.2.mem hp).1
      rw [List.getElem?_append_right (by omega), ← ih h.2.2 (by omega) hp]
      congr 1
      omega

def chunkCount (c : Nat) (l : List α) : Nat := (l.length + c - 1) / c

/-- The pieces of width `c`, the last one shorter, at their offsets from `base`. -/
def cut (c base : Nat) (l : List α) : List (Nat × List α) :=
  (List.range (chunkCount c l)).map fun i => (base + i * c, (l.drop (i * c)).take c)

theorem lt_chunkCount {l : List α} (hc : 0 < c) : i < chunkCount c l ↔ i * c < l.length := by
  rw [chunkCount, Nat.lt_div_iff_mul_lt hc]
  omega

theorem length_cut (c base : Nat) (l : List α) : (cut c base l).length = chunkCount c l := by
  rw [cut, List.length_map, List.length_range]

theorem mem_cut {l : List α} (hc : 0 < c) (p : Nat × List α) :
    p ∈ cut c base l ↔
      ∃ i, i * c < l.length ∧ p = (base + i * c, (l.drop (i * c)).take c) := by
  simp only [cut, List.mem_map, List.mem_range, lt_chunkCount hc]
  constructor
  · rintro ⟨i, hi, rfl⟩
    exact ⟨i, hi, rfl⟩
  · rintro ⟨i, hi, rfl⟩
    exact ⟨i, hi, rfl⟩

theorem length_le_of_mem_cut {l : List α} {p : Nat × List α} (hc : 0 < c) (hp : p ∈ cut c base l) :
    p.2.length ≤ c := by
  obtain ⟨i, _, rfl⟩ := (mem_cut hc p).1 hp
  exact List.length_take_le _ _

theorem cut_spaced (hc : 0 < c) (base : Nat) (l : List α) :
    Spaced base (cut c base l) (base + l.length) := by
  apply spaced_of_pairwise (Nat.le_add_right _ _)
  · intro p hp
    obtain ⟨i, hi, rfl⟩ := (mem_cut hc p).1 hp
    refine ⟨Nat.le_add_right _ _, ?_, ?_⟩
    · apply List.ne_nil_of_length_pos
      simp only [List.length_take, List.length_drop]
      omega
    · simp only [List.length_take, List.length_drop]
      omega
  · rw [cut, List.pairwise_map]
    refine List.pairwise_lt_range.imp ?_
    intro i j hij
    have hmul : (i + 1) * c ≤ j * c := Nat.mul_le_mul_right c hij
    rw [Nat.add_mul, Nat.one_mul] at hmul
    simp only [List.length_take, List.length_drop]
    omega

theorem cut_covered (hc : 0 < c) (base : Nat) (l : List α) (hx : base ≤ x)
    (hlt : x < base + l.length) : Covered (cut c base l) x := by
  refine ⟨_, (mem_cut hc _).2 ⟨(x - base) / c, ?_, rfl⟩, ?_, ?_⟩
  all_goals have hd := Nat.div_add_mod (x - base) c
  all_goals have hm := Nat.mod_lt (x - base) hc
  all_goals rw [Nat.mul_comm] at hd
  · omega
  · omega
  · simp only [List.length_take, List.length_drop]
    omega

theorem size_cut (hc : 0 < c) (base : Nat) (l : List α) : size (cut c base l) = l.length := by
  have hs := (cut_spaced hc base l).covered_iff.2 fun x hx hlt => cut_covered hc base l hx hlt
  omega

theorem cut_slice {l : List α} (hc : 0 < c) {p : Nat × List α} (hp : p ∈ cut c 0 l) :
    p.2 = (l.drop p.1).take p.2.length := by
  obtain ⟨i, _, rfl⟩ := (mem_cut hc p).1 hp
  simp only [Nat.zero_add, List.length_take]
  rw [← List.take_take, List.take_length]

/-- Cutting an aligned range gives the pieces of the whole that lie in it. -/
theorem cut_range {l : List α} (hc : 0 < c) (hs : c ∣ s) (hle : s + n ≤ l.length)
    (he : c ∣ s + n ∨ s + n = l.length) :
    cut c s ((l.drop s).take n) = (cut c 0 l).filter fun p => s ≤ p.1 ∧ p.1 < s + n := by
  obtain ⟨k, rfl⟩ := hs
  apply (cut_spaced hc _ _).ext ((cut_spaced hc 0 l).sublist List.filter_sublist)
  intro p
  have hlen : ((l.drop (c * k)).take n).length = n := by
    rw [List.length_take, List.length_drop]
    omega
  -- the cut of the range and the cut of the whole agree at the index shifted by `k`
  have hpiece : ∀ i, i * c < n →
      (((l.drop (c * k)).take n).drop (i * c)).take c = (l.drop ((k + i) * c)).take c := by
    intro i hi
    rw [List.drop_take, List.drop_drop, List.take_take,
      show c * k + i * c = (k + i) * c by rw [Nat.add_mul, Nat.mul_comm c k]]
    rcases he with ⟨j, hj⟩ | he
    · have hij : k + i < j := by
        apply Nat.lt_of_mul_lt_mul_left
        calc c * (k + i) = c * k + i * c := by rw [Nat.mul_add, Nat.mul_comm c i]
          _ < c * j := by omega
      have hcj : c * (k + i) + c ≤ c * j := by
        rw [← Nat.mul_succ]
        exact Nat.mul_le_mul_left c hij
      rw [Nat.mul_add, Nat.mul_comm c i] at hcj
      rw [Nat.min_eq_left (by omega)]
    · have hall : (l.drop ((k + i) * c)).take (n - i * c) = l.drop ((k + i) * c) := by
        apply List.take_of_length_le
        rw [List.length_drop, Nat.add_mul, Nat.mul_comm k c]
        omega
      rw [← List.take_take, hall]
  rw [mem_cut hc, List.mem_filter, mem_cut hc, hlen]
  constructor
  · rintro ⟨i, hi, rfl⟩
    rw [hpiece i hi]
    refine ⟨⟨k + i, ?_, ?_⟩, ?_⟩
    · rw [Nat.add_mul, Nat.mul_comm k c]
      omega
    · rw [Nat.zero_add, Nat.add_mul, Nat.mul_comm k c]
    · rw [decide_eq_true_eq]
      omega
  · rintro ⟨⟨i, hi, rfl⟩, hr⟩
    simp only [Nat.zero_add, decide_eq_true_eq] at hr
    have hk : k ≤ i := by
      apply Nat.le_of_mul_le_mul_left _ hc
      rw [Nat.mul_comm c i]
      exact hr.1
    have hi' : (i - k) * c = i * c - c * k := by rw [Nat.sub_mul, Nat.mul_comm k c]
    refine ⟨i - k, by omega, ?_⟩
    rw [hpiece (i - k) (by omega), Nat.add_sub_cancel' hk, hi']
    congr 1
    omega

def gaps : Nat → List (Nat × List α) → Nat → List (Nat × Nat)
  | lo, [], hi => if lo < hi then [(lo, hi - lo)] else []
  | lo, p :: ps, hi =>
    (if lo < p.1 then [(lo, p.1 - lo)] else []) ++ gaps (p.1 + p.2.length) ps hi

/-- A maximal range between `lo` and `hi` where `C` fails. -/
structure IsGap (C : Nat → Prop) (lo hi : Nat) (g : Nat × Nat) : Prop where
  low : lo ≤ g.1
  high : g.1 + g.2 ≤ hi
  pos : 0 < g.2
  free : ∀ x, g.1 ≤ x → x < g.1 + g.2 → ¬ C x
  left : g.1 = lo ∨ C (g.1 - 1)
  right : g.1 + g.2 = hi ∨ C (g.1 + g.2)

theorem IsGap.eq_of_mem {C : Nat → Prop} {g g' : Nat × Nat} (h : IsGap C lo hi g)
    (h' : IsGap C lo hi g') (hx : g.1 ≤ x ∧ x < g.1 + g.2) (hx' : g'.1 ≤ x ∧ x < g'.1 + g'.2) :
    g = g' := by
  have hstart : ∀ {a b : Nat × Nat}, IsGap C lo hi a → IsGap C lo hi b →
      a.1 ≤ x → x < a.1 + a.2 → b.1 ≤ x → x < b.1 + b.2 → a.1 ≤ b.1 := by
    intro a b ha hb ha1 ha2 hb1 hb2
    by_contra hlt
    rcases ha.left with hl | hl
    · have := hb.low
      omega
    · exact hb.free (a.1 - 1) (by omega) (by omega) hl
  have hstop : ∀ {a b : Nat × Nat}, IsGap C lo hi a → IsGap C lo hi b →
      a.1 ≤ x → x < a.1 + a.2 → b.1 ≤ x → x < b.1 + b.2 → b.1 + b.2 ≤ a.1 + a.2 := by
    intro a b ha hb ha1 ha2 hb1 hb2
    by_contra hlt
    rcases ha.right with hr | hr
    · have := hb.high
      omega
    · exact hb.free (a.1 + a.2) (by omega) (by omega) hr
  have h1 := hstart h h' hx.1 hx.2 hx'.1 hx'.2
  have h2 := hstart h' h hx'.1 hx'.2 hx.1 hx.2
  have h3 := hstop h h' hx.1 hx.2 hx'.1 hx'.2
  have h4 := hstop h' h hx'.1 hx'.2 hx.1 hx.2
  exact Prod.ext (by omega) (by omega)

theorem gaps_bounds {ps : List (Nat × List α)} (h : Spaced lo ps hi) {g : Nat × Nat}
    (hg : g ∈ gaps lo ps hi) : lo ≤ g.1 ∧ 0 < g.2 ∧ g.1 + g.2 ≤ hi := by
  induction ps generalizing lo with
  | nil =>
    rw [gaps] at hg
    split at hg
    · cases List.mem_singleton.1 hg
      simp only
      omega
    · cases hg
  | cons p ps ih =>
    obtain ⟨hlo, _, hs⟩ := h
    rw [gaps, List.mem_append] at hg
    rcases hg with hg | hg
    · split at hg
      · cases List.mem_singleton.1 hg
        have hle := hs.le
        simp only
        omega
      · cases hg
    · have hb := ih hs hg
      omega

theorem gaps_pairwise {ps : List (Nat × List α)} (h : Spaced lo ps hi) :
    (gaps lo ps hi).Pairwise fun g g' => g.1 + g.2 < g'.1 := by
  induction ps generalizing lo with
  | nil =>
    rw [gaps]
    split
    · exact List.pairwise_singleton _ _
    · exact .nil
  | cons p ps ih =>
    obtain ⟨hlo, hne, hs⟩ := h
    have hpos := List.length_pos_iff.2 hne
    rw [gaps]
    refine List.pairwise_append.2 ⟨?_, ih hs, ?_⟩
    · split
      · exact List.pairwise_singleton _ _
      · exact .nil
    · intro g hg g' hg'
      split at hg
      · cases List.mem_singleton.1 hg
        have hb := gaps_bounds hs hg'
        simp only
        omega
      · cases hg

theorem isGap_nil_iff (g : Nat × Nat) :
    IsGap (Covered ([] : List (Nat × List α))) lo hi g ↔ lo < hi ∧ g = (lo, hi - lo) := by
  have hn : ∀ x, ¬ Covered ([] : List (Nat × List α)) x := by
    rintro x ⟨p, hp, _⟩
    cases hp
  constructor
  · intro hg
    have hl := hg.left.resolve_right (hn _)
    have hr := hg.right.resolve_right (hn _)
    have hpos := hg.pos
    exact ⟨by omega, Prod.ext hl (by simp only; omega)⟩
  · rintro ⟨hlt, rfl⟩
    exact ⟨by simp only; omega, by simp only; omega, by simp only; omega,
      fun x _ _ => hn x, .inl rfl, .inl (by simp only; omega)⟩

section Cons

variable {p : Nat × List α} {ps : List (Nat × List α)}

theorem isGap_front (h : Spaced lo (p :: ps) hi) (hlt : lo < p.1) :
    IsGap (Covered (p :: ps)) lo hi (lo, p.1 - lo) := by
  obtain ⟨_, hne, hs⟩ := h
  have hpos := List.length_pos_iff.2 hne
  have hhi := hs.le
  refine ⟨Nat.le_refl _, by simp only; omega, by simp only; omega, ?_, .inl rfl, .inr ?_⟩
  · intro x hx hlt hc
    simp only at hx hlt
    rcases (covered_cons p ps x).1 hc with hc | hc
    · omega
    · exact hs.not_covered (by omega) hc
  · rw [show lo + (p.1 - lo) = p.1 by omega]
    exact (covered_cons p ps _).2 (.inl ⟨Nat.le_refl _, by omega⟩)

theorem IsGap.eq_front (hg : IsGap (Covered (p :: ps)) lo hi g) (h : Spaced lo (p :: ps) hi)
    (hlt : g.1 < p.1) : lo < p.1 ∧ g = (lo, p.1 - lo) := by
  obtain ⟨_, hne, hs⟩ := h
  have hpos := List.length_pos_iff.2 hne
  have hgpos := hg.pos
  have hlow := hg.low
  have hl : g.1 = lo := by
    refine hg.left.resolve_right ?_
    intro hc
    rcases (covered_cons p ps _).1 hc with hc | hc
    · omega
    · exact hs.not_covered (by omega) hc
  have hle : g.1 + g.2 ≤ p.1 := by
    by_contra hgt
    exact hg.free p.1 (by omega) (by omega)
      ((covered_cons p ps _).2 (.inl ⟨Nat.le_refl _, by omega⟩))
  have hr : g.1 + g.2 = p.1 := by
    rcases hg.right with hr | hr
    · have := hs.le
      omega
    · rcases (covered_cons p ps _).1 hr with hc | hc
      · omega
      · exact absurd hc (hs.not_covered (by omega))
  exact ⟨by omega, Prod.ext hl (by simp only; omega)⟩

theorem isGap_cons_iff (h : Spaced lo (p :: ps) hi) (hge : p.1 ≤ g.1) :
    IsGap (Covered (p :: ps)) lo hi g ↔ IsGap (Covered ps) (p.1 + p.2.length) hi g := by
  obtain ⟨hlo, hne, hs⟩ := h
  have hpos := List.length_pos_iff.2 hne
  constructor
  · intro hg
    have hend : p.1 + p.2.length ≤ g.1 := by
      by_contra hc
      exact hg.free g.1 (Nat.le_refl _) (by have := hg.pos; omega)
        ((covered_cons p ps _).2 (.inl ⟨by omega, by omega⟩))
    refine ⟨hend, hg.high, hg.pos, ?_, ?_, ?_⟩
    · intro x hx hlt' hc
      exact hg.free x hx hlt' ((covered_cons p ps _).2 (.inr hc))
    · by_cases he : g.1 = p.1 + p.2.length
      · exact .inl he
      · right
        rcases hg.left with hl | hl
        · omega
        · rcases (covered_cons p ps _).1 hl with hc | hc
          · omega
          · exact hc
    · refine hg.right.imp_right fun hr => ?_
      rcases (covered_cons p ps _).1 hr with hc | hc
      · omega
      · exact hc
  · intro hg
    have hlow := hg.low
    refine ⟨by omega, hg.high, hg.pos, ?_, .inr ?_, ?_⟩
    · intro x hx hlt hc
      rcases (covered_cons p ps x).1 hc with hc | hc
      · omega
      · exact hg.free x hx hlt hc
    · rcases hg.left with hl | hl
      · rw [hl]
        exact (covered_cons p ps _).2 (.inl ⟨by omega, by omega⟩)
      · exact (covered_cons p ps _).2 (.inr hl)
    · exact hg.right.imp_right fun hr => (covered_cons p ps _).2 (.inr hr)

end Cons

/-- The ranges listed are exactly the maximal uncovered ones. -/
theorem mem_gaps {ps : List (Nat × List α)} (h : Spaced lo ps hi) (g : Nat × Nat) :
    g ∈ gaps lo ps hi ↔ IsGap (Covered ps) lo hi g := by
  induction ps generalizing lo with
  | nil =>
    rw [isGap_nil_iff, gaps]
    by_cases hlt : lo < hi
    · rw [if_pos hlt, List.mem_singleton, and_iff_right hlt]
    · rw [if_neg hlt]
      exact iff_of_false List.not_mem_nil fun hg => hlt hg.1
  | cons p ps ih =>
    have hs := h.2.2
    rw [gaps, List.mem_append, ih hs]
    constructor
    · rintro (hg | hg)
      · split at hg
        · next hlt =>
          cases List.mem_singleton.1 hg
          exact isGap_front h hlt
        · cases hg
      · have hlow := hg.low
        exact (isGap_cons_iff h (by omega)).2 hg
    · intro hg
      by_cases hlt : g.1 < p.1
      · obtain ⟨hfront, he⟩ := hg.eq_front h hlt
        left
        rw [if_pos hfront, List.mem_singleton]
        exact he
      · exact .inr ((isGap_cons_iff h (Nat.not_lt.1 hlt)).1 hg)

theorem mem_gap_of_not_covered {ps : List (Nat × List α)} (h : Spaced lo ps hi) (hlo : lo ≤ x)
    (hhi : x < hi) (hx : ¬ Covered ps x) :
    ∃ g ∈ gaps lo ps hi, g.1 ≤ x ∧ x < g.1 + g.2 := by
  induction ps generalizing lo with
  | nil =>
    rw [gaps, if_pos (by omega)]
    exact ⟨_, List.mem_cons_self, hlo, by simp only; omega⟩
  | cons p ps ih =>
    rw [covered_cons, not_or] at hx
    rw [gaps]
    by_cases hp : x < p.1
    · refine ⟨(lo, p.1 - lo), List.mem_append_left _ ?_, hlo, by simp only; omega⟩
      rw [if_pos (by omega)]
      exact List.mem_cons_self
    · obtain ⟨g, hg, hr⟩ := ih h.2.2 (by omega) hx.2
      exact ⟨g, List.mem_append_right _ hg, hr⟩

theorem gaps_nodup {ps : List (Nat × List α)} (h : Spaced lo ps hi) : (gaps lo ps hi).Nodup := by
  refine (gaps_pairwise h).imp ?_
  rintro g g' hlt rfl
  omega

/-- Filling the first ranges leaves the others as they were. -/
theorem gaps_fill {ps qs : List (Nat × List α)} (hp : Spaced lo ps hi) (hq : Spaced lo qs hi)
    (hc : ∀ x, Covered qs x ↔
      Covered ps x ∨ ∃ g ∈ (gaps lo ps hi).take m, g.1 ≤ x ∧ x < g.1 + g.2) :
    gaps lo qs hi = (gaps lo ps hi).drop m := by
  have htake : ∀ {g}, g ∈ (gaps lo ps hi).take m → IsGap (Covered ps) lo hi g :=
    fun hg => (mem_gaps hp _).1 (List.mem_of_mem_take hg)
  have hmem : ∀ g, g ∈ gaps lo qs hi ↔ g ∈ (gaps lo ps hi).drop m := by
    intro g
    rw [mem_gaps hq]
    constructor
    · intro hg
      have hfree : ∀ x, g.1 ≤ x → x < g.1 + g.2 → ¬ Covered ps x :=
        fun x hx hlt hx' => hg.free x hx hlt ((hc x).2 (.inl hx'))
      have hpos := hg.pos
      have hold : IsGap (Covered ps) lo hi g := by
        refine ⟨hg.low, hg.high, hpos, hfree, ?_, ?_⟩
        · rcases hg.left with hl | hl
          · exact .inl hl
          rcases (hc _).1 hl with hl | ⟨g₀, hg₀, hle, hlt⟩
          · exact .inr hl
          -- a filled range that ends where this one starts is not maximal
          · have hend : g₀.1 + g₀.2 = g.1 := by
              by_contra hne
              exact hg.free g.1 (Nat.le_refl _) (by omega)
                ((hc _).2 (.inr ⟨g₀, hg₀, by omega, by omega⟩))
            rcases (htake hg₀).right with hr | hr
            · have := hg.high
              omega
            · exact absurd hr (hend ▸ hfree g.1 (Nat.le_refl _) (by omega))
        · rcases hg.right with hr | hr
          · exact .inl hr
          rcases (hc _).1 hr with hr | ⟨g₀, hg₀, hle, hlt⟩
          · exact .inr hr
          · have hstart : g₀.1 = g.1 + g.2 := by
              by_contra hne
              exact hg.free (g.1 + g.2 - 1) (by omega) (by omega)
                ((hc _).2 (.inr ⟨g₀, hg₀, by omega, by omega⟩))
            rcases (htake hg₀).left with hl | hl
            · have := hg.low
              omega
            · exact absurd hl (hfree _ (by omega) (by omega))
      have hin := (mem_gaps hp g).2 hold
      rw [← List.take_append_drop m (gaps lo ps hi)] at hin
      refine (List.mem_append.1 hin).resolve_left fun hg' => ?_
      exact hg.free g.1 (Nat.le_refl _) (by omega) ((hc _).2 (.inr ⟨g, hg', by omega, by omega⟩))
    · intro hg
      have hold := (mem_gaps hp g).1 (List.mem_of_mem_drop hg)
      refine ⟨hold.low, hold.high, hold.pos, ?_, ?_, ?_⟩
      · intro x hx hlt hx'
        rcases (hc x).1 hx' with hx' | ⟨g₀, hg₀, hle₀, hlt₀⟩
        · exact hold.free x hx hlt hx'
        · have he := hold.eq_of_mem (htake hg₀) ⟨hx, hlt⟩ ⟨hle₀, hlt₀⟩
          rw [he] at hg
          exact List.disjoint_take_drop (gaps_nodup hp) (Nat.le_refl m) hg₀ hg
      · exact hold.left.imp_right fun hl => (hc _).2 (.inl hl)
      · exact hold.right.imp_right fun hr => (hc _).2 (.inl hr)
  have hperm := (List.perm_ext_iff_of_nodup (gaps_nodup hq)
    ((gaps_nodup hp).sublist (List.drop_sublist m _))).2 hmem
  refine hperm.eq_of_pairwise ?_ (gaps_pairwise hq)
    ((gaps_pairwise hp).sublist (List.drop_sublist m _))
  intro a b _ _ hab hba
  omega

theorem gaps_eq_nil_iff {ps : List (Nat × List α)} (h : Spaced lo ps hi) :
    gaps lo ps hi = [] ↔ lo + size ps = hi := by
  induction ps generalizing lo with
  | nil =>
    have hle : lo ≤ hi := h
    simp only [gaps, size, List.map_nil, List.sum_nil, ite_eq_right_iff,
      reduceCtorEq, imp_false]
    omega
  | cons p ps ih =>
    have hle := h.2.2.size_le
    have hlo := h.1
    simp only [gaps, List.append_eq_nil_iff, ih h.2.2, ite_eq_right_iff, reduceCtorEq,
      imp_false, size, List.map_cons, List.sum_cons] at hle ⊢
    omega

theorem flatMap_ranges {ps : List (Nat × List α)} {gs : List (Nat × Nat)} (h : Spaced lo ps hi)
    (hg : gs.Pairwise fun g g' => g.1 + g.2 ≤ g'.1) :
    (gs.flatMap fun g => ps.filter fun p => g.1 ≤ p.1 ∧ p.1 < g.1 + g.2) =
      ps.filter fun p => ∃ g ∈ gs, g.1 ≤ p.1 ∧ p.1 < g.1 + g.2 := by
  have hpick : ∀ (g : Nat × Nat) p, p ∈ ps.filter (fun p => g.1 ≤ p.1 ∧ p.1 < g.1 + g.2) ↔
      p ∈ ps ∧ g.1 ≤ p.1 ∧ p.1 < g.1 + g.2 := by
    intro g p
    rw [List.mem_filter, decide_eq_true_eq]
  have hflat : Spaced lo (gs.flatMap fun g => ps.filter fun p => g.1 ≤ p.1 ∧ p.1 < g.1 + g.2)
      hi := by
    apply spaced_of_pairwise h.le
    · intro p hp
      obtain ⟨g, _, hp⟩ := List.mem_flatMap.1 hp
      exact h.mem ((hpick g p).1 hp).1
    · refine List.pairwise_flatMap.2 ⟨fun g _ => h.pairwise.filter _, hg.imp ?_⟩
      intro g g' hle p hp q hq
      obtain ⟨hp, _, hlt⟩ := (hpick g p).1 hp
      obtain ⟨hq, hge, _⟩ := (hpick g' q).1 hq
      have hpos := h.pos hq
      rcases h.disjoint hp hq with rfl | hd | hd
      · omega
      · exact hd
      · omega
  apply hflat.ext (h.sublist List.filter_sublist)
  intro p
  rw [List.mem_flatMap, List.mem_filter, decide_eq_true_eq]
  constructor
  · rintro ⟨g, hg, hp⟩
    obtain ⟨hp, hr⟩ := (hpick g p).1 hp
    exact ⟨hp, g, hg, hr⟩
  · rintro ⟨hp, g, hg, hr⟩
    exact ⟨g, hg, (hpick g p).2 ⟨hp, hr⟩⟩

section Originals

variable {l : List α} {ps : List (Nat × List α)}

theorem disjoint_of_not_mem (hc : 0 < c) (hsub : ∀ p ∈ ps, p ∈ cut c 0 l) {q : Nat × List α}
    (hq : q ∈ cut c 0 l) (hn : q ∉ ps) :
    ∀ p ∈ ps, p.1 + p.2.length ≤ q.1 ∨ q.1 + q.2.length ≤ p.1 := by
  intro p hp
  refine ((cut_spaced hc 0 l).disjoint (hsub p hp) hq).resolve_left ?_
  rintro rfl
  exact hn hp

theorem cut_end (hc : 0 < c) {p : Nat × List α} (hp : p ∈ cut c 0 l) :
    c ∣ p.1 ∧ (c ∣ p.1 + p.2.length ∨ p.1 + p.2.length = l.length) := by
  obtain ⟨i, hi, rfl⟩ := (mem_cut hc p).1 hp
  simp only [Nat.zero_add, List.length_take, List.length_drop]
  refine ⟨Nat.dvd_mul_left c i, ?_⟩
  by_cases hle : c ≤ l.length - i * c
  · left
    rw [Nat.min_eq_left hle]
    exact (Nat.dvd_add_right (Nat.dvd_mul_left c i)).2 (Nat.dvd_refl c)
  · right
    omega

/-- A range that is missing starts and ends where pieces do. -/
theorem gap_aligned (hc : 0 < c) (hs : Spaced 0 ps l.length) (hsub : ∀ p ∈ ps, p ∈ cut c 0 l)
    {g : Nat × Nat} (hg : g ∈ gaps 0 ps l.length) :
    c ∣ g.1 ∧ (c ∣ g.1 + g.2 ∨ g.1 + g.2 = l.length) := by
  have hgap := (mem_gaps hs g).1 hg
  have hpos := hgap.pos
  have hhigh := hgap.high
  constructor
  · rcases hgap.left with hl | ⟨p, hp, hle, hlt⟩
    · rw [hl]
      exact Nat.dvd_zero c
    · have hend : p.1 + p.2.length ≤ g.1 := by
        by_contra hgt
        exact hgap.free g.1 (Nat.le_refl _) (by omega) ⟨p, hp, by omega, by omega⟩
      rcases (cut_end hc (hsub p hp)).2 with hd | he
      · rwa [show g.1 = p.1 + p.2.length by omega]
      · omega
  · rcases hgap.right with hr | ⟨p, hp, hle, hlt⟩
    · exact .inr hr
    · left
      have hstart : g.1 + g.2 ≤ p.1 := by
        by_contra hgt
        exact hgap.free (g.1 + g.2 - 1) (by omega) (by omega) ⟨p, hp, by omega, by omega⟩
      rw [show g.1 + g.2 = p.1 by omega]
      exact (cut_end hc (hsub p hp)).1

theorem cut_gap (hc : 0 < c) (hs : Spaced 0 ps l.length) (hsub : ∀ p ∈ ps, p ∈ cut c 0 l)
    {g : Nat × Nat} (hg : g ∈ gaps 0 ps l.length) :
    cut c g.1 ((l.drop g.1).take g.2) =
      (cut c 0 l).filter fun p => g.1 ≤ p.1 ∧ p.1 < g.1 + g.2 :=
  cut_range hc (gap_aligned hc hs hsub hg).1 (gaps_bounds hs hg).2.2 (gap_aligned hc hs hsub hg).2

theorem size_eq_length_iff (hc : 0 < c) (hs : Spaced 0 ps l.length)
    (hsub : ∀ p ∈ ps, p ∈ cut c 0 l) : size ps = l.length ↔ ∀ q ∈ cut c 0 l, q ∈ ps := by
  have hcov := hs.covered_iff
  rw [Nat.zero_add] at hcov
  rw [hcov]
  constructor
  · intro hall q hq
    have hpos := (cut_spaced hc 0 l).pos hq
    have hend := ((cut_spaced hc 0 l).mem hq).2.2
    obtain ⟨p, hp, hle, hlt⟩ := hall q.1 (Nat.zero_le _) (by omega)
    rcases (cut_spaced hc 0 l).disjoint (hsub p hp) hq with rfl | hd | hd
    · exact hp
    · omega
    · omega
  · intro hall x _ hx
    obtain ⟨q, hq, hr⟩ := cut_covered hc 0 l (Nat.zero_le x) (by omega)
    exact ⟨q, hall q hq, hr⟩

theorem join_eq_of_size (hc : 0 < c) (hs : Spaced 0 ps l.length) (hsub : ∀ p ∈ ps, p ∈ cut c 0 l)
    (h : size ps = l.length) : join ps = l := by
  have hj := hs.join_eq (fun p hp => cut_slice hc (hsub p hp)) (by rw [Nat.zero_add, h])
  rwa [List.drop_zero] at hj

theorem length_lt_of_not_mem (hs : Spaced 0 ps l.length)
    (hsub : ∀ p ∈ ps, p ∈ cut c 0 l) {q : Nat × List α} (hq : q ∈ cut c 0 l) (hn : q ∉ ps) :
    ps.length < chunkCount c l := by
  rw [← length_cut c 0]
  have hle : (q :: ps).length ≤ (cut c 0 l).length := by
    apply List.Subperm.length_le
    apply List.subperm_of_subset (List.nodup_cons.2 ⟨hn, hs.nodup⟩)
    intro p hp
    rcases List.mem_cons.1 hp with rfl | hp
    · exact hq
    · exact hsub p hp
  exact hle

end Originals

end Lib.Pieces
