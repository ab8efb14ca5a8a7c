import Mathlib.Init

namespace Lib.Text
set_option autoImplicit true

def bytes (s : String) : List UInt8 := s.toByteArray.data.toList

/-- Every byte of a character but its first is one from 128 to 191. -/
def startsChar (b : UInt8) : Bool := b.toNat < 128 || 192 ≤ b.toNat

def isCharBoundary (s : String) (i : Nat) : Bool :=
  i == 0 ||
    match (bytes s)[i]? with
    | some b => startsChar b
    | none => i == (bytes s).length

/-- The part of a text between two offsets; there is none when an offset is past the end or inside
a character. -/
def slice (s : String) (a b : Nat) : Option (List UInt8) :=
  if a ≤ b && isCharBoundary s a && isCharBoundary s b then some (((bytes s).drop a).take (b - a))
  else none

theorem bytes_eq_flatMap (s : String) : bytes s = s.toList.flatMap String.utf8EncodeChar := by
  rw [bytes, ← String.utf8Encode_toList, List.utf8Encode, List.toList_data_toByteArray]

theorem utf8EncodeChar_ascii {c : Char} (h : c.toNat < 128) :
    String.utf8EncodeChar c = [UInt8.ofNat c.toNat] :=
  if_pos (Nat.le_of_lt_succ h)

/-- A character that is not ASCII starts with a byte above all that continue one, and has none that
is ASCII. -/
theorem utf8EncodeChar_wide {c : Char} (h : 128 ≤ c.toNat) :
    ∃ b bs, String.utf8EncodeChar c = b :: bs ∧ 192 ≤ b.toNat ∧ ∀ x ∈ bs, 128 ≤ x.toNat := by
  have hc : ¬ c.val.toNat ≤ 127 := Nat.not_le.2 h
  have hbyte (n : Nat) (hn : n < 256) : (UInt8.ofNat n).toNat = n := by
    rw [UInt8.toNat_ofNat', Nat.mod_eq_of_lt hn]
  have hrest (n : Nat) : 128 ≤ (UInt8.ofNat (n % 64 + 128)).toNat := by
    rw [hbyte _ (by omega)]
    omega
  rw [String.utf8EncodeChar]
  simp only [if_neg hc]
  -- two, three or four bytes: the first one says how many, the others carry six bits each
  split
  · refine ⟨_, _, rfl, ?_, ?_⟩
    · rw [hbyte _ (by omega)]
      omega
    · simpa using hrest _
  split
  · refine ⟨_, _, rfl, ?_, ?_⟩
    · rw [hbyte _ (by omega)]
      omega
    · simpa using ⟨hrest _, hrest _⟩
  · refine ⟨_, _, rfl, ?_, ?_⟩
    · rw [hbyte _ (by omega)]
      omega
    · simpa using ⟨hrest _, hrest _, hrest _⟩

theorem exists_startsChar (c : Char) :
    ∃ b bs, String.utf8EncodeChar c = b :: bs ∧ startsChar b = true := by
  rcases Nat.lt_or_ge c.toNat 128 with hlt | hge
  · refine ⟨_, [], utf8EncodeChar_ascii hlt, ?_⟩
    rw [startsChar, UInt8.toNat_ofNat', Nat.mod_eq_of_lt (by omega), decide_eq_true hlt,
      Bool.true_or]
  · obtain ⟨b, bs, he, hb, _⟩ := utf8EncodeChar_wide hge
    exact ⟨b, bs, he, by rw [startsChar, decide_eq_true hb, Bool.or_true]⟩

theorem bytes_of_ascii {s : String} (h : ∀ c ∈ s.toList, c.toNat < 128) :
    bytes s = s.toList.map fun c => UInt8.ofNat c.toNat := by
  rw [bytes_eq_flatMap]
  generalize s.toList = cs at h
  induction cs with
  | nil => rfl
  | cons c cs ih =>
    rw [List.flatMap_cons, utf8EncodeChar_ascii (h c List.mem_cons_self),
      ih fun c' hc' => h c' (List.mem_cons_of_mem c hc')]
    rfl

theorem ascii_of_bytes {s : String} (h : ∀ b ∈ bytes s, b.toNat < 128) :
    ∀ c ∈ s.toList, c.toNat < 128 := by
  intro c hc
  rcases Nat.lt_or_ge c.toNat 128 with hlt | hge
  · exact hlt
  · obtain ⟨b, bs, he, hb, _⟩ := utf8EncodeChar_wide hge
    have hin : b ∈ bytes s := by
      rw [bytes_eq_flatMap]
      exact List.mem_flatMap.2 ⟨c, hc, he ▸ List.mem_cons_self⟩
    have hlt := h b hin
    omega

theorem isCharBoundary_of_ascii {s : String} (h : ∀ b ∈ bytes s, b.toNat < 128)
    (hi : i ≤ (bytes s).length) : isCharBoundary s i = true := by
  rw [isCharBoundary, Bool.or_eq_true]
  right
  split
  · next b hb =>
    rw [startsChar, decide_eq_true (h b (List.mem_of_getElem? hb)), Bool.true_or]
  · next hnone =>
    rw [beq_iff_eq]
    exact Nat.le_antisymm hi (List.getElem?_eq_none_iff.1 hnone)

theorem startsChar_of_ascii {cs : List Char} {b y : UInt8} (hb : b.toNat < 128)
    (h : (cs.flatMap String.utf8EncodeChar)[i]? = some b)
    (hy : (cs.flatMap String.utf8EncodeChar)[i + 1]? = some y) : startsChar y = true := by
  induction cs generalizing i with
  | nil => cases h
  | cons c cs ih =>
    rw [List.flatMap_cons] at h hy
    rcases Nat.lt_or_ge i (String.utf8EncodeChar c).length with hi | hi
    · -- the byte is the whole character, and the next one opens another
      rw [List.getElem?_append_left hi] at h
      have hc : c.toNat < 128 := by
        apply Nat.lt_of_not_le
        intro hge
        obtain ⟨b', bs, he, hb', hbs⟩ := utf8EncodeChar_wide hge
        rw [he] at h
        rcases List.mem_cons.1 (List.mem_of_getElem? h) with rfl | hin
        · omega
        · have hle := hbs b hin
          omega
      rw [utf8EncodeChar_ascii hc] at hi hy
      have hzero : i = 0 := Nat.lt_one_iff.1 hi
      rw [hzero, List.singleton_append, List.getElem?_cons_succ] at hy
      cases cs with
      | nil => cases hy
      | cons c' cs =>
        obtain ⟨y', bs, he, hs⟩ := exists_startsChar c'
        rw [List.flatMap_cons, he, List.cons_append, List.getElem?_cons_zero] at hy
        cases hy
        exact hs
    · rw [List.getElem?_append_right hi] at h
      rw [List.getElem?_append_right (Nat.le_succ_of_le hi), Nat.succ_sub hi] at hy
      exact ih h hy

theorem isCharBoundary_succ {s : String} (h : (bytes s)[i]? = some b) (hb : b.toNat < 128) :
    isCharBoundary s (i + 1) = true := by
  rw [isCharBoundary, Bool.or_eq_true]
  right
  split
  · next y hy =>
    rw [bytes_eq_flatMap] at h hy
    exact startsChar_of_ascii hb h hy
  · next hnone =>
    rw [beq_iff_eq]
    have hlt := (List.getElem?_eq_some_iff.1 h).1
    exact Nat.le_antisymm hlt (List.getElem?_eq_none_iff.1 hnone)

theorem slice_pair {s : String} (h : a + 2 ≤ (bytes s).length) :
    ∃ x y, (bytes s)[a]? = some x ∧ (bytes s)[a + 1]? = some y ∧
      slice s a (a + 2) =
        if isCharBoundary s a && isCharBoundary s (a + 2) then some [x, y] else none := by
  have hx : a < (bytes s).length := by omega
  have hy : a + 1 < (bytes s).length := by omega
  refine ⟨_, _, List.getElem?_eq_getElem hx, List.getElem?_eq_getElem hy, ?_⟩
  rw [slice, decide_eq_true (Nat.le_add_right a 2), Bool.true_and, Nat.add_sub_cancel_left,
    List.drop_eq_getElem_cons hx, List.drop_eq_getElem_cons hy]
  rfl

def toDigit (code : Nat) : Option Nat :=
  if 48 ≤ code ∧ code ≤ 57 then some (code - 48)
  else if 97 ≤ code ∧ code ≤ 102 then some (code - 97 + 10)
  else if 65 ≤ code ∧ code ≤ 70 then some (code - 65 + 10)
  else none

def digits (result : Nat) : List UInt8 → Option Nat
  | [] => some result
  | b :: rest =>
    match toDigit b.toNat with
    | none => none
    | some d => if 255 < result * 16 + d then none else digits (result * 16 + d) rest

def plus : UInt8 := 0x2B

def minus : UInt8 := 0x2D

/-- A byte in radix 16: an optional plus sign, then at least one digit. -/
def fromStrRadix : List UInt8 → Option UInt8
  | [] => none
  | b :: rest =>
    if rest.isEmpty && (b == plus || b == minus) then none
    else if b == plus then (digits 0 rest).map UInt8.ofNat
    else (digits 0 (b :: rest)).map UInt8.ofNat

def isHexDigit (c : Char) : Bool :=
  ('0' ≤ c && c ≤ '9') || ('a' ≤ c && c ≤ 'f') || ('A' ≤ c && c ≤ 'F')

theorem toDigit_cases (h : toDigit code = some d) : code < 128 ∧ code ≠ plus.toNat ∧ d < 16 := by
  have hplus : plus.toNat = 43 := rfl
  unfold toDigit at h
  split at h
  · cases h
    omega
  split at h
  · cases h
    omega
  split at h
  · cases h
    omega
  · cases h

theorem isHexDigit_iff (c : Char) : isHexDigit c = true ↔ ∃ d, toDigit c.toNat = some d := by
  have hle (a b : Char) : decide (a ≤ b) = decide (a.toNat ≤ b.toNat) :=
    decide_eq_decide.2 (Char.le_def.trans UInt32.le_iff_toNat_le)
  simp only [isHexDigit, hle, toDigit]
  have h0 : '0'.toNat = 48 := rfl
  have h9 : '9'.toNat = 57 := rfl
  have ha : 'a'.toNat = 97 := rfl
  have hf : 'f'.toNat = 102 := rfl
  have hA : 'A'.toNat = 65 := rfl
  have hF : 'F'.toNat = 70 := rfl
  rw [h0, h9, ha, hf, hA, hF]
  simp only [Bool.or_eq_true, Bool.and_eq_true, decide_eq_true_eq]
  split
  · next h => exact iff_of_true (.inl (.inl h)) ⟨_, rfl⟩
  split
  · next h => exact iff_of_true (.inl (.inr h)) ⟨_, rfl⟩
  split
  · next h => exact iff_of_true (.inr h) ⟨_, rfl⟩
  · next h₁ h₂ h₃ =>
    refine iff_of_false ?_ (by rintro ⟨_, ⟨⟩⟩)
    rintro ((h | h) | h)
    · exact h₁ h
    · exact h₂ h
    · exact h₃ h

theorem fromStrRadix_pair (a b : UInt8) :
    fromStrRadix [a, b] =
      if a = plus then (toDigit b.toNat).map UInt8.ofNat
      else (toDigit a.toNat).bind fun x =>
        (toDigit b.toNat).map fun y => UInt8.ofNat (16 * x + y) := by
  have hone (r : Nat) (hr : r < 16) : digits r [b] = (toDigit b.toNat).map fun y => 16 * r + y := by
    rw [digits]
    split
    · next h => rw [h]; rfl
    · next d h =>
      have hd := (toDigit_cases h).2.2
      rw [h, if_neg (by omega), digits, Option.map_some, Nat.mul_comm]
  simp only [fromStrRadix, List.isEmpty_cons, Bool.false_and, Bool.false_eq_true, if_false,
    beq_iff_eq]
  split
  · rw [hone 0 (by decide), Option.map_map]
    simp only [Nat.mul_zero, Nat.zero_add]
    rfl
  · rw [digits]
    split
    · next h => rw [h]; rfl
    · next x h =>
      have hx := (toDigit_cases h).2.2
      rw [h, if_neg (by omega), Nat.zero_mul, Nat.zero_add, hone x hx, Option.map_map]
      rfl

theorem fromStrRadix_pair_cases (h : fromStrRadix [a, b] = some v) :
    ∃ y, toDigit b.toNat = some y ∧
      (a = plus ∨ ∃ x, toDigit a.toNat = some x ∧ v = UInt8.ofNat (16 * x + y)) := by
  rw [fromStrRadix_pair] at h
  split at h
  · next ha =>
    obtain ⟨y, hy, _⟩ := Option.map_eq_some_iff.1 h
    exact ⟨y, hy, .inl ha⟩
  · obtain ⟨x, hx, hv⟩ := Option.bind_eq_some_iff.1 h
    obtain ⟨y, hy, hv⟩ := Option.map_eq_some_iff.1 hv
    exact ⟨y, hy, .inr ⟨x, hx, hv.symm⟩⟩

end Lib.Text
