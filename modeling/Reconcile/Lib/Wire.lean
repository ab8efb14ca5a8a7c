import Reconcile.Lib.HashMap

namespace Lib
set_option autoImplicit true

/-- A self-delimiting binary form: a reader gives back what was written, and the bytes after it. -/
structure Wire (α : Type) where
  write : α → Option (List UInt8)
  read : List UInt8 → Option (α × List UInt8)
  read_write : ∀ a bytes rest, write a = some bytes → read (bytes ++ rest) = some (a, rest)

namespace Wire

def leBytes : Nat → Nat → List UInt8
  | 0, _ => []
  | k + 1, n => .ofNat n :: leBytes k (n / 256)

theorem leBytes_length (k n : Nat) : (leBytes k n).length = k := by
  induction k generalizing n with
  | zero => rfl
  | succ k ih => rw [leBytes, List.length_cons, ih]

theorem leBytes_mod (k n : Nat) : leBytes k (n % 256 ^ k) = leBytes k n := by
  induction k generalizing n with
  | zero => rfl
  | succ k ih =>
    have hhead : UInt8.ofNat (n % 256 ^ (k + 1)) = UInt8.ofNat n := by
      apply UInt8.toNat_inj.1
      simp only [UInt8.toNat_ofNat', Nat.reducePow]
      exact Nat.mod_mod_of_dvd n (Dvd.intro_left _ (Nat.pow_succ ..).symm)
    have htail : n % 256 ^ (k + 1) / 256 = n / 256 % 256 ^ k := by
      rw [Nat.pow_succ, Nat.mul_comm, Nat.mod_mul_right_div_self]
    rw [leBytes, leBytes, hhead, htail, ih]

def readLe : Nat → List UInt8 → Option (Nat × List UInt8)
  | 0, bytes => some (0, bytes)
  | _ + 1, [] => none
  | k + 1, b :: bytes => (readLe k bytes).map fun r => (b.toNat + 256 * r.1, r.2)

theorem readLe_leBytes (k n : Nat) (rest : List UInt8) (h : n < 256 ^ k) :
    readLe k (leBytes k n ++ rest) = some (n, rest) := by
  induction k generalizing n with
  | zero =>
    rw [Nat.pow_zero] at h
    rw [leBytes, readLe, List.nil_append, Nat.lt_one_iff.1 h]
  | succ k ih =>
    have hq : n / 256 < 256 ^ k := Nat.div_lt_of_lt_mul (by rw [Nat.mul_comm, ← Nat.pow_succ]; exact h)
    have hd : n % 256 + 256 * (n / 256) = n := Nat.mod_add_div n 256
    simp only [leBytes, List.cons_append, readLe, ih _ hq, Option.map_some, UInt8.toNat_ofNat',
      Nat.reducePow, hd]

/-- A fixed-width unsigned integer; out-of-range values cannot be written. -/
def uint (k : Nat) : Wire Nat where
  write n := if n < 256 ^ k then some (leBytes k n) else none
  read := readLe k
  read_write n bytes rest h := by
    by_cases hn : n < 256 ^ k
    · rw [if_pos hn] at h
      cases h
      exact readLe_leBytes k n rest hn
    · rw [if_neg hn] at h
      cases h

def pair (w : Wire α) (w' : Wire β) : Wire (α × β) where
  write p := do
    let a ← w.write p.1
    let b ← w'.write p.2
    return a ++ b
  read bytes := do
    let (a, rest) ← w.read bytes
    let (b, rest) ← w'.read rest
    return ((a, b), rest)
  read_write p bytes rest h := by
    obtain ⟨a, ha, h⟩ := Option.bind_eq_some_iff.1 h
    obtain ⟨b, hb, h⟩ := Option.bind_eq_some_iff.1 h
    cases h
    simp only [List.append_assoc, w.read_write _ _ _ ha, w'.read_write _ _ _ hb, Option.bind_eq_bind,
      Option.bind_some, Option.pure_def]

def via (w : Wire α) (f : β → α) (g : α → Option β) (h : ∀ b, g (f b) = some b) : Wire β where
  write b := w.write (f b)
  read bytes := do
    let (a, rest) ← w.read bytes
    let b ← g a
    return (b, rest)
  read_write b bytes rest hb := by
    simp only [w.read_write _ _ _ hb, h, Option.bind_eq_bind, Option.bind_some, Option.pure_def]

def writeAll (w : Wire α) : List α → Option (List UInt8)
  | [] => some []
  | a :: l => do
    let bytes ← w.write a
    let more ← writeAll w l
    return bytes ++ more

def readMany (w : Wire α) : Nat → List UInt8 → Option (List α × List UInt8)
  | 0, bytes => some ([], bytes)
  | n + 1, bytes => do
    let (a, rest) ← w.read bytes
    let (l, rest) ← readMany w n rest
    return (a :: l, rest)

theorem readMany_writeAll (w : Wire α) (l : List α) (bytes rest : List UInt8)
    (h : writeAll w l = some bytes) : readMany w l.length (bytes ++ rest) = some (l, rest) := by
  induction l generalizing bytes with
  | nil =>
    cases h
    rfl
  | cons a l ih =>
    obtain ⟨x, hx, h⟩ := Option.bind_eq_some_iff.1 h
    obtain ⟨y, hy, h⟩ := Option.bind_eq_some_iff.1 h
    cases h
    simp only [List.length_cons, readMany, List.append_assoc, w.read_write _ _ _ hx, ih y hy,
      Option.bind_eq_bind, Option.bind_some, Option.pure_def]

def list (w : Wire α) : Wire (List α) where
  write l := do
    let n ← (uint 8).write l.length
    let body ← writeAll w l
    return n ++ body
  read bytes := do
    let (n, rest) ← (uint 8).read bytes
    readMany w n rest
  read_write l bytes rest h := by
    obtain ⟨n, hn, h⟩ := Option.bind_eq_some_iff.1 h
    obtain ⟨body, hb, h⟩ := Option.bind_eq_some_iff.1 h
    cases h
    simp only [List.append_assoc, (uint 8).read_write _ _ _ hn, Option.bind_eq_bind,
      Option.bind_some, readMany_writeAll w l body rest hb]

/-- A choice: its tag in `k` bytes, then its content. -/
def sum (k : Nat) (w : Wire α) (w' : Wire β) : Wire (α ⊕ β) where
  write
    | .inl a => (w.write a).map (leBytes k 0 ++ ·)
    | .inr b => if 1 < 256 ^ k then (w'.write b).map (leBytes k 1 ++ ·) else none
  read bytes := do
    let (tag, rest) ← readLe k bytes
    if tag = 0 then
      let (a, rest) ← w.read rest
      return (.inl a, rest)
    else if tag = 1 then
      let (b, rest) ← w'.read rest
      return (.inr b, rest)
    else none
  read_write p bytes rest h := by
    cases p with
    | inl a =>
      obtain ⟨x, hx, rfl⟩ := Option.map_eq_some_iff.1 h
      simp only [List.append_assoc, readLe_leBytes k 0 _ (Nat.pow_pos (by decide)), Option.bind_eq_bind,
        Option.bind_some, w.read_write _ _ _ hx, ↓reduceIte, Option.pure_def]
    | inr b =>
      by_cases hk : 1 < 256 ^ k
      · simp only [if_pos hk] at h
        obtain ⟨x, hx, rfl⟩ := Option.map_eq_some_iff.1 h
        simp only [List.append_assoc, readLe_leBytes k 1 _ hk, Option.bind_eq_bind,
          Option.bind_some, Nat.one_ne_zero, w'.read_write _ _ _ hx, ↓reduceIte, Option.pure_def]
      · simp only [if_neg hk] at h
        cases h

def unit : Wire Unit where
  write _ := some []
  read bytes := some ((), bytes)
  read_write _ bytes rest h := by
    cases h
    rfl

def option (w : Wire α) : Wire (Option α) :=
  (sum 1 unit w).via
    (fun
      | none => .inl ()
      | some a => .inr a)
    (fun
      | .inl _ => some none
      | .inr a => some (some a))
    (fun o => by cases o <;> rfl)

def bool : Wire Bool :=
  (uint 1).via Bool.toNat
    (fun n => if n = 0 then some false else if n = 1 then some true else none)
    (fun b => by cases b <;> rfl)

variable {K V : Type} [DecidableEq K]

def mapOfPairs (l : List (K × V)) : Option (HashMap K V) :=
  if h : (l.map Prod.fst).Nodup then
    some ⟨l.map fun kv => ⟨kv.1, kv.2⟩, by
      simpa only [List.NodupKeys, List.keys, List.map_map, Function.comp_def] using h⟩
  else none

theorem mapOfPairs_toList (m : HashMap K V) : mapOfPairs m.toList = some m := by
  rw [mapOfPairs, dif_pos m.keys_toList_nodup]
  apply congrArg some
  apply AList.ext
  simp only [HashMap.toList, List.map_map, Function.comp_def, List.map_id']

def hashMap (w : Wire K) (w' : Wire V) : Wire (HashMap K V) :=
  (list (pair w w')).via HashMap.toList mapOfPairs mapOfPairs_toList

end Wire

end Lib
