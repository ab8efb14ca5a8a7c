import Mathlib.Data.List.Lex
import Mathlib.Data.Prod.Lex
import Reconcile.Lib.Wire

namespace Lib
set_option autoImplicit true

structure Fixed (n : Nat) where
  bytes : List UInt8
  length_eq : bytes.length = n

namespace Fixed

theorem bytes_injective : Function.Injective (bytes : Fixed n → List UInt8) := by
  intro a b h
  cases a
  cases b
  cases h
  rfl

instance : LinearOrder (Fixed n) :=
  LinearOrder.lift' (fun f => f.bytes.map UInt8.toNat) fun _ _ h =>
    bytes_injective (List.map_injective_iff.2 (fun _ _ => UInt8.toNat_inj.1) h)

def front (n : Nat) (l : List UInt8) (h : n ≤ l.length) : Fixed n :=
  ⟨l.take n, List.length_take_of_le h⟩

theorem front_append (f : Fixed n) (rest : List UInt8) (h : n ≤ (f.bytes ++ rest).length) :
    front n (f.bytes ++ rest) h = f :=
  bytes_injective (List.take_left' f.length_eq)

def cons (b : UInt8) (f : Fixed n) : Fixed (n + 1) where
  bytes := b :: f.bytes
  length_eq := by rw [List.length_cons, f.length_eq]

theorem cons_inj {f g : Fixed n} : cons a f = cons b g ↔ a = b ∧ f = g := by
  constructor
  · intro h
    obtain ⟨ha, hf⟩ := List.cons.inj (congrArg bytes h)
    exact ⟨ha, bytes_injective hf⟩
  · rintro ⟨rfl, rfl⟩
    rfl

theorem exists_cons (f : Fixed (n + 1)) : ∃ b g, f = cons b g := by
  obtain ⟨bytes, hlen⟩ := f
  cases bytes with
  | nil => cases hlen
  | cons b rest => exact ⟨b, ⟨rest, Nat.succ.inj hlen⟩, rfl⟩

end Fixed

namespace Wire

/-- Byte strings of one width stand for themselves, without a length in front. -/
def fixed (n : Nat) : Wire (Fixed n) where
  write f := some f.bytes
  read bytes :=
    if h : n ≤ bytes.length then some (Fixed.front n bytes h, bytes.drop n) else none
  read_write f bytes rest h := by
    cases h
    have hlen : n ≤ (f.bytes ++ rest).length := by
      rw [List.length_append, f.length_eq]
      exact Nat.le_add_right n _
    rw [dif_pos hlen, Fixed.front_append, List.drop_left' f.length_eq]

/-- The number a byte string stands for, least significant byte first. -/
def leNat : List UInt8 → Nat
  | [] => 0
  | b :: bytes => b.toNat + 256 * leNat bytes

theorem leNat_leBytes (k n : Nat) (h : n < 256 ^ k) : leNat (leBytes k n) = n := by
  induction k generalizing n with
  | zero => exact (Nat.lt_one_iff.1 h).symm
  | succ k ih =>
    have hq : n / 256 < 256 ^ k := Nat.div_lt_of_lt_mul (by rwa [Nat.mul_comm, ← Nat.pow_succ])
    rw [leBytes, leNat, ih _ hq, UInt8.toNat_ofNat']
    exact Nat.mod_add_div n 256

theorem leNat_lt (bytes : List UInt8) : leNat bytes < 256 ^ bytes.length := by
  induction bytes with
  | nil => exact Nat.one_pos
  | cons b bytes ih =>
    have hb : b.toNat < 256 := b.toNat_lt
    rw [leNat, List.length_cons, Nat.pow_succ]
    omega

theorem leBytes_leNat (bytes : List UInt8) : leBytes bytes.length (leNat bytes) = bytes := by
  induction bytes with
  | nil => rfl
  | cons b bytes ih =>
    have hb : b.toNat < 256 := b.toNat_lt
    have hq : (b.toNat + 256 * leNat bytes) / 256 = leNat bytes := by omega
    have hr : UInt8.ofNat (b.toNat + 256 * leNat bytes) = b := by
      apply UInt8.toNat_inj.1
      rw [UInt8.toNat_ofNat']
      omega
    rw [List.length_cons, leNat, leBytes, hq, hr, ih]

end Wire

end Lib
