import Reconcile.Auth
import Reconcile.Lib.Text

namespace Reconcile
open Lib
set_option autoImplicit true

abbrev keyLen : Nat := 32

inductive ClusterKeyError where
  | wrongHexLength (got : Nat)
  | invalidHexDigit
  | wrongByteLength (got : Nat)
  deriving DecidableEq, Repr

namespace ClusterKey

/-- The bytes of the key from index `i` on. A slice of the text that would cut a character panics:
then there is no result. -/
def hexLoop (hex : String) : (n : Nat) → Nat → Option (Except ClusterKeyError (Fixed n))
  | 0, _ => some (.ok ⟨[], rfl⟩)
  | n + 1, i =>
    match Text.slice hex (i * 2) (i * 2 + 2) with
    | none => none
    | some pair =>
      match Text.fromStrRadix pair with
      | none => some (.error .invalidHexDigit)
      | some byte => (hexLoop hex n (i + 1)).map fun rest => rest.map (Fixed.cons byte)

/-- The length is that of the text in bytes. -/
def fromHex (hex : String) : Option (Except ClusterKeyError ClusterKey) :=
  if (Text.bytes hex).length ≠ keyLen * 2 then
    some (.error (.wrongHexLength (Text.bytes hex).length))
  else hexLoop hex keyLen 0

def tryFrom (bytes : Bytes) : Except ClusterKeyError ClusterKey :=
  if h : bytes.length = keyLen then .ok ⟨bytes, h⟩ else .error (.wrongByteLength bytes.length)

def byteAt (hex : String) (i : Nat) : Option UInt8 :=
  (Text.slice hex (i * 2) (i * 2 + 2)).bind Text.fromStrRadix

theorem hexLoop_succ (hex : String) (n i : Nat) :
    (Text.slice hex (i * 2) (i * 2 + 2) = none ∧ hexLoop hex (n + 1) i = none) ∨
    (Text.slice hex (i * 2) (i * 2 + 2) ≠ none ∧ byteAt hex i = none ∧
      hexLoop hex (n + 1) i = some (.error .invalidHexDigit)) ∨
    ∃ b, byteAt hex i = some b ∧
      hexLoop hex (n + 1) i = (hexLoop hex n (i + 1)).map fun rest => rest.map (Fixed.cons b) := by
  rw [hexLoop, byteAt]
  cases Text.slice hex (i * 2) (i * 2 + 2) with
  | none => exact .inl ⟨rfl, rfl⟩
  | some pair =>
    rw [Option.bind_some]
    cases hp : Text.fromStrRadix pair with
    | none => exact .inr (.inl ⟨nofun, rfl, by simp only [hp]⟩)
    | some b => exact .inr (.inr ⟨b, rfl, by simp only [hp]⟩)

theorem hexLoop_eq_ok_iff {f : Fixed n} :
    hexLoop hex n i = some (.ok f) ↔ ∀ k < n, byteAt hex (k + i) = f.bytes[k]? := by
  induction n generalizing i with
  | zero =>
    refine iff_of_true ?_ (fun k hk => absurd hk (Nat.not_lt_zero k))
    have hnil : f = ⟨[], rfl⟩ := Fixed.bytes_injective (List.length_eq_zero_iff.1 f.length_eq)
    rw [hnil, hexLoop]
  | succ n ih =>
    obtain ⟨b, g, rfl⟩ := f.exists_cons
    have hshift (k : Nat) : k + 1 + i = k + (i + 1) := by omega
    rw [Nat.forall_lt_succ_left]
    simp only [hshift, Nat.zero_add, Fixed.cons, List.getElem?_cons_zero, List.getElem?_cons_succ]
    rw [← ih]
    rcases hexLoop_succ hex n i with ⟨hs, he⟩ | ⟨_, hb, he⟩ | ⟨b', hb, he⟩
    · rw [he, byteAt, hs]
      exact iff_of_false nofun nofun
    · rw [he, hb]
      exact iff_of_false nofun nofun
    · rw [he, hb]
      cases hexLoop hex n (i + 1) with
      | none => exact iff_of_false nofun nofun
      | some rest =>
        cases rest with
        | error err => exact iff_of_false nofun nofun
        | ok g' =>
          simp only [Option.map_some, Except.map, Option.some.injEq, Except.ok.injEq]
          exact Fixed.cons_inj

theorem exists_hexLoop_ok (h : ∀ k < n, (byteAt hex (k + i)).isSome = true) :
    ∃ f, hexLoop hex n i = some (.ok f) := by
  induction n generalizing i with
  | zero => exact ⟨_, rfl⟩
  | succ n ih =>
    have hshift (k : Nat) : k + 1 + i = k + (i + 1) := by omega
    obtain ⟨hfirst, hrest⟩ := Nat.forall_lt_succ_left.1 h
    simp only [hshift] at hrest
    obtain ⟨g, hg⟩ := ih hrest
    rcases hexLoop_succ hex n i with ⟨hs, _⟩ | ⟨_, hb, _⟩ | ⟨b, hb, he⟩
    · rw [Nat.zero_add, byteAt, hs] at hfirst
      cases hfirst
    · rw [Nat.zero_add, hb] at hfirst
      cases hfirst
    · exact ⟨.cons b g, by rw [he, hg]; rfl⟩

/-- The loop panics at the first pair that is not a slice, when all pairs before it are read. -/
theorem hexLoop_eq_none_iff :
    hexLoop hex n i = none ↔
      ∃ k < n, (∀ j < k, (byteAt hex (j + i)).isSome = true) ∧
        Text.slice hex ((k + i) * 2) ((k + i) * 2 + 2) = none := by
  induction n generalizing i with
  | zero =>
    refine iff_of_false nofun ?_
    rintro ⟨k, hk, _⟩
    exact Nat.not_lt_zero k hk
  | succ n ih =>
    have hshift (k : Nat) : k + 1 + i = k + (i + 1) := by omega
    rw [Nat.exists_lt_succ_left]
    simp only [Nat.forall_lt_succ_left, hshift, Nat.zero_add]
    rcases hexLoop_succ hex n i with ⟨hs, he⟩ | ⟨hs, hb, he⟩ | ⟨b, hb, he⟩
    · exact iff_of_true he (.inl ⟨fun j hj => absurd hj (Nat.not_lt_zero j), hs⟩)
    · rw [he, hb]
      refine iff_of_false nofun ?_
      rintro (⟨_, hcut⟩ | ⟨k, _, ⟨hfirst, _⟩, _⟩)
      · exact hs hcut
      · cases hfirst
    · have hsliced : Text.slice hex (i * 2) (i * 2 + 2) ≠ none := by
        intro hs
        rw [byteAt, hs] at hb
        cases hb
      rw [he, Option.map_eq_none_iff, ih, hb]
      simp only [hsliced, and_false, false_or, Option.isSome_some, true_and]

def HexKey (s : String) : Prop :=
  s.toList.length = keyLen * 2 ∧ ∀ c ∈ s.toList, Text.isHexDigit c = true

def pairValue (s : String) (i : Nat) : Option Nat := do
  let a ← s.toList[i * 2]?
  let b ← s.toList[i * 2 + 1]?
  let high ← Text.toDigit a.toNat
  let low ← Text.toDigit b.toNat
  return 16 * high + low

def AllRead (s : String) : Prop := ∀ i < keyLen, (byteAt s i).isSome = true

theorem byteAt_eq {s : String} (hlen : (Text.bytes s).length = keyLen * 2) (hi : i < keyLen) :
    ∃ a b, (Text.bytes s)[i * 2]? = some a ∧ (Text.bytes s)[i * 2 + 1]? = some b ∧
      byteAt s i =
        if Text.isCharBoundary s (i * 2) && Text.isCharBoundary s (i * 2 + 2) then
          Text.fromStrRadix [a, b]
        else none := by
  have hle : i * 2 + 2 ≤ (Text.bytes s).length := by omega
  obtain ⟨a, b, ha, hb, hs⟩ := Text.slice_pair hle
  refine ⟨a, b, ha, hb, ?_⟩
  rw [byteAt, hs]
  split <;> rfl

theorem read_pair {s : String} (hlen : (Text.bytes s).length = keyLen * 2) (hi : i < keyLen)
    (hread : (byteAt s i).isSome = true) :
    ∃ a b, (Text.bytes s)[i * 2]? = some a ∧ (Text.bytes s)[i * 2 + 1]? = some b ∧
      (∃ y, Text.toDigit b.toNat = some y) ∧
      (a = Text.plus ∨ ∃ x, Text.toDigit a.toNat = some x) := by
  obtain ⟨a, b, ha, hb, he⟩ := byteAt_eq hlen hi
  obtain ⟨v, hv⟩ := Option.isSome_iff_exists.1 hread
  rw [he] at hv
  split at hv
  · obtain ⟨y, hy, hcases⟩ := Text.fromStrRadix_pair_cases hv
    refine ⟨a, b, ha, hb, ⟨y, hy⟩, hcases.imp_right ?_⟩
    rintro ⟨x, hx, _⟩
    exact ⟨x, hx⟩
  · cases hv

def hexByte (b : UInt8) : Bool := Text.isHexDigit (Char.ofNat b.toNat)

/-- Two bytes of the text of the form `[0-9a-fA-F+][0-9a-fA-F]`. -/
def signedPair (s : String) (i : Nat) : Bool :=
  match (Text.bytes s)[i * 2]?, (Text.bytes s)[i * 2 + 1]? with
  | some a, some b => (a == Text.plus || hexByte a) && hexByte b
  | _, _ => false

theorem hexByte_iff (b : UInt8) : hexByte b = true ↔ ∃ d, Text.toDigit b.toNat = some d := by
  have hcode : (Char.ofNat b.toNat).toNat = b.toNat := by
    have hlt := b.toNat_lt
    have hvalid : b.toNat.isValidChar := .inl (by omega)
    have hchar : Char.ofNat b.toNat = Char.ofNatAux b.toNat hvalid := dif_pos hvalid
    rw [hchar]
    rfl
  rw [hexByte, Text.isHexDigit_iff, hcode]

theorem byteAt_isSome_iff {s : String} (hlen : (Text.bytes s).length = keyLen * 2)
    (hi : i < keyLen) : (byteAt s i).isSome = true ↔ signedPair s i = true := by
  constructor
  · intro hread
    obtain ⟨a, b, ha, hb, hlow, hhigh⟩ := read_pair hlen hi hread
    simp only [signedPair, ha, hb, Bool.and_eq_true, Bool.or_eq_true, beq_iff_eq, hexByte_iff]
    exact ⟨hhigh, hlow⟩
  · intro h
    obtain ⟨a, b, ha, hb, he⟩ := byteAt_eq hlen hi
    simp only [signedPair, ha, hb, Bool.and_eq_true, Bool.or_eq_true, beq_iff_eq,
      hexByte_iff] at h
    obtain ⟨hhigh, y, hy⟩ := h
    have hascii : a.toNat < 128 := by
      rcases hhigh with rfl | ⟨x, hx⟩
      · decide
      · exact (Text.toDigit_cases hx).1
    have hstart : Text.isCharBoundary s (i * 2) = true := by
      simp [Text.isCharBoundary, ha, Text.startsChar, hascii]
    rw [he, hstart, Text.isCharBoundary_succ hb (Text.toDigit_cases hy).1, Bool.and_self,
      if_pos rfl, Text.fromStrRadix_pair, hy]
    split
    · rfl
    · next hne =>
      obtain ⟨x, hx⟩ := hhigh.resolve_left hne
      rw [hx]
      rfl

theorem AllRead.byte {s : String} (h : AllRead s) (hlen : (Text.bytes s).length = keyLen * 2)
    (hb : b ∈ Text.bytes s) : b = Text.plus ∨ ∃ d, Text.toDigit b.toNat = some d := by
  obtain ⟨j, hj⟩ := List.mem_iff_getElem?.1 hb
  have hlt : j < keyLen * 2 := hlen ▸ (List.getElem?_eq_some_iff.1 hj).1
  have hi : j / 2 < keyLen := by omega
  obtain ⟨a, b', ha, hb', hlow, hhigh⟩ := read_pair hlen hi (h _ hi)
  rcases Nat.mod_two_eq_zero_or_one j with hmod | hmod
  · rw [show j / 2 * 2 = j by omega, hj] at ha
    cases ha
    exact hhigh
  · rw [show j / 2 * 2 + 1 = j by omega, hj] at hb'
    cases hb'
    exact .inr hlow

theorem AllRead.ascii {s : String} (h : AllRead s) (hlen : (Text.bytes s).length = keyLen * 2) :
    ∀ b ∈ Text.bytes s, b.toNat < 128 := by
  intro b hb
  rcases h.byte hlen hb with rfl | ⟨d, hd⟩
  · decide
  · exact (Text.toDigit_cases hd).1

theorem toNat_code {c : Char} (h : c.toNat < 128) : (UInt8.ofNat c.toNat).toNat = c.toNat := by
  rw [UInt8.toNat_ofNat']
  omega

theorem AllRead.hexKey {s : String} (h : AllRead s)
    (hlen : (Text.bytes s).length = keyLen * 2) (hplus : '+' ∉ s.toList) : HexKey s := by
  have hascii := Text.ascii_of_bytes (h.ascii hlen)
  have hbytes := Text.bytes_of_ascii hascii
  refine ⟨by rw [← hlen, hbytes, List.length_map], ?_⟩
  intro c hc
  rw [Text.isHexDigit_iff]
  have hin : UInt8.ofNat c.toNat ∈ Text.bytes s := by
    rw [hbytes]
    exact List.mem_map_of_mem hc
  have hcode := toNat_code (hascii c hc)
  rcases h.byte hlen hin with he | hd
  · rw [he] at hcode
    have hchar : c = '+' := Char.toNat_inj.1 hcode.symm
    exact absurd (hchar ▸ hc) hplus
  · rwa [hcode] at hd

namespace HexKey

variable {s : String}

theorem ascii (h : HexKey s) : ∀ c ∈ s.toList, c.toNat < 128 := by
  intro c hc
  obtain ⟨d, hd⟩ := (Text.isHexDigit_iff c).1 (h.2 c hc)
  exact (Text.toDigit_cases hd).1

theorem length_bytes (h : HexKey s) : (Text.bytes s).length = keyLen * 2 := by
  rw [Text.bytes_of_ascii h.ascii, List.length_map, h.1]

theorem no_plus (h : HexKey s) : '+' ∉ s.toList := by
  intro hc
  obtain ⟨d, hd⟩ := (Text.isHexDigit_iff '+').1 (h.2 _ hc)
  exact (Text.toDigit_cases hd).2.1 rfl

theorem byteAt_eq_value (h : HexKey s) (hi : i < keyLen) :
    ∃ v < 256, pairValue s i = some v ∧ byteAt s i = some (UInt8.ofNat v) := by
  obtain ⟨a, b, ha, hb, he⟩ := byteAt_eq h.length_bytes hi
  rw [Text.bytes_of_ascii h.ascii, List.getElem?_map, Option.map_eq_some_iff] at ha hb
  obtain ⟨c, hc, rfl⟩ := ha
  obtain ⟨c', hc', rfl⟩ := hb
  have hcin := List.mem_of_getElem? hc
  have hcin' := List.mem_of_getElem? hc'
  obtain ⟨x, hx⟩ := (Text.isHexDigit_iff c).1 (h.2 c hcin)
  obtain ⟨y, hy⟩ := (Text.isHexDigit_iff c').1 (h.2 c' hcin')
  obtain ⟨_, hplus, hx16⟩ := Text.toDigit_cases hx
  obtain ⟨_, _, hy16⟩ := Text.toDigit_cases hy
  have hbytes : ∀ b ∈ Text.bytes s, b.toNat < 128 := by
    rw [Text.bytes_of_ascii h.ascii]
    intro b hb
    obtain ⟨c, hc, rfl⟩ := List.mem_map.1 hb
    rw [toNat_code (h.ascii c hc)]
    exact h.ascii c hc
  have hne : UInt8.ofNat c.toNat ≠ Text.plus := by
    intro hp
    rw [← toNat_code (h.ascii c hcin), hp] at hplus
    exact hplus rfl
  have hlen := h.length_bytes
  refine ⟨16 * x + y, by omega, ?_, ?_⟩
  · simp only [pairValue, hc, hc', Option.bind_eq_bind, Option.bind_some, hx, hy]
    rfl
  · rw [he, Text.isCharBoundary_of_ascii hbytes (by omega),
      Text.isCharBoundary_of_ascii hbytes (by omega), Bool.and_self, if_pos rfl,
      Text.fromStrRadix_pair, if_neg hne, toNat_code (h.ascii c hcin),
      toNat_code (h.ascii c' hcin'), hx, hy]
    rfl

theorem allRead (h : HexKey s) : AllRead s := by
  intro i hi
  obtain ⟨v, _, _, hv⟩ := h.byteAt_eq_value hi
  rw [hv]
  rfl

end HexKey

theorem fromHex_of_length {s : String} (hlen : (Text.bytes s).length = keyLen * 2) :
    fromHex s = hexLoop s keyLen 0 := if_neg (not_not_intro hlen)

theorem fromHex_eq_ok_iff {s : String} (hlen : (Text.bytes s).length = keyLen * 2)
    {key : ClusterKey} :
    fromHex s = some (.ok key) ↔ ∀ i < keyLen, byteAt s i = key.bytes[i]? := by
  rw [fromHex_of_length hlen]
  exact hexLoop_eq_ok_iff

theorem exists_ok_iff {s : String} (hlen : (Text.bytes s).length = keyLen * 2) :
    (∃ key, fromHex s = some (.ok key)) ↔ AllRead s := by
  constructor
  · rintro ⟨key, hkey⟩ i hi
    have hlt : i < key.bytes.length := by rwa [key.length_eq]
    rw [(fromHex_eq_ok_iff hlen).1 hkey i hi, List.getElem?_eq_getElem hlt]
    rfl
  · intro h
    rw [fromHex_of_length hlen]
    exact exists_hexLoop_ok h

/-- The parser panics when, after pairs that were read, a pair ends inside a character. -/
theorem fromHex_eq_none_iff {s : String} (hlen : (Text.bytes s).length = keyLen * 2) :
    fromHex s = none ↔ ∃ i < keyLen, (∀ j < i, (byteAt s j).isSome = true) ∧
      Text.isCharBoundary s (i * 2 + 2) = false := by
  rw [fromHex_of_length hlen, hexLoop_eq_none_iff]
  refine exists_congr fun i => and_congr_right fun hi => and_congr_right fun hread => ?_
  -- a pair begins where the one before it, which was read, ends
  have hstart : Text.isCharBoundary s (i * 2) = true := by
    cases i with
    | zero => rfl
    | succ i =>
      obtain ⟨a, b, _, _, he⟩ := byteAt_eq hlen (Nat.lt_of_succ_lt hi)
      have hlast := hread i (Nat.lt_succ_self i)
      rw [Nat.add_zero, he] at hlast
      split at hlast
      · next hboth =>
        rw [Nat.succ_mul]
        exact (Bool.and_eq_true_iff.1 hboth).2
      · cases hlast
  have hle : i * 2 + 2 ≤ (Text.bytes s).length := by omega
  obtain ⟨a, b, _, _, hs⟩ := Text.slice_pair hle
  rw [Nat.add_zero, hs, hstart, Bool.true_and]
  cases Text.isCharBoundary s (i * 2 + 2) with
  | false => exact iff_of_true rfl rfl
  | true => exact iff_of_false nofun nofun

theorem HexKey.bytes_eq {s : String} {key : ClusterKey} (h : HexKey s)
    (hok : fromHex s = some (.ok key)) (hi : i < keyLen) :
    key.bytes[i]?.map UInt8.toNat = pairValue s i := by
  obtain ⟨v, hv, hvalue, hbyte⟩ := h.byteAt_eq_value hi
  rw [← (fromHex_eq_ok_iff h.length_bytes).1 hok i hi, hbyte, hvalue, Option.map_some,
    UInt8.toNat_ofNat', Nat.mod_eq_of_lt hv]

/-- The parser keeps to the grammar of a key, reads the bytes off its digits and refuses every other
text, exactly for the texts of another length and those in which no plus sign is read as part of a
pair and no pair ends inside a character before one that is refused. -/
theorem fromHex_grammar_iff (s : String) :
    (((∃ key, fromHex s = some (.ok key)) ↔ HexKey s) ∧
      (∀ key, fromHex s = some (.ok key) →
        ∀ i < keyLen, key.bytes[i]?.map UInt8.toNat = pairValue s i) ∧
      (¬ HexKey s → ∃ err, fromHex s = some (.error err))) ↔
    ((Text.bytes s).length = keyLen * 2 →
      ((∀ i < keyLen, signedPair s i = true) → '+' ∉ s.toList) ∧
      ∀ i < keyLen, (∀ j < i, signedPair s j = true) →
        Text.isCharBoundary s (i * 2 + 2) = true) := by
  by_cases hlen : (Text.bytes s).length = keyLen * 2
  · have hpairs : (∀ i < keyLen, signedPair s i = true) ↔ AllRead s :=
      forall₂_congr fun i hi => (byteAt_isSome_iff hlen hi).symm
    have hbefore {i : Nat} (hi : i < keyLen) : (∀ j < i, signedPair s j = true) ↔
        ∀ j < i, (byteAt s j).isSome = true :=
      forall₂_congr fun j hj => (byteAt_isSome_iff hlen (hj.trans hi)).symm
    rw [forall_prop_of_true hlen, exists_ok_iff hlen, hpairs]
    constructor
    · rintro ⟨hgrammar, _, hrefused⟩
      refine ⟨fun hread => (hgrammar.1 hread).no_plus, ?_⟩
      intro i hi hread
      by_contra hcut
      have hnone := (fromHex_eq_none_iff hlen).2
        ⟨i, hi, (hbefore hi).1 hread, Bool.eq_false_iff.2 hcut⟩
      by_cases hkey : HexKey s
      · obtain ⟨key, hok⟩ := (exists_ok_iff hlen).2 hkey.allRead
        rw [hnone] at hok
        cases hok
      · obtain ⟨err, herr⟩ := hrefused hkey
        rw [hnone] at herr
        cases herr
    · rintro ⟨hplus, hcut⟩
      have hgrammar : AllRead s ↔ HexKey s :=
        ⟨fun hread => hread.hexKey hlen (hplus hread), HexKey.allRead⟩
      refine ⟨hgrammar, ?_, ?_⟩
      · intro key hok i hi
        have hkey := hgrammar.1 ((exists_ok_iff hlen).1 ⟨key, hok⟩)
        exact hkey.bytes_eq hok hi
      · intro hkey
        match hresult : fromHex s with
        | none =>
          obtain ⟨i, hi, hread, hfalse⟩ := (fromHex_eq_none_iff hlen).1 hresult
          rw [hcut i hi ((hbefore hi).2 hread)] at hfalse
          cases hfalse
        | some (.ok key) =>
          exact absurd (hgrammar.1 ((exists_ok_iff hlen).1 ⟨key, hresult⟩)) hkey
        | some (.error err) => exact ⟨err, rfl⟩
  · refine iff_of_true ?_ fun h => absurd h hlen
    have herr : fromHex s = some (.error (.wrongHexLength (Text.bytes s).length)) := if_pos hlen
    have hkey : ¬ HexKey s := fun h => hlen h.length_bytes
    rw [herr]
    refine ⟨iff_of_false nofun hkey, nofun, fun _ => ⟨_, rfl⟩⟩

def signedKey : String := "+1+1+1+1+1+1+1+1+1+1+1+1+1+1+1+1+1+1+1+1+1+1+1+1+1+1+1+1+1+1+1+1"

/-- The second character takes the bytes 1 and 2. -/
def cutKey : String := "0é0000000000000000000000000000000000000000000000000000000000000"

/-- A text of signed digits is accepted, and one whose first pair ends inside a character panics. -/
theorem fromHex_signed_and_cut :
    (¬ HexKey signedKey ∧
      fromHex signedKey = some (.ok ⟨List.replicate 32 1, List.length_replicate⟩)) ∧
    ¬ HexKey cutKey ∧ fromHex cutKey = none := by
  refine ⟨⟨?_, ?_⟩, ?_, ?_⟩
  · exact fun h => h.no_plus (by decide)
  · decide +kernel
  · exact fun h => absurd h.1 (by decide)
  · decide +kernel

end ClusterKey

end Reconcile
