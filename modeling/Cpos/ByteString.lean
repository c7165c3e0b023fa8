import Mathlib.Algebra.Group.Int.Defs
import Mathlib.Algebra.Group.Nat.Defs
import Mathlib.Data.List.Basic
import Mathlib.Data.List.Lex

/-!
# Byte strings

Byte strings as lists of bytes, with the three encodings a program that
stores and hashes them needs:

- the lexicographic order (`LinearOrder Bytes`, from the order of the
  bytes);
- lower-case hexadecimal text: `hex` writes it, `fromhex` reads it back,
  and `fromhex_hex` says that reading undoes writing. `hex_inj` is the
  form in which comparisons of stored text are turned into comparisons
  of bytes;
- fixed-width little-endian integers (`toBytesLE`, `fromBytesLE`). The
  encoder is partial: it has no result for a negative number or for one
  that needs more bytes.
-/

namespace ByteString

abbrev Bytes := List UInt8

/-- Bytes are ordered by value; `Bytes` inherits the lexicographic order. -/
instance instLinearOrderUInt8 : LinearOrder UInt8 where
  le_refl := UInt8.le_refl
  le_trans _ _ _ := UInt8.le_trans
  le_antisymm _ _ := UInt8.le_antisymm
  le_total := UInt8.le_total
  lt_iff_le_not_ge _ _ := by
    simp only [UInt8.lt_iff_toNat_lt, UInt8.le_iff_toNat_le]; omega
  toDecidableLE := inferInstance
  toDecidableEq := inferInstance
  toDecidableLT := inferInstance

instance instLawfulBEqBytes : LawfulBEq Bytes := inferInstance

/-! ## Hexadecimal text -/

def hexDigit (n : Nat) : Char :=
  if n < 10 then Char.ofNat (48 + n) else Char.ofNat (87 + n)

/-- Both cases are read, as `bytes.fromhex` does. -/
def digitValue (c : Char) : Option Nat :=
  if '0' ≤ c ∧ c ≤ '9' then some (c.toNat - 48)
  else if 'a' ≤ c ∧ c ≤ 'f' then some (c.toNat - 87)
  else if 'A' ≤ c ∧ c ≤ 'F' then some (c.toNat - 55)
  else none

/-- Two lower-case digits for each byte, the high half first. -/
def hex : Bytes → List Char
  | [] => []
  | b :: bs => hexDigit (b.toNat / 16) :: hexDigit (b.toNat % 16) :: hex bs

/-- `none` where a digit is not hexadecimal or one is left over. -/
def fromhex : List Char → Option Bytes
  | [] => some []
  | [_] => none
  | hi :: lo :: rest => do
      let h ← digitValue hi
      let l ← digitValue lo
      let bs ← fromhex rest
      return UInt8.ofNat (16 * h + l) :: bs

theorem digitValue_hexDigit : ∀ n : Fin 16, digitValue (hexDigit n) = some n.val := by
  decide

theorem digitValue_hexDigit_of_lt {n : Nat} (h : n < 16) :
    digitValue (hexDigit n) = some n :=
  digitValue_hexDigit ⟨n, h⟩

theorem fromhex_hex (bs : Bytes) : fromhex (hex bs) = some bs := by
  induction bs with
  | nil => rfl
  | cons b bs ih =>
      have hlt : b.toNat < 256 := b.toNat_lt
      have hhi := digitValue_hexDigit_of_lt (n := b.toNat / 16) (by omega)
      have hlo := digitValue_hexDigit_of_lt (n := b.toNat % 16) (by omega)
      have hval : 16 * (b.toNat / 16) + b.toNat % 16 = b.toNat := by omega
      simp only [hex, fromhex, hhi, hlo, ih, Option.bind_eq_bind, Option.bind_some, hval,
        UInt8.ofNat_toNat]
      rfl

@[simp] theorem hex_inj {a b : Bytes} : hex a = hex b ↔ a = b :=
  ⟨fun h => by simpa [fromhex_hex] using congrArg fromhex h, congrArg hex⟩

/-! ## Little-endian integers -/

/-- The `width` low bytes of `n`, least significant first. -/
def natBytesLE : Nat → Nat → Bytes
  | 0, _ => []
  | width + 1, n => UInt8.ofNat (n % 256) :: natBytesLE width (n / 256)

/-- The unsigned encoding in exactly `width` bytes, when there is one. -/
def toBytesLE (width : Nat) (n : Int) : Option Bytes :=
  if 0 ≤ n ∧ n < 256 ^ width then some (natBytesLE width n.toNat) else none

def fromBytesLE : Bytes → Nat
  | [] => 0
  | b :: bs => b.toNat + 256 * fromBytesLE bs

@[simp] theorem natBytesLE_length (width n : Nat) : (natBytesLE width n).length = width := by
  induction width generalizing n with
  | zero => rfl
  | succ width ih => rw [natBytesLE, List.length_cons, ih]

theorem fromBytesLE_natBytesLE : ∀ {width n : Nat}, n < 256 ^ width →
    fromBytesLE (natBytesLE width n) = n
  | 0, n, h => by
      rw [Nat.pow_zero] at h
      obtain rfl : n = 0 := by omega
      rfl
  | width + 1, n, h => by
      rw [Nat.pow_succ] at h
      have ih : fromBytesLE (natBytesLE width (n / 256)) = n / 256 :=
        fromBytesLE_natBytesLE (by omega)
      have hbyte : (UInt8.ofNat (n % 256)).toNat = n % 256 := by
        rw [UInt8.toNat_ofNat', Nat.mod_mod]
      rw [natBytesLE, fromBytesLE, ih, hbyte]
      omega

theorem fromBytesLE_lt (bs : Bytes) : fromBytesLE bs < 256 ^ bs.length := by
  induction bs with
  | nil => exact Nat.one_pos
  | cons b bs ih =>
      have hb : b.toNat < 256 := b.toNat_lt
      rw [fromBytesLE, List.length_cons, Nat.pow_succ]
      omega

theorem toBytesLE_length {width : Nat} {n : Int} {bs : Bytes} (h : toBytesLE width n = some bs) :
    bs.length = width := by
  unfold toBytesLE at h
  split at h
  · rw [← Option.some.inj h, natBytesLE_length]
  · cases h

/-- Decoding undoes encoding. -/
theorem fromBytesLE_toBytesLE {width : Nat} {n : Int} {bs : Bytes}
    (h : toBytesLE width n = some bs) : (fromBytesLE bs : Int) = n := by
  unfold toBytesLE at h
  split at h
  · next hn =>
    have hlt : n.toNat < 256 ^ width := by
      rw [Int.toNat_lt hn.1, Int.natCast_pow]
      exact hn.2
    rw [← Option.some.inj h, fromBytesLE_natBytesLE hlt]
    omega
  · cases h

end ByteString
