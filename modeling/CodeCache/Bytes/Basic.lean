/-!
# Bytes, alignment and little-endian words

Every section, record and blob of a cache is a list of bytes that starts on a multiple of eight.
This module holds the rounding rule, zero padding, the one little-endian encoder that all words are
built from, and overwriting in place.

The laws say how long each piece is (`length_littleEndian`, `length_padded`), that decoding undoes
encoding (`ofLittleEndian_littleEndian`), and that rounding lands on the next multiple
(`alignUp_mod`, `le_alignUp`).
-/

namespace CodeCache

abbrev Bytes := List UInt8

def alignment : Nat := 8

def alignUp (n : Nat) : Nat :=
  (n + 7) / 8 * 8

def isAligned (n : Nat) : Bool :=
  n % 8 == 0

theorem le_alignUp (n : Nat) : n ≤ alignUp n := by
  unfold alignUp
  omega

theorem alignUp_lt (n : Nat) : alignUp n < n + 8 := by
  unfold alignUp
  omega

@[simp] theorem alignUp_mod (n : Nat) : alignUp n % 8 = 0 := by
  unfold alignUp
  omega

theorem alignUp_of_mod {n : Nat} (h : n % 8 = 0) : alignUp n = n := by
  unfold alignUp
  omega

@[simp] theorem alignUp_alignUp (n : Nat) : alignUp (alignUp n) = alignUp n :=
  alignUp_of_mod (alignUp_mod n)

namespace Bytes

def littleEndian : Nat → Nat → Bytes
  | 0, _ => []
  | width + 1, n => UInt8.ofNat (n % 256) :: littleEndian width (n / 256)

def ofLittleEndian : Bytes → Nat
  | [] => 0
  | b :: bs => b.toNat + 256 * ofLittleEndian bs

@[simp] theorem length_littleEndian (width n : Nat) : (littleEndian width n).length = width := by
  induction width generalizing n with
  | zero => rfl
  | succ width ih => simp [littleEndian, ih]

theorem ofLittleEndian_littleEndian (width n : Nat) :
    ofLittleEndian (littleEndian width n) = n % Nat.pow 256 width := by
  induction width generalizing n with
  | zero => simp [littleEndian, ofLittleEndian, Nat.mod_one]
  | succ width ih =>
    simp only [littleEndian, ofLittleEndian, ih, Nat.pow_eq, Nat.pow_succ', Nat.mod_mul]
    simp

theorem ofLittleEndian_lt (bs : Bytes) : ofLittleEndian bs < Nat.pow 256 bs.length := by
  induction bs with
  | nil => simp [ofLittleEndian]
  | cons b bs ih =>
    have hb : b.toNat < 256 := b.toNat_lt
    simp only [ofLittleEndian, List.length_cons, Nat.pow_eq, Nat.pow_succ] at ih ⊢
    omega

theorem littleEndian_ofLittleEndian (bs : Bytes) :
    littleEndian bs.length (ofLittleEndian bs) = bs := by
  induction bs with
  | nil => rfl
  | cons b bs ih =>
    have low : (b.toNat + 256 * ofLittleEndian bs) % 256 = b.toNat := by
      have := b.toNat_lt
      omega
    have high : (b.toNat + 256 * ofLittleEndian bs) / 256 = ofLittleEndian bs := by
      have := b.toNat_lt
      omega
    simp only [List.length_cons, ofLittleEndian, littleEndian, low, high, ih, UInt8.ofNat_toNat]

/-! ## Words -/

def ofUInt16 (v : UInt16) : Bytes := littleEndian 2 v.toNat

def ofUInt32 (v : UInt32) : Bytes := littleEndian 4 v.toNat

def ofUInt64 (v : UInt64) : Bytes := littleEndian 8 v.toNat

def ofInt32 (v : Int32) : Bytes := ofUInt32 v.toUInt32

def ofInt64 (v : Int64) : Bytes := ofUInt64 v.toUInt64

def ofWords (words : List UInt32) : Bytes := words.flatMap ofUInt32

def toUInt16 (bs : Bytes) : UInt16 := UInt16.ofNat (ofLittleEndian bs)

def toUInt32 (bs : Bytes) : UInt32 := UInt32.ofNat (ofLittleEndian bs)

def toUInt64 (bs : Bytes) : UInt64 := UInt64.ofNat (ofLittleEndian bs)

def toInt32 (bs : Bytes) : Int32 := (toUInt32 bs).toInt32

def toInt64 (bs : Bytes) : Int64 := (toUInt64 bs).toInt64

@[simp] theorem length_ofUInt16 (v : UInt16) : (ofUInt16 v).length = 2 := length_littleEndian ..
@[simp] theorem length_ofUInt32 (v : UInt32) : (ofUInt32 v).length = 4 := length_littleEndian ..
@[simp] theorem length_ofUInt64 (v : UInt64) : (ofUInt64 v).length = 8 := length_littleEndian ..
@[simp] theorem length_ofInt32 (v : Int32) : (ofInt32 v).length = 4 := length_littleEndian ..
@[simp] theorem length_ofInt64 (v : Int64) : (ofInt64 v).length = 8 := length_littleEndian ..

@[simp] theorem toUInt16_ofUInt16 (v : UInt16) : toUInt16 (ofUInt16 v) = v := by
  have h : v.toNat < 65536 := v.toNat_lt
  simp [toUInt16, ofUInt16, ofLittleEndian_littleEndian, Nat.mod_eq_of_lt h]

@[simp] theorem toUInt32_ofUInt32 (v : UInt32) : toUInt32 (ofUInt32 v) = v := by
  have h : v.toNat < 4294967296 := v.toNat_lt
  simp [toUInt32, ofUInt32, ofLittleEndian_littleEndian, Nat.mod_eq_of_lt h]

@[simp] theorem toUInt64_ofUInt64 (v : UInt64) : toUInt64 (ofUInt64 v) = v := by
  have h : v.toNat < 18446744073709551616 := v.toNat_lt
  simp [toUInt64, ofUInt64, ofLittleEndian_littleEndian, Nat.mod_eq_of_lt h]

@[simp] theorem toInt32_ofInt32 (v : Int32) : toInt32 (ofInt32 v) = v := by
  simp [toInt32, ofInt32]

@[simp] theorem toInt64_ofInt64 (v : Int64) : toInt64 (ofInt64 v) = v := by
  simp [toInt64, ofInt64]

/-! ## Padding and overwriting -/

def zeros (count : Nat) : Bytes := List.replicate count 0

def padded (bs : Bytes) : Bytes := bs ++ zeros (alignUp bs.length - bs.length)

@[simp] theorem length_zeros (count : Nat) : (zeros count).length = count := by
  simp [zeros]

@[simp] theorem length_padded (bs : Bytes) : (padded bs).length = alignUp bs.length := by
  have := le_alignUp bs.length
  simp only [padded, List.length_append, length_zeros]
  omega

/-- The `len` bytes that start at `offset`, fewer where the bytes end before. -/
def window (bs : Bytes) (offset len : Nat) : Bytes := (bs.drop offset).take len

def overwrite (bs : Bytes) (offset : Nat) (new : Bytes) : Bytes :=
  bs.take offset ++ new ++ bs.drop (offset + new.length)

theorem length_window {bs : Bytes} {offset len : Nat} (h : offset + len ≤ bs.length) :
    (window bs offset len).length = len := by
  simp only [window, List.length_take, List.length_drop]
  omega

theorem length_overwrite {bs new : Bytes} {offset : Nat} (h : offset + new.length ≤ bs.length) :
    (overwrite bs offset new).length = bs.length := by
  simp only [overwrite, List.length_append, List.length_take, List.length_drop]
  omega

end Bytes

end CodeCache
