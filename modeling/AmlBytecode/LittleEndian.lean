/-! # Little-endian numbers

The number that a list of bytes stands for when its first byte is the least significant one, and
the bytes of a number at a given width. A number that fits in the width is read back from its
bytes (`value_bytes`), and bytes are written back from their number (`bytes_value`). -/

namespace AmlBytecode.LittleEndian

/-- The number with the given bytes, least significant byte first. -/
def value : List UInt8 → Nat
  | [] => 0
  | b :: bs => b.toNat + 256 * value bs

/-- The `width` low bytes of `n`, least significant byte first. -/
def bytes : (width n : Nat) → List UInt8
  | 0, _ => []
  | width + 1, n => n.toUInt8 :: bytes width (n / 256)

/-- Nothing is left of `n` past its `width` low bytes. -/
def Fits : (width n : Nat) → Prop
  | 0, n => n = 0
  | width + 1, n => Fits width (n / 256)

@[simp] theorem length_bytes (width n : Nat) : (bytes width n).length = width := by
  induction width generalizing n with
  | zero => rfl
  | succ width ih => simp [bytes, ih]

theorem value_bytes {width n : Nat} (h : Fits width n) : value (bytes width n) = n := by
  induction width generalizing n with
  | zero => exact h.symm
  | succ width ih =>
    simp only [bytes, value, ih h, Nat.toUInt8_eq, UInt8.toNat_ofNat']
    omega

theorem fits_zero (width : Nat) : Fits width 0 := by
  induction width with
  | zero => rfl
  | succ width ih => exact ih

private theorem value_cons_div (b : UInt8) (bs : List UInt8) :
    value (b :: bs) / 256 = value bs := by
  have hb := b.toNat_lt
  rw [value]
  omega

private theorem toUInt8_value_cons (b : UInt8) (bs : List UInt8) :
    (value (b :: bs)).toUInt8 = b := by
  have hb := b.toNat_lt
  apply UInt8.toNat_inj.mp
  simp only [value, Nat.toUInt8_eq, UInt8.toNat_ofNat']
  omega

/-- The number of some bytes fits in as many bytes, and in more. -/
theorem fits_value {width : Nat} {bs : List UInt8} (h : bs.length ≤ width) :
    Fits width (value bs) := by
  induction bs generalizing width with
  | nil => exact fits_zero width
  | cons b bs ih =>
    cases width with
    | zero => simp at h
    | succ width =>
      rw [Fits, value_cons_div]
      exact ih (Nat.le_of_succ_le_succ h)

theorem bytes_value (bs : List UInt8) : bytes bs.length (value bs) = bs := by
  induction bs with
  | nil => rfl
  | cons b bs ih => rw [List.length_cons, bytes, toUInt8_value_cons, value_cons_div, ih]

/-- At a greater width too, the bytes of the number come first and zeros follow. -/
theorem getD_bytes_value {width : Nat} {bs : List UInt8} (h : bs.length ≤ width) (n : Nat) :
    (bytes width (value bs)).getD n 0 = bs.getD n 0 := by
  induction bs generalizing width n with
  | nil =>
    induction width generalizing n with
    | zero => rfl
    | succ width ih =>
      cases n with
      | zero => rfl
      | succ n => simpa [bytes, value] using ih (Nat.zero_le width) n
  | cons b bs ih =>
    cases width with
    | zero => simp at h
    | succ width =>
      rw [bytes, toUInt8_value_cons, value_cons_div]
      cases n with
      | zero => rfl
      | succ n => simpa using ih (Nat.le_of_succ_le_succ h) n

end AmlBytecode.LittleEndian
