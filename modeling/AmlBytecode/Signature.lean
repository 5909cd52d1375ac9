import AmlBytecode.LittleEndian
import AmlBytecode.OperandKind
import AmlBytecode.Text

/-! # Signatures

The kinds of an opcode's operands, in order, packed into one 64-bit word: byte `n` of the word
holds the code of operand `n`, and the first byte whose low four bits are zero ends the list.
`ofKinds` packs at most seven kinds, so that no packed word has a gap or uses its last byte; the
readers below are defined on every word all the same. Main statement: `slot_ofKinds`, the slots of
a packed list hold its codes in order. -/

namespace AmlBytecode

/-- The operand kinds of an opcode, packed into a word. -/
structure Signature where
  word : UInt64
deriving DecidableEq

namespace Signature

/-- The largest number of operands that a signature holds. -/
def capacity : Nat := 7

/-- Packs a list of kinds, the first one into the least significant byte. -/
def ofKinds (kinds : List OperandKind) (_ : kinds.length ≤ capacity := by decide) : Signature :=
  ⟨(LittleEndian.value (kinds.map (·.code))).toUInt64⟩

/-- The code in slot `n`: the low four bits of byte `n` of the word. -/
def slot (s : Signature) (n : Nat) : UInt8 :=
  (LittleEndian.bytes 8 s.word.toNat).getD n 0 &&& 0x0f

/-- The number of operands: how many slots precede the first empty one. -/
def count (s : Signature) : Nat :=
  ((List.range capacity).takeWhile fun n => s.slot n ≠ 0).length

/-- The kind of operand `n`, if neither slot `n` nor a slot before it is empty. -/
def get? (s : Signature) (n : Nat) : Option OperandKind :=
  if n < capacity then
    if ∀ i < n, s.slot i ≠ 0 then OperandKind.ofCode? (s.slot n) else none
  else none

/-- Some operand is of kind `k`: the first slot that is empty or holds the code of `k` holds the
code of `k`. -/
def contains (s : Signature) (k : OperandKind) : Bool :=
  ((List.range capacity).find? fun n => s.slot n = 0 ∨ s.slot n = k.code).any
    fun n => s.slot n = k.code

def toList (s : Signature) : List OperandKind := (List.range s.count).filterMap s.get?

/-- The printed form of a signature, such as `[NameString, ByteData]`. -/
def text (s : Signature) : String := Text.listing (s.toList.map (·.name))

theorem toNat_word_ofKinds {kinds : List OperandKind} (h : kinds.length ≤ capacity) :
    (ofKinds kinds h).word.toNat = LittleEndian.value (kinds.map (·.code)) := by
  have hfits : LittleEndian.Fits 8 (LittleEndian.value (kinds.map (·.code))) :=
    LittleEndian.fits_value (by simpa [capacity] using Nat.le_succ_of_le h)
  simp only [LittleEndian.Fits] at hfits
  simp only [ofKinds, Nat.toUInt64_eq, UInt64.toNat_ofNat']
  omega

theorem slot_ofKinds {kinds : List OperandKind} (h : kinds.length ≤ capacity) (n : Nat) :
    (ofKinds kinds h).slot n = (kinds[n]?.map (·.code)).getD 0 := by
  have hlen : (kinds.map (·.code)).length ≤ 8 := by simpa [capacity] using Nat.le_succ_of_le h
  rw [slot, toNat_word_ofKinds, LittleEndian.getD_bytes_value hlen, List.getD_eq_getElem?_getD,
    List.getElem?_map]
  cases kinds[n]? with
  | none => rfl
  | some k => exact k.code_and

end Signature

end AmlBytecode
