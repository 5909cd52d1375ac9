import AmlBytecode.Session

/-! # Writing streams

An item is one thing that a stream can be made of and a cursor can read: an opcode, a number of
fixed width, a string, or a byte of anything else. `Item.bytes` writes it; `Item.step` is the step
that reads it, and `Item.value` what that step should answer. -/

namespace AmlBytecode

/-- One thing that can be written to a stream. -/
inductive Item
  | opcode (d : Descriptor)
  | immediate (kind : OperandKind) (n : Nat)
  | string (text : String)
  | byte (b : UInt8)

namespace Item

/-- The item can be written so that it can be read back: the opcode is in the table, the number
fits in the width of its kind, and the string is ASCII without zero bytes. -/
def WellFormed : Item → Prop
  | opcode d => d ∈ Descriptor.table
  | immediate kind n => ∃ width, kind.immediateWidth? = some width ∧ LittleEndian.Fits width n
  | string text => ∀ c ∈ text.toList, 0 < c.toNat ∧ c.toNat < 0x80
  | byte _ => True

def bytes : Item → List UInt8
  | opcode d => d.opcode.encoding.bytes
  | immediate kind n => LittleEndian.bytes (kind.immediateWidth?.getD 0) n
  | string text => Ascii.encode text ++ [0]
  | byte b => [b]

def step : Item → Step
  | opcode _ => .nextOpcode
  | immediate kind _ => .immediate kind
  | string _ => .string
  | byte _ => .next

def value : Item → Value
  | opcode d => .descriptor d
  | immediate _ n => .number n
  | string text => .text text
  | byte b => .byte b

/-- Every item takes at least one byte. -/
theorem bytes_ne_nil {i : Item} (h : i.WellFormed) : i.bytes ≠ [] := by
  cases i with
  | opcode d =>
    rw [← List.length_pos_iff]
    exact d.opcode.encoding.length_bytes ▸ d.opcode.encoding.length_pos
  | immediate kind n =>
    obtain ⟨width, hwidth, _⟩ := h
    rw [← List.length_pos_iff]
    simpa [bytes, hwidth] using OperandKind.immediateWidth?_pos hwidth
  | string text => simp [bytes]
  | byte b => simp [bytes]

end Item

end AmlBytecode
