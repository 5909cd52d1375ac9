import AmlBytecode.Opcode.Encoding
import AmlBytecode.Opcode.Text

/-! # Trace records

Decoding an opcode leaves a record of what was found. `Traced` is a value together with the
records that were left on the way to it. -/

namespace AmlBytecode

inductive Record
  | truncatedExtendedOpcode
  | illegalExtendedOpcode (byte : UInt8)
  | illegalOpcode (byte : UInt8)
  /-- An opcode was decoded; `pc` is where it starts. -/
  | decoded (opcode : Opcode) (pc : Nat)
deriving DecidableEq

def Record.text : Record → String
  | truncatedExtendedOpcode => "Stream ends after extended opcode prefix"
  | illegalExtendedOpcode b =>
    "Illegal extended opcode: " ++ Text.hex Encoding.extendedPrefix.toNat ++ " " ++
      Text.hex b.toNat
  | illegalOpcode b => "Illegal opcode: " ++ Text.hex b.toNat
  | decoded op pc => "Decoded opcode " ++ op.text ++ " at pc=" ++ Text.hex pc

/-- A value and the records left on the way to it, oldest first. -/
structure Traced (α : Type) where
  value : α
  trace : List Record

end AmlBytecode
