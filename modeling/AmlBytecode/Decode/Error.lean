import AmlBytecode.OperandKind
import AmlBytecode.Text

/-! # Decoding errors

What can be wrong with the bytes at a cursor, or with a request to read them. -/

namespace AmlBytecode

/-- The cause of a failed read. -/
inductive DecodeError
  /-- The byte is no opcode. -/
  | illegalOpcode (byte : UInt8)
  /-- The byte after the extended prefix is no opcode. -/
  | illegalExtendedOpcode (byte : UInt8)
  /-- The stream ends after the extended prefix. -/
  | truncatedExtendedOpcode
  | endOfStream
  /-- A number was asked for, but operands of this kind have no fixed width. -/
  | notAnImmediate (kind : OperandKind)
  /-- The bytes before the terminator are not all ASCII. -/
  | invalidString
deriving DecidableEq

namespace DecodeError

def name : DecodeError → String
  | illegalOpcode _ => "IllegalOpcode"
  | illegalExtendedOpcode _ => "IllegalExtOpcode"
  | truncatedExtendedOpcode => "TruncatedExtOpcode"
  | endOfStream => "UnexpectedEndOfStream"
  | notAnImmediate _ => "NotAnImmediate"
  | invalidString => "InvalidStringConstant"

/-- The printed form of an error: its name, then the byte or the kind it is about. -/
def text (e : DecodeError) : String :=
  match e with
  | illegalOpcode b | illegalExtendedOpcode b => e.name ++ "(" ++ Text.decimal b.toNat ++ ")"
  | notAnImmediate k => e.name ++ "(" ++ k.name ++ ")"
  | truncatedExtendedOpcode | endOfStream | invalidString => e.name

end DecodeError

end AmlBytecode
