import AmlBytecode.Flags
import AmlBytecode.ObjectType
import AmlBytecode.Opcode.Encoding
import AmlBytecode.Opcode.Text
import AmlBytecode.Signature

/-! # Descriptors

What a term parser knows about an opcode: the object it produces, how it is to be treated, and
the operands that follow it in the stream. -/

namespace AmlBytecode

/-- The description of one opcode. -/
structure Descriptor where
  opcode : Opcode
  objectType : ObjectType
  flags : Flags
  signature : Signature
deriving DecidableEq

namespace Descriptor

def hasFlags (d : Descriptor) (flags : Flags) : Bool := d.flags.includes flags

def operandCount (d : Descriptor) : Nat := d.signature.count

def operand? (d : Descriptor) (n : Nat) : Option OperandKind := d.signature.get? n

def hasOperand (d : Descriptor) (k : OperandKind) : Bool := d.signature.contains k

/-- The number of bytes of the opcode in the stream, operands not counted. -/
def encodedLength (d : Descriptor) : Nat := d.opcode.encoding.length

def text (d : Descriptor) : String :=
  "OpcodeInfo \x7b op: " ++ d.opcode.text ++ ", object_type: " ++ d.objectType.name ++
    ", flags: " ++ d.flags.text ++ ", args: " ++ d.signature.text ++ " \x7d"

end Descriptor

end AmlBytecode
