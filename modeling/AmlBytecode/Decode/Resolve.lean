import AmlBytecode.Decode.Error
import AmlBytecode.Decode.Trace
import AmlBytecode.Descriptor.ByteMap

/-! # Resolving opcodes

`resolve` finds the descriptor of the opcode that starts with a given byte. Only after the
extended prefix does it look at the byte that follows. Each failure leaves one record; success
leaves none. -/

namespace AmlBytecode.Descriptor

/-- The descriptor of the opcode that starts with `byte`; `next` is the byte after it, if there is
one. -/
def resolve (byte : UInt8) (next : Option UInt8) : Traced (Except DecodeError Descriptor) :=
  if byte = Encoding.extendedPrefix then
    match next with
    | none => ⟨.error .truncatedExtendedOpcode, [.truncatedExtendedOpcode]⟩
    | some b =>
      match (Encoding.extended b).descriptor? with
      | some d => ⟨.ok d, []⟩
      | none => ⟨.error (.illegalExtendedOpcode b), [.illegalExtendedOpcode b]⟩
  else
    match (Encoding.primary byte).descriptor? with
    | some d => ⟨.ok d, []⟩
    | none => ⟨.error (.illegalOpcode byte), [.illegalOpcode byte]⟩

end AmlBytecode.Descriptor
