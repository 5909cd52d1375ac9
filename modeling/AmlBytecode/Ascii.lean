/-! # ASCII text as bytes

Each byte below `0x80` is one character, and no other byte is one. Main statements:
`encode_of_decode?`, a decoded text has exactly the bytes that were read, and
`decode?_eq_none_iff`, a text is refused only for a byte that is no character. -/

namespace AmlBytecode.Ascii

/-- The bytes of an ASCII text, one for each character. -/
def encode (text : String) : List UInt8 := text.toList.map Char.toUInt8

/-- The text with the given bytes, if all of them are below `0x80`. -/
def decode? (bytes : List UInt8) : Option String :=
  if bytes.all (·.toNat < 0x80) then some (String.ofList (bytes.map Char.ofUInt8)) else none

theorem toUInt8_ofUInt8 (b : UInt8) : (Char.ofUInt8 b).toUInt8 = b := UInt8.toUInt8_toUInt32 b

theorem encode_of_decode? {bytes : List UInt8} {text : String} (h : decode? bytes = some text) :
    encode text = bytes := by
  unfold decode? at h
  split at h
  · cases h
    simp [encode, Function.comp_def, toUInt8_ofUInt8]
  · cases h

theorem decode?_eq_none_iff {bytes : List UInt8} :
    decode? bytes = none ↔ ∃ b ∈ bytes, 0x80 ≤ b.toNat := by
  simp [decode?]

end AmlBytecode.Ascii
