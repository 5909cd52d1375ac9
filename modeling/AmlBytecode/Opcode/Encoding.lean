import AmlBytecode.Opcode.Basic

/-! # How opcodes are written

An opcode is one byte of the primary space, or the prefix `0x5b` followed by a byte of the
extended space. `Opcode.encoding` gives each opcode its space and byte, as in section 20.2 of the
ACPI specification. -/

namespace AmlBytecode

/-- The two spaces that opcode bytes live in. -/
inductive Space
  | primary
  | extended
deriving DecidableEq

/-- The written form of an opcode: a byte of one of the two spaces. -/
structure Encoding where
  space : Space
  byte : UInt8
deriving DecidableEq

namespace Encoding

/-- The byte that opens every opcode of the extended space. -/
def extendedPrefix : UInt8 := 0x5b

def primary (byte : UInt8) : Encoding := ⟨.primary, byte⟩

def extended (byte : UInt8) : Encoding := ⟨.extended, byte⟩

/-- The bytes in the stream. -/
def bytes : Encoding → List UInt8
  | ⟨.primary, b⟩ => [b]
  | ⟨.extended, b⟩ => [extendedPrefix, b]

def length (e : Encoding) : Nat :=
  match e.space with
  | .primary => 1
  | .extended => 2

theorem length_bytes (e : Encoding) : e.bytes.length = e.length := by
  cases e with | mk space byte => cases space <;> rfl

theorem length_pos (e : Encoding) : 0 < e.length := by
  cases e with | mk space byte => cases space <;> simp [length]

end Encoding

/-- The written form of an opcode. The byte of `localObj n` and of `argObj n` is counted from the
byte of `Local0` and of `Arg0` and wraps at 256, so that a number outside the language gets a byte
that belongs to some other opcode or to none. -/
def Opcode.encoding : Opcode → Encoding
  | .zeroOp => .primary 0x00
  | .oneOp => .primary 0x01
  | .aliasOp => .primary 0x06
  | .nameOp => .primary 0x08
  | .bytePrefix => .primary 0x0a
  | .wordPrefix => .primary 0x0b
  | .dWordPrefix => .primary 0x0c
  | .stringPrefix => .primary 0x0d
  | .qWordPrefix => .primary 0x0e
  | .scopeOp => .primary 0x10
  | .bufferOp => .primary 0x11
  | .packageOp => .primary 0x12
  | .varPackageOp => .primary 0x13
  | .methodOp => .primary 0x14
  | .externalOp => .primary 0x15
  | .localObj n => .primary (0x60 + n)
  | .argObj n => .primary (0x68 + n)
  | .storeOp => .primary 0x70
  | .refOfOp => .primary 0x71
  | .addOp => .primary 0x72
  | .concatOp => .primary 0x73
  | .subtractOp => .primary 0x74
  | .incrementOp => .primary 0x75
  | .decrementOp => .primary 0x76
  | .multiplyOp => .primary 0x77
  | .divideOp => .primary 0x78
  | .shiftLeftOp => .primary 0x79
  | .shiftRightOp => .primary 0x7a
  | .andOp => .primary 0x7b
  | .nandOp => .primary 0x7c
  | .orOp => .primary 0x7d
  | .norOp => .primary 0x7e
  | .xorOp => .primary 0x7f
  | .notOp => .primary 0x80
  | .findSetLeftBitOp => .primary 0x81
  | .findSetRightBitOp => .primary 0x82
  | .derefOfOp => .primary 0x83
  | .concatResOp => .primary 0x84
  | .modOp => .primary 0x85
  | .notifyOp => .primary 0x86
  | .sizeOfOp => .primary 0x87
  | .indexOp => .primary 0x88
  | .matchOp => .primary 0x89
  | .createDWordFieldOp => .primary 0x8a
  | .createWordFieldOp => .primary 0x8b
  | .createByteFieldOp => .primary 0x8c
  | .createBitFieldOp => .primary 0x8d
  | .objectTypeOp => .primary 0x8e
  | .createQWordFieldOp => .primary 0x8f
  | .lAndOp => .primary 0x90
  | .lOrOp => .primary 0x91
  | .lNotOp => .primary 0x92
  | .lEqualOp => .primary 0x93
  | .lGreaterOp => .primary 0x94
  | .lLessOp => .primary 0x95
  | .toBufferOp => .primary 0x96
  | .toDecimalStringOp => .primary 0x97
  | .toHexStringOp => .primary 0x98
  | .toIntegerOp => .primary 0x99
  | .toStringOp => .primary 0x9c
  | .copyObjectOp => .primary 0x9d
  | .midOp => .primary 0x9e
  | .continueOp => .primary 0x9f
  | .ifOp => .primary 0xa0
  | .elseOp => .primary 0xa1
  | .whileOp => .primary 0xa2
  | .noopOp => .primary 0xa3
  | .returnOp => .primary 0xa4
  | .breakOp => .primary 0xa5
  | .breakpointOp => .primary 0xcc
  | .onesOp => .primary 0xff
  | .mutexOp => .extended 0x01
  | .eventOp => .extended 0x02
  | .condRefOfOp => .extended 0x12
  | .createFieldOp => .extended 0x13
  | .loadTableOp => .extended 0x1f
  | .loadOp => .extended 0x20
  | .stallOp => .extended 0x21
  | .sleepOp => .extended 0x22
  | .acquireOp => .extended 0x23
  | .signalOp => .extended 0x24
  | .waitOp => .extended 0x25
  | .resetOp => .extended 0x26
  | .releaseOp => .extended 0x27
  | .fromBCDOp => .extended 0x28
  | .toBCDOp => .extended 0x29
  | .unloadOp => .extended 0x2a
  | .revisionOp => .extended 0x30
  | .debugOp => .extended 0x31
  | .fatalOp => .extended 0x32
  | .timerOp => .extended 0x33
  | .opRegionOp => .extended 0x80
  | .fieldOp => .extended 0x81
  | .deviceOp => .extended 0x82
  | .processorOp => .extended 0x83
  | .powerResOp => .extended 0x84
  | .thermalZoneOp => .extended 0x85
  | .indexFieldOp => .extended 0x86
  | .bankFieldOp => .extended 0x87
  | .dataRegionOp => .extended 0x88

end AmlBytecode
