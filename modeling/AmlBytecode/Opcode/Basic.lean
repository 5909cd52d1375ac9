/-! # Opcodes

The opcodes of ACPI Machine Language, named as in the grammar of the language and independent of
how they are written in a byte stream. -/

namespace AmlBytecode

/-- An opcode. The number of `localObj` and `argObj` may be any byte; only `Local0` to `Local7`
and `Arg0` to `Arg6` belong to the language. -/
inductive Opcode
  | zeroOp | oneOp | aliasOp | nameOp
  | bytePrefix | wordPrefix | dWordPrefix | stringPrefix | qWordPrefix
  | scopeOp | bufferOp | packageOp | varPackageOp | methodOp | externalOp
  | localObj (n : UInt8) | argObj (n : UInt8)
  | storeOp | refOfOp | addOp | concatOp | subtractOp | incrementOp | decrementOp
  | multiplyOp | divideOp | shiftLeftOp | shiftRightOp
  | andOp | nandOp | orOp | norOp | xorOp | notOp | findSetLeftBitOp | findSetRightBitOp
  | derefOfOp | concatResOp | modOp | notifyOp | sizeOfOp | indexOp | matchOp
  | createDWordFieldOp | createWordFieldOp | createByteFieldOp | createBitFieldOp
  | objectTypeOp | createQWordFieldOp
  | lAndOp | lOrOp | lNotOp | lEqualOp | lGreaterOp | lLessOp
  | toBufferOp | toDecimalStringOp | toHexStringOp | toIntegerOp | toStringOp
  | copyObjectOp | midOp
  | continueOp | ifOp | elseOp | whileOp | noopOp | returnOp | breakOp | breakpointOp
  | onesOp
  | mutexOp | eventOp | condRefOfOp | createFieldOp | loadTableOp | loadOp
  | stallOp | sleepOp | acquireOp | signalOp | waitOp | resetOp | releaseOp
  | fromBCDOp | toBCDOp | unloadOp | revisionOp | debugOp | fatalOp | timerOp
  | opRegionOp | fieldOp | deviceOp | processorOp | powerResOp | thermalZoneOp
  | indexFieldOp | bankFieldOp | dataRegionOp
deriving DecidableEq

end AmlBytecode
