import AmlBytecode.Opcode.Basic
import AmlBytecode.Text

/-! # Printed opcodes

The name of each opcode; a local or an argument object carries its number in decimal. -/

namespace AmlBytecode

/-- The printed form of an opcode, such as `Method` or `Local(3)`. -/
def Opcode.text : Opcode → String
  | .zeroOp => "Zero"
  | .oneOp => "One"
  | .aliasOp => "Alias"
  | .nameOp => "Name"
  | .bytePrefix => "BytePrefix"
  | .wordPrefix => "WordPrefix"
  | .dWordPrefix => "DWordPrefix"
  | .stringPrefix => "StringPrefix"
  | .qWordPrefix => "QWordPrefix"
  | .scopeOp => "Scope"
  | .bufferOp => "Buffer"
  | .packageOp => "Package"
  | .varPackageOp => "VarPackage"
  | .methodOp => "Method"
  | .externalOp => "External"
  | .localObj n => "Local(" ++ Text.decimal n.toNat ++ ")"
  | .argObj n => "Arg(" ++ Text.decimal n.toNat ++ ")"
  | .storeOp => "Store"
  | .refOfOp => "RefOf"
  | .addOp => "Add"
  | .concatOp => "Concat"
  | .subtractOp => "Subtract"
  | .incrementOp => "Increment"
  | .decrementOp => "Decrement"
  | .multiplyOp => "Multiply"
  | .divideOp => "Divide"
  | .shiftLeftOp => "ShiftLeft"
  | .shiftRightOp => "ShiftRight"
  | .andOp => "And"
  | .nandOp => "Nand"
  | .orOp => "Or"
  | .norOp => "Nor"
  | .xorOp => "Xor"
  | .notOp => "Not"
  | .findSetLeftBitOp => "FindSetLeftBit"
  | .findSetRightBitOp => "FindSetRightBit"
  | .derefOfOp => "DerefOf"
  | .concatResOp => "ConcatRes"
  | .modOp => "Mod"
  | .notifyOp => "Notify"
  | .sizeOfOp => "SizeOf"
  | .indexOp => "Index"
  | .matchOp => "Match"
  | .createDWordFieldOp => "CreateDWordField"
  | .createWordFieldOp => "CreateWordField"
  | .createByteFieldOp => "CreateByteField"
  | .createBitFieldOp => "CreateBitField"
  | .objectTypeOp => "ObjectType"
  | .createQWordFieldOp => "CreateQWordField"
  | .lAndOp => "LAnd"
  | .lOrOp => "LOr"
  | .lNotOp => "LNot"
  | .lEqualOp => "LEqual"
  | .lGreaterOp => "LGreater"
  | .lLessOp => "LLess"
  | .toBufferOp => "ToBuffer"
  | .toDecimalStringOp => "ToDecimalString"
  | .toHexStringOp => "ToHexString"
  | .toIntegerOp => "ToInteger"
  | .toStringOp => "ToString"
  | .copyObjectOp => "CopyObject"
  | .midOp => "Mid"
  | .continueOp => "Continue"
  | .ifOp => "If"
  | .elseOp => "Else"
  | .whileOp => "While"
  | .noopOp => "Noop"
  | .returnOp => "Return"
  | .breakOp => "Break"
  | .breakpointOp => "Breakpoint"
  | .onesOp => "Ones"
  | .mutexOp => "Mutex"
  | .eventOp => "Event"
  | .condRefOfOp => "CondRefOf"
  | .createFieldOp => "CreateField"
  | .loadTableOp => "LoadTable"
  | .loadOp => "Load"
  | .stallOp => "Stall"
  | .sleepOp => "Sleep"
  | .acquireOp => "Acquire"
  | .signalOp => "Signal"
  | .waitOp => "Wait"
  | .resetOp => "Reset"
  | .releaseOp => "Release"
  | .fromBCDOp => "FromBCD"
  | .toBCDOp => "ToBCD"
  | .unloadOp => "Unload"
  | .revisionOp => "Revision"
  | .debugOp => "Debug"
  | .fatalOp => "Fatal"
  | .timerOp => "Timer"
  | .opRegionOp => "OpRegion"
  | .fieldOp => "Field"
  | .deviceOp => "Device"
  | .processorOp => "Processor"
  | .powerResOp => "PowerRes"
  | .thermalZoneOp => "ThermalZone"
  | .indexFieldOp => "IndexField"
  | .bankFieldOp => "BankField"
  | .dataRegionOp => "DataRegion"

end AmlBytecode
