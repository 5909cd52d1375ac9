import AmlBytecode.Descriptor.Basic

/-! # The table of descriptors

One entry for every opcode of the language. An entry is known by its position; `ByteMap` finds the
position that belongs to a byte of the stream. -/

namespace AmlBytecode.Descriptor

namespace Table

/-! ## Flags that entries share -/

def constant : Flags := .ofList [.constant]

/-- A constant that the interpreter supplies. -/
def computedConstant : Flags := .ofList [.constant, .executable]

def named : Flags := .ofList [.named]

/-- Adds a name and opens a scope of that name. -/
def namedScope : Flags := .ofList [.named, .opensScope]

/-- Adds a name for a field of a buffer. -/
def namedField : Flags := .ofList [.named, .create]

/-- Builds an object whose extent is given by a package length. -/
def packaged : Flags := .ofList [.hasPkgLength]

def executable : Flags := .ofList [.executable]

/-- Is evaluated to a number or a truth value. -/
def arithmetic : Flags := .ofList [.arithmetic, .executable]

/-- Is evaluated to a reference. -/
def reference : Flags := .ofList [.reference, .executable]

def noEffect : Flags := .ofList [.noOp]

def returns : Flags := .ofList [.returns]

/-! ## Signatures that entries share -/

def unary : Signature := .ofKinds [.termObj, .target]

def binary : Signature := .ofKinds [.termObj, .termObj, .target]

/-- A buffer, an index into it, and the name of the field made there. -/
def createField : Signature := .ofKinds [.termObj, .termObj, .nameString]

end Table

open Table in
/-- The descriptors of all opcodes. -/
def table : List Descriptor :=
  [ ⟨.zeroOp, .integer, constant, .ofKinds []⟩,
    ⟨.oneOp, .integer, constant, .ofKinds []⟩,
    ⟨.aliasOp, .localAlias, named, .ofKinds [.nameString, .nameString]⟩,
    ⟨.nameOp, .any, named, .ofKinds [.nameString, .dataRefObj]⟩,
    ⟨.bytePrefix, .integer, constant, .ofKinds [.byteData]⟩,
    ⟨.wordPrefix, .integer, constant, .ofKinds [.word]⟩,
    ⟨.dWordPrefix, .integer, constant, .ofKinds [.dWord]⟩,
    ⟨.stringPrefix, .string, constant, .ofKinds [.string]⟩,
    ⟨.qWordPrefix, .integer, constant, .ofKinds [.qWord]⟩,
    ⟨.scopeOp, .localScope, namedScope, .ofKinds [.nameString, .termList]⟩,
    ⟨.bufferOp, .buffer, packaged, .ofKinds [.termObj, .byteList]⟩,
    ⟨.packageOp, .package, packaged, .ofKinds [.byteData, .termList]⟩,
    ⟨.varPackageOp, .package, packaged, .ofKinds [.termObj, .termList]⟩,
    ⟨.methodOp, .method, namedScope, .ofKinds [.nameString, .byteData, .termList]⟩,
    ⟨.externalOp, .any, named, .ofKinds [.nameString, .byteData, .byteData]⟩,
    ⟨.localObj 0, .localVariable, executable, .ofKinds []⟩,
    ⟨.localObj 1, .localVariable, executable, .ofKinds []⟩,
    ⟨.localObj 2, .localVariable, executable, .ofKinds []⟩,
    ⟨.localObj 3, .localVariable, executable, .ofKinds []⟩,
    ⟨.localObj 4, .localVariable, executable, .ofKinds []⟩,
    ⟨.localObj 5, .localVariable, executable, .ofKinds []⟩,
    ⟨.localObj 6, .localVariable, executable, .ofKinds []⟩,
    ⟨.localObj 7, .localVariable, executable, .ofKinds []⟩,
    ⟨.argObj 0, .methodArgument, executable, .ofKinds []⟩,
    ⟨.argObj 1, .methodArgument, executable, .ofKinds []⟩,
    ⟨.argObj 2, .methodArgument, executable, .ofKinds []⟩,
    ⟨.argObj 3, .methodArgument, executable, .ofKinds []⟩,
    ⟨.argObj 4, .methodArgument, executable, .ofKinds []⟩,
    ⟨.argObj 5, .methodArgument, executable, .ofKinds []⟩,
    ⟨.argObj 6, .methodArgument, executable, .ofKinds []⟩,
    ⟨.storeOp, .any, executable, .ofKinds [.termObj, .superName]⟩,
    ⟨.refOfOp, .any, reference, .ofKinds [.superName]⟩,
    ⟨.addOp, .any, arithmetic, binary⟩,
    ⟨.concatOp, .any, executable, binary⟩,
    ⟨.subtractOp, .any, arithmetic, binary⟩,
    ⟨.incrementOp, .any, arithmetic, .ofKinds [.superName]⟩,
    ⟨.decrementOp, .any, arithmetic, .ofKinds [.superName]⟩,
    ⟨.multiplyOp, .any, arithmetic, binary⟩,
    ⟨.divideOp, .any, arithmetic, .ofKinds [.termObj, .termObj, .target, .target]⟩,
    ⟨.shiftLeftOp, .any, arithmetic, binary⟩,
    ⟨.shiftRightOp, .any, arithmetic, binary⟩,
    ⟨.andOp, .any, arithmetic, binary⟩,
    ⟨.nandOp, .any, arithmetic, binary⟩,
    ⟨.orOp, .any, arithmetic, binary⟩,
    ⟨.norOp, .any, arithmetic, binary⟩,
    ⟨.xorOp, .any, arithmetic, binary⟩,
    ⟨.notOp, .any, arithmetic, unary⟩,
    ⟨.findSetLeftBitOp, .any, arithmetic, unary⟩,
    ⟨.findSetRightBitOp, .any, arithmetic, unary⟩,
    ⟨.derefOfOp, .any, reference, .ofKinds [.termObj]⟩,
    ⟨.concatResOp, .any, executable, binary⟩,
    ⟨.modOp, .any, arithmetic, binary⟩,
    ⟨.notifyOp, .any, executable, .ofKinds [.superName, .termObj]⟩,
    ⟨.sizeOfOp, .any, executable, .ofKinds [.superName]⟩,
    ⟨.indexOp, .any, reference, binary⟩,
    ⟨.matchOp, .any, executable,
      .ofKinds [.termObj, .byteData, .termObj, .byteData, .termObj, .termObj]⟩,
    ⟨.createDWordFieldOp, .bufferField, namedField, createField⟩,
    ⟨.createWordFieldOp, .bufferField, namedField, createField⟩,
    ⟨.createByteFieldOp, .bufferField, namedField, createField⟩,
    ⟨.createBitFieldOp, .bufferField, namedField, createField⟩,
    ⟨.objectTypeOp, .any, executable, .ofKinds [.superName]⟩,
    ⟨.createQWordFieldOp, .bufferField, namedField, createField⟩,
    ⟨.lAndOp, .any, arithmetic, .ofKinds [.termObj, .termObj]⟩,
    ⟨.lOrOp, .any, arithmetic, .ofKinds [.termObj, .termObj]⟩,
    ⟨.lNotOp, .any, arithmetic, .ofKinds [.termObj]⟩,
    ⟨.lEqualOp, .any, arithmetic, .ofKinds [.termObj, .termObj]⟩,
    ⟨.lGreaterOp, .any, arithmetic, .ofKinds [.termObj, .termObj]⟩,
    ⟨.lLessOp, .any, arithmetic, .ofKinds [.termObj, .termObj]⟩,
    ⟨.toBufferOp, .any, executable, unary⟩,
    ⟨.toDecimalStringOp, .any, executable, unary⟩,
    ⟨.toHexStringOp, .any, executable, unary⟩,
    ⟨.toIntegerOp, .any, executable, unary⟩,
    ⟨.toStringOp, .any, executable, unary⟩,
    ⟨.copyObjectOp, .any, executable, .ofKinds [.termObj, .simpleName]⟩,
    ⟨.midOp, .any, executable, .ofKinds [.termObj, .termObj, .termObj, .target]⟩,
    ⟨.continueOp, .any, executable, .ofKinds []⟩,
    ⟨.ifOp, .any, executable, .ofKinds [.termObj, .termList]⟩,
    ⟨.elseOp, .any, executable, .ofKinds [.termList]⟩,
    ⟨.whileOp, .any, executable, .ofKinds [.termObj, .termList]⟩,
    ⟨.noopOp, .any, noEffect, .ofKinds []⟩,
    ⟨.returnOp, .any, returns, .ofKinds [.termObj]⟩,
    ⟨.breakOp, .any, executable, .ofKinds []⟩,
    ⟨.breakpointOp, .any, noEffect, .ofKinds []⟩,
    ⟨.onesOp, .integer, constant, .ofKinds []⟩,
    ⟨.mutexOp, .mutex, named, .ofKinds [.nameString, .byteData]⟩,
    ⟨.eventOp, .event, named, .ofKinds [.nameString]⟩,
    ⟨.condRefOfOp, .any, reference, .ofKinds [.superName, .superName]⟩,
    ⟨.createFieldOp, .bufferField, namedField,
      .ofKinds [.termObj, .termObj, .termObj, .nameString]⟩,
    ⟨.loadTableOp, .any, executable,
      .ofKinds [.termObj, .termObj, .termObj, .termObj, .termObj, .termObj]⟩,
    ⟨.loadOp, .any, executable, .ofKinds [.nameString, .superName]⟩,
    ⟨.stallOp, .any, executable, .ofKinds [.termObj]⟩,
    ⟨.sleepOp, .any, executable, .ofKinds [.termObj]⟩,
    ⟨.acquireOp, .any, executable, .ofKinds [.superName, .word]⟩,
    ⟨.signalOp, .any, executable, .ofKinds [.superName]⟩,
    ⟨.waitOp, .any, executable, .ofKinds [.superName, .termObj]⟩,
    ⟨.resetOp, .any, executable, .ofKinds [.superName]⟩,
    ⟨.releaseOp, .any, executable, .ofKinds [.superName]⟩,
    ⟨.fromBCDOp, .any, executable, unary⟩,
    ⟨.toBCDOp, .any, executable, unary⟩,
    ⟨.unloadOp, .any, executable, .ofKinds [.superName]⟩,
    ⟨.revisionOp, .integer, computedConstant, .ofKinds []⟩,
    ⟨.debugOp, .localReference, executable, .ofKinds []⟩,
    ⟨.fatalOp, .any, executable, .ofKinds [.byteData, .dWord, .termObj]⟩,
    ⟨.timerOp, .any, executable, .ofKinds []⟩,
    ⟨.opRegionOp, .region, named, .ofKinds [.nameString, .byteData, .termObj, .termObj]⟩,
    ⟨.fieldOp, .any, named, .ofKinds [.nameString, .byteData, .fieldList]⟩,
    ⟨.deviceOp, .device, namedScope, .ofKinds [.nameString, .termList]⟩,
    ⟨.processorOp, .processor, namedScope,
      .ofKinds [.nameString, .byteData, .dWord, .byteData, .termList]⟩,
    ⟨.powerResOp, .power, namedScope, .ofKinds [.nameString, .byteData, .word, .termList]⟩,
    ⟨.thermalZoneOp, .thermal, namedScope, .ofKinds [.nameString, .termList]⟩,
    ⟨.indexFieldOp, .any, named, .ofKinds [.nameString, .nameString, .byteData, .fieldList]⟩,
    ⟨.bankFieldOp, .localBankField, named,
      .ofKinds [.nameString, .nameString, .termObj, .byteData, .fieldList]⟩,
    ⟨.dataRegionOp, .localRegionField, named,
      .ofKinds [.nameString, .termObj, .termObj, .termObj]⟩ ]

end AmlBytecode.Descriptor
