/-! # Operand kinds

The kinds of operands that may follow an opcode. Each kind has a code from 1 to 15, which leaves
0 free to mark the absence of an operand. Main statement: `ofCode?_eq_some_iff`, a code stands for
at most one kind. -/

namespace AmlBytecode

/-- What a term parser has to read as one operand of an opcode. -/
inductive OperandKind
  /-- Terms up to the end of the package that encloses them. -/
  | termList
  | termObj
  /-- Raw bytes up to the end of the package that encloses them. -/
  | byteList
  | package
  /-- ASCII text that ends in a zero byte. -/
  | string
  | byteData
  | word
  | dWord
  | qWord
  | nameString
  | superName
  | simpleName
  | dataRefObj
  /-- Where a result is stored; the null name discards it. -/
  | target
  | fieldList
deriving DecidableEq

namespace OperandKind

/-- All kinds, in the order of their codes. -/
def all : List OperandKind :=
  [termList, termObj, byteList, package, string, byteData, word, dWord, qWord, nameString,
    superName, simpleName, dataRefObj, target, fieldList]

def code : OperandKind → UInt8
  | termList => 1
  | termObj => 2
  | byteList => 3
  | package => 4
  | string => 5
  | byteData => 6
  | word => 7
  | dWord => 8
  | qWord => 9
  | nameString => 10
  | superName => 11
  | simpleName => 12
  | dataRefObj => 13
  | target => 14
  | fieldList => 15

def ofCode? (code : UInt8) : Option OperandKind := all.find? (·.code = code)

/-- The width in bytes of an operand that is a number of fixed width. -/
def immediateWidth? : OperandKind → Option Nat
  | byteData => some 1
  | word => some 2
  | dWord => some 4
  | qWord => some 8
  | _ => none

def isOptional : OperandKind → Bool
  | target => true
  | _ => false

def name : OperandKind → String
  | termList => "TermList"
  | termObj => "TermObj"
  | byteList => "ByteList"
  | package => "Package"
  | string => "String"
  | byteData => "ByteData"
  | word => "Word"
  | dWord => "DWord"
  | qWord => "QWord"
  | nameString => "NameString"
  | superName => "SuperName"
  | simpleName => "SimpleName"
  | dataRefObj => "DataRefObj"
  | target => "Target"
  | fieldList => "FieldList"

theorem mem_all (k : OperandKind) : k ∈ all := by cases k <;> decide

theorem ofCode?_code (k : OperandKind) : ofCode? k.code = some k := by cases k <;> decide

theorem code_of_ofCode? {c : UInt8} {k : OperandKind} (h : ofCode? c = some k) : k.code = c := by
  simpa using List.find?_some h

theorem ofCode?_eq_some_iff {c : UInt8} {k : OperandKind} : ofCode? c = some k ↔ k.code = c :=
  ⟨code_of_ofCode?, fun h => h ▸ ofCode?_code k⟩

theorem code_pos (k : OperandKind) : 0 < k.code := by cases k <;> decide

/-- Every code fits in four bits. -/
theorem code_and (k : OperandKind) : k.code &&& 0x0f = k.code := by cases k <;> decide

theorem immediateWidth?_pos {k : OperandKind} {width : Nat} (h : k.immediateWidth? = some width) :
    0 < width := by
  cases k <;> cases h <;> decide

end OperandKind

end AmlBytecode
