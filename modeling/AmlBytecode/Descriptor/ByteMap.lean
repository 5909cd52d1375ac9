import AmlBytecode.Descriptor.Table

/-! # Byte maps

A byte map gives, for each byte of one space, the position of the table entry that is written with
it. `ByteMap.ofTable` fills the map of any table; `primaryMap` and `extendedMap` are the maps of
`Descriptor.table`, through which an entry is found from its written form and from its opcode. -/

namespace AmlBytecode

/-- For each byte a position in a table, or nothing. -/
abbrev ByteMap := Vector (Option UInt8) 256

namespace ByteMap

def empty : ByteMap := Vector.replicate 256 none

def lookup (m : ByteMap) (byte : UInt8) : Option UInt8 := m[byte.toFin]

def store (m : ByteMap) (byte position : UInt8) : ByteMap :=
  m.set byte.toNat (some position) byte.toNat_lt

@[simp] theorem lookup_empty (b : UInt8) : empty.lookup b = none := by
  simp [lookup, empty]

theorem lookup_store (m : ByteMap) (b b' p : UInt8) :
    (m.store b p).lookup b' = if b = b' then some p else m.lookup b' := by
  simp [lookup, store, Vector.getElem_set, UInt8.toNat_inj]

/-- Stores the position of a table entry for its byte, if it is written in the given space. -/
def insert (space : Space) (m : ByteMap) (entry : Descriptor × Nat) : ByteMap :=
  if entry.1.opcode.encoding.space = space then
    m.store entry.1.opcode.encoding.byte entry.2.toUInt8
  else m

/-- The map of one space, filled from the entries of a table with their positions. -/
def ofTable (table : List Descriptor) (space : Space) : ByteMap :=
  table.zipIdx.foldl (insert space) empty

end ByteMap

namespace Descriptor

/-- The positions of the single-byte opcodes. -/
def primaryMap : ByteMap := .ofTable table .primary

/-- The positions of the opcodes after the extended prefix. -/
def extendedMap : ByteMap := .ofTable table .extended

def atPosition? (position : Nat) : Option Descriptor := table[position]?

end Descriptor

def Space.byteMap : Space → ByteMap
  | .primary => Descriptor.primaryMap
  | .extended => Descriptor.extendedMap

/-- The table entry with a given written form. -/
def Encoding.descriptor? (e : Encoding) : Option Descriptor :=
  (e.space.byteMap.lookup e.byte).bind fun i => Descriptor.atPosition? i.toNat

namespace Opcode

/-- The descriptor of an opcode. The entry with the written form of the opcode counts only if it
describes this very opcode: `localObj 8` has the byte of `argObj 0`. -/
def descriptor? (op : Opcode) : Option Descriptor :=
  op.encoding.descriptor?.filter (·.opcode = op)

def position? (op : Opcode) : Option Nat :=
  Descriptor.table.findIdx? (·.opcode = op)

end Opcode

end AmlBytecode
