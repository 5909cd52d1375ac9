import AmlBytecode.Text

/-! # Flags

Sets of flags that tell a term parser how to treat an opcode, kept as sixteen bits. Ten of the
bits are the flags of `Flag`; a set may hold the other six as well, and then keeps them. -/

namespace AmlBytecode

/-- A property of an opcode. -/
inductive Flag
  /-- Builds a buffer or a package whose contents end where a package length says. -/
  | hasPkgLength
  /-- Adds a name to the namespace. -/
  | named
  | constant
  /-- Gives a reference to an object that is there already. -/
  | reference
  | arithmetic
  /-- Makes a field that is part of a buffer that is there already. -/
  | create
  | returns
  | executable
  /-- Has no effect and may be skipped. -/
  | noOp
  /-- Its last operand, a list of terms, is read in a scope of its own. -/
  | opensScope
deriving DecidableEq

namespace Flag

def all : List Flag :=
  [hasPkgLength, named, constant, reference, arithmetic, create, returns, executable, noOp,
    opensScope]

/-- The one bit that stands for a flag. -/
def mask : Flag → UInt16
  | hasPkgLength => 0x001
  | named => 0x002
  | constant => 0x004
  | reference => 0x008
  | arithmetic => 0x010
  | create => 0x020
  | returns => 0x040
  | executable => 0x080
  | noOp => 0x100
  | opensScope => 0x200

def name : Flag → String
  | hasPkgLength => "HAS_PKG_LENGTH"
  | named => "NAMED"
  | constant => "CONSTANT"
  | reference => "REFERENCE"
  | arithmetic => "ARITHMETIC"
  | create => "CREATE"
  | returns => "RETURN"
  | executable => "EXECUTABLE"
  | noOp => "NO_OP"
  | opensScope => "SCOPED"

end Flag

/-- A set of flags, as sixteen bits. -/
structure Flags where
  bits : UInt16
deriving DecidableEq

namespace Flags

def ofList (flags : List Flag) : Flags := ⟨flags.foldr (fun f bits => f.mask ||| bits) 0⟩

def all : Flags := ofList Flag.all

def includes (s t : Flags) : Bool := s.bits &&& t.bits == t.bits

def intersects (s t : Flags) : Bool := s.bits &&& t.bits != 0

def isEmpty (s : Flags) : Bool := s.bits == 0

/-- All ten flags are set; other bits may be set too. -/
def isAll (s : Flags) : Bool := s.includes all

def union (s t : Flags) : Flags := ⟨s.bits ||| t.bits⟩

def inter (s t : Flags) : Flags := ⟨s.bits &&& t.bits⟩

def diff (s t : Flags) : Flags := ⟨s.bits &&& ~~~t.bits⟩

def symmDiff (s t : Flags) : Flags := ⟨s.bits ^^^ t.bits⟩

/-- The ten flags that `s` has, without its other bits. -/
def truncate (s : Flags) : Flags := s.inter all

/-- The ten flags that `s` lacks. -/
def complement (s : Flags) : Flags := all.diff s

/-- The set with the given bits, if they are all flags. -/
def ofBits? (bits : UInt16) : Option Flags :=
  if all.includes ⟨bits⟩ then some ⟨bits⟩ else none

/-- The flags in a set, from the lowest bit to the highest. -/
def toList (s : Flags) : List Flag := Flag.all.filter fun f => s.includes ⟨f.mask⟩

/-- The bits of `s` that are no flags. -/
def unknown (s : Flags) : Flags := s.diff all

/-- The printed form of a set, such as `OpFlags(NAMED | SCOPED)`: the names of its flags from the
lowest bit to the highest, then its other bits as one number. The empty set prints as zero. -/
def text (s : Flags) : String :=
  let rest := if s.unknown.isEmpty then [] else [Text.hex s.unknown.bits.toNat]
  let parts := s.toList.map (·.name) ++ rest
  "OpFlags(" ++ (if parts.isEmpty then Text.hex 0 else " | ".intercalate parts) ++ ")"

end Flags

end AmlBytecode
