import AmlBytecode.Ascii
import AmlBytecode.Decode.Resolve

/-! # Cursors

A cursor over a byte stream reads opcodes, and those operands that can be read without knowing
what surrounds them: numbers of fixed width and strings. A read gives a result, which is a value or
an error, and beside it the cursor as the read has left it, whatever the result is. -/

namespace AmlBytecode

/-- A byte stream and an offset into it. -/
structure Cursor where
  bytes : List UInt8
  pc : Nat
deriving DecidableEq

namespace Cursor

def start (bytes : List UInt8) : Cursor := ⟨bytes, 0⟩

/-- The cursor `n` bytes further on. -/
def advance (c : Cursor) (n : Nat) : Cursor := { c with pc := c.pc + n }

/-- The bytes from the cursor on. -/
def remaining (c : Cursor) : List UInt8 := c.bytes.drop c.pc

def isEmpty (c : Cursor) : Bool := c.bytes.length ≤ c.pc

def peek (c : Cursor) : Except DecodeError UInt8 :=
  match c.bytes[c.pc]? with
  | some b => .ok b
  | none => .error .endOfStream

def next (c : Cursor) : Except DecodeError UInt8 × Cursor :=
  match c.peek with
  | .ok b => (.ok b, c.advance 1)
  | .error e => (.error e, c)

def take (c : Cursor) (n : Nat) : Except DecodeError (List UInt8) × Cursor :=
  if n ≤ c.remaining.length then (.ok (c.remaining.take n), c.advance n)
  else (.error .endOfStream, c)

/-- Reads an opcode and leaves its operands. The record of a success has the offset of the
opcode. At the end of the stream there is nothing to decode, and no record. -/
def nextOpcode (c : Cursor) : Traced (Except DecodeError Descriptor × Cursor) :=
  match c.peek with
  | .error e => ⟨(.error e, c), []⟩
  | .ok b =>
    match Descriptor.resolve b c.bytes[c.pc + 1]? with
    | ⟨.error e, trace⟩ => ⟨(.error e, c), trace⟩
    | ⟨.ok d, trace⟩ =>
      ⟨(.ok d, c.advance d.encodedLength), trace ++ [.decoded d.opcode c.pc]⟩

/-- Reads a little-endian number of the width that belongs to a kind of operand. A kind without a
width is refused before the stream is looked at. -/
def immediate (c : Cursor) (kind : OperandKind) : Except DecodeError Nat × Cursor :=
  match kind.immediateWidth? with
  | none => (.error (.notAnImmediate kind), c)
  | some width =>
    -- what `take` has done to the cursor stands, also if it has failed
    match c.take width with
    | (.ok bs, c') => (.ok (LittleEndian.value bs), c')
    | (.error e, c') => (.error e, c')

/-- Reads an ASCII string and the zero byte that ends it. Whether there is such a byte is settled
before the bytes of the string are looked at. -/
def string (c : Cursor) : Except DecodeError String × Cursor :=
  if 0 ∈ c.remaining then
    let bs := c.remaining.takeWhile (· != 0)
    match Ascii.decode? bs with
    | some text => (.ok text, c.advance (bs.length + 1))
    | none => (.error .invalidString, c)
  else (.error .endOfStream, c)

/-- The printed form of a cursor, with the whole stream. -/
def text (c : Cursor) : String :=
  "OpcodeStream \x7b stream: " ++ Text.listing (c.bytes.map fun b => Text.decimal b.toNat) ++
    ", pc: " ++ Text.decimal c.pc ++ " \x7d"

end Cursor

end AmlBytecode
