import AmlBytecode.Cursor.Basic

/-! # Sessions

A session is a cursor with one remembered cursor beside it. `Session.run` takes steps in order and
answers each; a step that fails does not end the run. -/

namespace AmlBytecode

/-- What can be asked of a session. -/
inductive Step
  | pc
  | remaining
  | isEmpty
  | peek
  | next
  | nextOpcode
  | immediate (kind : OperandKind)
  | string
  /-- Remembers the cursor. -/
  | save
  /-- Goes back to the remembered cursor, which stays remembered. -/
  | restore
  | sameAsSaved
  /-- Asks for the printed form of the cursor. -/
  | text
deriving DecidableEq

/-- What a step that succeeds answers. -/
inductive Value
  | offset (pc : Nat)
  | bytes (bs : List UInt8)
  | truth (b : Bool)
  | byte (b : UInt8)
  | descriptor (d : Descriptor)
  | number (n : Nat)
  | text (s : String)
  | done
deriving DecidableEq

/-- The answer to a step: its outcome, the offset of the cursor afterwards, and the records that
the step left. -/
structure Answer where
  outcome : Except DecodeError Value
  pc : Nat
  trace : List Record

/-- A cursor and a remembered cursor. -/
structure Session where
  cursor : Cursor
  saved : Cursor
deriving DecidableEq

namespace Session

/-- A session at the start of a stream, which it also remembers. -/
def start (bytes : List UInt8) : Session := ⟨.start bytes, .start bytes⟩

/-- Answers with a value and changes nothing. -/
def observe (s : Session) (v : Value) : Answer × Session := (⟨.ok v, s.cursor.pc, []⟩, s)

/-- Answers with the result of a read, and takes over the cursor that the read has left. -/
def consume {α : Type} (s : Session) (toValue : α → Value) (trace : List Record)
    (r : Except DecodeError α × Cursor) : Answer × Session :=
  (⟨r.1.map toValue, r.2.pc, trace⟩, { s with cursor := r.2 })

def step (s : Session) : Step → Answer × Session
  | .pc => s.observe (.offset s.cursor.pc)
  | .remaining => s.observe (.bytes s.cursor.remaining)
  | .isEmpty => s.observe (.truth s.cursor.isEmpty)
  | .peek => (⟨s.cursor.peek.map .byte, s.cursor.pc, []⟩, s)
  | .next => s.consume .byte [] s.cursor.next
  | .nextOpcode => s.consume .descriptor s.cursor.nextOpcode.trace s.cursor.nextOpcode.value
  | .immediate kind => s.consume .number [] (s.cursor.immediate kind)
  | .string => s.consume .text [] s.cursor.string
  | .save => (⟨.ok .done, s.cursor.pc, []⟩, { s with saved := s.cursor })
  | .restore => (⟨.ok .done, s.saved.pc, []⟩, { s with cursor := s.saved })
  | .sameAsSaved => s.observe (.truth (s.cursor = s.saved))
  | .text => s.observe (.text s.cursor.text)

def run (s : Session) : List Step → List Answer × Session
  | [] => ([], s)
  | step :: steps =>
    let first := s.step step
    let rest := first.2.run steps
    (first.1 :: rest.1, rest.2)

end Session

end AmlBytecode
