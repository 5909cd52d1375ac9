import AmlBytecode.Cursor.Basic

/-! # Reads keep the stream and move forward, or fail and stay

When each read succeeds, with what result, and how far it moves: by one byte, by the length of the
opcode, by the width of the number, or by the length of the string and its terminator. In short, a
read that succeeds leaves a cursor further on in the same stream (`Follows`). A read that fails
leaves the cursor that it was given (`FailsInPlace`): what it has to ask of the stream it asks
before it moves. -/

namespace AmlBytecode.Cursor

variable {c c' c'' : Cursor}

/-- `c'` is further on than `c` in the same stream. -/
def Follows (c' c : Cursor) : Prop := c'.bytes = c.bytes ∧ c.pc < c'.pc

theorem Follows.trans (h : c''.Follows c') (h' : c'.Follows c) : c''.Follows c :=
  ⟨h.1.trans h'.1, Nat.lt_trans h'.2 h.2⟩

theorem follows_advance {n : Nat} (h : 0 < n) : (c.advance n).Follows c :=
  ⟨rfl, Nat.lt_add_of_pos_right h⟩

theorem length_remaining (c : Cursor) : c.remaining.length = c.bytes.length - c.pc := by
  simp [remaining]

theorem isEmpty_iff : c.isEmpty = true ↔ c.bytes.length ≤ c.pc := by simp [isEmpty]

theorem peek_eq_ok_iff {b : UInt8} : c.peek = .ok b ↔ c.bytes[c.pc]? = some b := by
  unfold peek
  split <;> simp_all

/-! ## Reads that succeed -/

theorem next_eq_ok_iff {b : UInt8} :
    c.next = (.ok b, c') ↔ c.bytes[c.pc]? = some b ∧ c' = c.advance 1 := by
  rw [← peek_eq_ok_iff]
  unfold next
  cases c.peek <;> simp [eq_comm]

theorem take_eq_ok_iff {n : Nat} {bs : List UInt8} :
    c.take n = (.ok bs, c') ↔
      n ≤ c.remaining.length ∧ bs = c.remaining.take n ∧ c' = c.advance n := by
  by_cases h : n ≤ c.remaining.length <;> simp [take, h, eq_comm]

theorem immediate_eq_ok_iff {kind : OperandKind} {v : Nat} :
    c.immediate kind = (.ok v, c') ↔
      ∃ width, kind.immediateWidth? = some width ∧ width ≤ c.remaining.length ∧
        v = LittleEndian.value (c.remaining.take width) ∧ c' = c.advance width := by
  unfold immediate
  cases kind.immediateWidth? with
  | none => simp
  | some width => by_cases h : width ≤ c.remaining.length <;> simp [take, h, eq_comm]

theorem string_eq_ok_iff {text : String} :
    c.string = (.ok text, c') ↔
      0 ∈ c.remaining ∧ Ascii.decode? (c.remaining.takeWhile (· != 0)) = some text ∧
        c' = c.advance ((c.remaining.takeWhile (· != 0)).length + 1) := by
  unfold string
  by_cases h : 0 ∈ c.remaining
  · cases ht : Ascii.decode? (c.remaining.takeWhile (· != 0)) <;> simp [h, ht, eq_comm]
  · simp [h]

/-- A decoded opcode is passed over at its length. -/
theorem eq_advance_of_nextOpcode {d : Descriptor} (h : c.nextOpcode.value = (.ok d, c')) :
    c' = c.advance d.encodedLength := by
  unfold nextOpcode at h
  split at h
  · cases h
  · split at h
    · cases h
    · cases h
      rfl

theorem follows_of_next {b : UInt8} (h : c.next = (.ok b, c')) : c'.Follows c :=
  (next_eq_ok_iff.mp h).2 ▸ follows_advance Nat.one_pos

theorem follows_of_nextOpcode {d : Descriptor} (h : c.nextOpcode.value = (.ok d, c')) :
    c'.Follows c :=
  eq_advance_of_nextOpcode h ▸ follows_advance (Encoding.length_pos _)

theorem follows_of_immediate {kind : OperandKind} {v : Nat}
    (h : c.immediate kind = (.ok v, c')) : c'.Follows c := by
  obtain ⟨width, hwidth, _, _, rfl⟩ := immediate_eq_ok_iff.mp h
  exact follows_advance (OperandKind.immediateWidth?_pos hwidth)

theorem follows_of_string {text : String} (h : c.string = (.ok text, c')) : c'.Follows c :=
  (string_eq_ok_iff.mp h).2.2 ▸ follows_advance (Nat.succ_pos _)

/-! ## Reads that fail -/

/-- The read `r` leaves the cursor at `c` if it fails. -/
def FailsInPlace {α : Type} (c : Cursor) (r : Except DecodeError α × Cursor) : Prop :=
  ∀ e c', r = (.error e, c') → c' = c

theorem FailsInPlace.eq_of_error {α : Type} {r : Except DecodeError α × Cursor} {e : DecodeError}
    (H : c.FailsInPlace r) (h : r.1 = .error e) : r = (.error e, c) :=
  Prod.ext h (H e r.2 (Prod.ext h rfl))

theorem next_failsInPlace (c : Cursor) : c.FailsInPlace c.next := by
  intro e c' h
  unfold next at h
  split at h
  · cases h
  · cases h
    rfl

theorem take_failsInPlace (c : Cursor) (n : Nat) : c.FailsInPlace (c.take n) := by
  intro e c' h
  unfold take at h
  split at h
  · cases h
  · cases h
    rfl

theorem nextOpcode_failsInPlace (c : Cursor) : c.FailsInPlace c.nextOpcode.value := by
  intro e c' h
  unfold nextOpcode at h
  split at h
  · cases h
    rfl
  · -- one byte has been looked at, or two, when `resolve` fails
    split at h
    · cases h
      rfl
    · cases h

theorem immediate_failsInPlace (c : Cursor) (kind : OperandKind) :
    c.FailsInPlace (c.immediate kind) := by
  intro e c' h
  unfold immediate at h
  split at h
  · cases h
    rfl
  · -- there is a width, so it is `take` that has failed
    split at h
    case h_1 => cases h
    case h_2 htake =>
      cases h
      exact c.take_failsInPlace _ e c' htake

theorem string_failsInPlace (c : Cursor) : c.FailsInPlace c.string := by
  intro e c' h
  unfold string at h
  split at h
  · -- the terminator has been found when the text before it is refused
    dsimp only at h
    split at h
    · cases h
    · cases h
      rfl
  · cases h
    rfl

end AmlBytecode.Cursor
