import AmlBytecode.Sweep
import AmlBytecode.Proofs.ItemReading
import Mathlib.Data.List.Forall2

/-! # Sweeps tile their stream

A sweep divides its stream into segments and leaves one record for each. `Segment.At` says which
segment comes at an offset, of the bytes from there on and of the table alone, and a `Tiling` is a
division of a byte string into such segments, one behind the other. Main statements:
`Cursor.round_of_at`, a round leaves the record of the segment at its cursor and goes past the
segment; and `sweep_tiles`, the records of a sweep are those of the only tiling of its stream. -/

namespace AmlBytecode

/-! ## Operands -/

/-- `bs` is the written form of an operand of the given kind: ASCII bytes without a zero and then a
zero, or as many bytes as a number of the kind has. Operands of other kinds are left to a term
parser. -/
inductive OperandKind.Spelled : OperandKind → List UInt8 → Prop
  | string {chars : List UInt8} (h : ∀ b ∈ chars, b ≠ 0 ∧ b.toNat < 0x80) :
      Spelled .string (chars ++ [0])
  | immediate {kind : OperandKind} {bs : List UInt8}
      (h : kind.immediateWidth? = some bs.length) : Spelled kind bs

/-- `parts` are the operands of the longest initial part of `kinds` whose operands stand one behind
the other at the start of `rest`. -/
structure OperandRun (kinds : List OperandKind) (rest : List UInt8) (parts : List (List UInt8)) :
    Prop where
  spelled : List.Forall₂ OperandKind.Spelled (kinds.take parts.length) parts
  written : parts.flatten <+: rest
  /-- No operand of the next kind, if there is one, comes behind them. -/
  ended : ∀ kind, kinds[parts.length]? = some kind → ∀ bs, kind.Spelled bs →
    ¬ parts.flatten ++ bs <+: rest

namespace OperandRun

variable {kind : OperandKind} {kinds : List OperandKind} {rest bs : List UInt8}
variable {parts : List (List UInt8)}

theorem nil (rest : List UInt8) : OperandRun [] rest [] :=
  ⟨.nil, List.nil_prefix, fun _ h => nomatch h⟩

theorem eq_nil (H : OperandRun [] rest parts) : parts = [] := by
  have h := H.spelled
  rw [List.take_nil] at h
  cases h
  rfl

theorem stop_iff : OperandRun (kind :: kinds) rest [] ↔ ∀ bs, kind.Spelled bs → ¬ bs <+: rest := by
  refine ⟨fun H => H.ended kind rfl, fun h => ⟨.nil, List.nil_prefix, ?_⟩⟩
  rintro _ ⟨⟩
  exact h

theorem cons_iff :
    OperandRun (kind :: kinds) (bs ++ rest) (bs :: parts) ↔
      kind.Spelled bs ∧ OperandRun kinds rest parts := by
  have happend : ∀ tail, (bs :: parts).flatten ++ tail <+: bs ++ rest ↔
      parts.flatten ++ tail <+: rest := fun tail => by
    rw [List.flatten_cons, List.append_assoc, List.prefix_append_right_inj]
  constructor
  · intro H
    obtain ⟨hbs, hparts⟩ := List.forall₂_cons.mp H.spelled
    refine ⟨hbs, hparts, ?_, ?_⟩
    · simpa using (happend []).mp (by simpa using H.written)
    · intro kind' hkind' bs' hbs' h
      exact H.ended kind' hkind' bs' hbs' ((happend bs').mpr h)
  · rintro ⟨hbs, H⟩
    refine ⟨.cons hbs H.spelled, ?_, ?_⟩
    · simpa using (happend []).mpr (by simpa using H.written)
    · intro kind' hkind' bs' hbs' h
      exact H.ended kind' hkind' bs' hbs' ((happend bs').mp h)

end OperandRun

theorem exists_operandRun (kinds : List OperandKind) (rest : List UInt8) :
    ∃ parts, OperandRun kinds rest parts := by
  induction kinds generalizing rest with
  | nil => exact ⟨[], .nil rest⟩
  | cons kind kinds ih =>
    by_cases h : ∃ bs, kind.Spelled bs ∧ bs <+: rest
    · obtain ⟨bs, hbs, rest', rfl⟩ := h
      obtain ⟨parts, H⟩ := ih rest'
      exact ⟨bs :: parts, OperandRun.cons_iff.mpr ⟨hbs, H⟩⟩
    · exact ⟨[], OperandRun.stop_iff.mpr fun bs hbs hprefix => h ⟨bs, hbs, hprefix⟩⟩

namespace Cursor

variable {c c' : Cursor}

theorem string_spelled_iff :
    (∃ text, c.string = (.ok text, c')) ↔
      ∃ bs, OperandKind.string.Spelled bs ∧ bs <+: c.remaining ∧ c' = c.advance bs.length := by
  simp only [string_eq_ok_iff]
  constructor
  · rintro ⟨text, hzero, htext, rfl⟩
    have hascii := Ascii.exists_decode?_eq_some_iff.mp ⟨text, htext⟩
    refine ⟨_, .string fun b hb => ⟨?_, hascii b hb⟩, takeWhile_ne_zero_prefix hzero, ?_⟩
    · simpa using List.all_eq_true.mp List.all_takeWhile b hb
    · rw [List.length_append, List.length_singleton]
  · rintro ⟨_, h | h, ⟨rest, hrest⟩, rfl⟩
    case string chars =>
      rw [List.append_assoc, List.singleton_append] at hrest
      obtain ⟨text, htext⟩ := Ascii.exists_decode?_eq_some_iff.mpr fun b hb => (h b hb).2
      rw [← hrest, takeWhile_ne_append fun b hb => (h b hb).1]
      exact ⟨text, by simp, htext, by simp⟩
    case immediate => cases h

theorem immediate_spelled_iff {kind : OperandKind} (hkind : kind ≠ .string) :
    (∃ n, c.immediate kind = (.ok n, c')) ↔
      ∃ bs, kind.Spelled bs ∧ bs <+: c.remaining ∧ c' = c.advance bs.length := by
  simp only [immediate_eq_ok_iff]
  constructor
  · rintro ⟨_, width, hwidth, hle, rfl, rfl⟩
    have hlength : (c.remaining.take width).length = width := List.length_take_of_le hle
    exact ⟨_, .immediate (hlength ▸ hwidth), List.take_prefix _ _, by rw [hlength]⟩
  · rintro ⟨bs, h | h, hprefix, rfl⟩
    case string => exact absurd rfl hkind
    case immediate => exact ⟨_, _, h, hprefix.length_le, rfl, rfl⟩

/-- An operand can be read exactly where it is written, and is read past as far as it is written. -/
theorem operand_eq_ok_iff {kind : OperandKind} :
    c.operand kind = (.ok (), c') ↔
      ∃ bs, kind.Spelled bs ∧ bs <+: c.remaining ∧ c' = c.advance bs.length := by
  unfold operand
  split
  case isTrue h => rw [withoutValue_eq_ok_iff, h, string_spelled_iff]
  case isFalse h => rw [withoutValue_eq_ok_iff, immediate_spelled_iff h]

/-- The operands of a run are read past. -/
theorem operands_of_operandRun {kinds : List OperandKind} {parts : List (List UInt8)}
    (H : OperandRun kinds c.remaining parts) :
    c.operands kinds = c.advance parts.flatten.length := by
  induction kinds generalizing c parts with
  | nil =>
    rw [H.eq_nil]
    rfl
  | cons kind kinds ih =>
    rcases parts with _ | ⟨bs, parts⟩
    · have hstop := OperandRun.stop_iff.mp H
      rcases hop : c.operand kind with ⟨e | _, c'⟩
      · rw [operands, hop]
        exact c.operand_failsInPlace kind e c' hop
      · obtain ⟨bs, hbs, hprefix, -⟩ := operand_eq_ok_iff.mp hop
        exact absurd hprefix (hstop bs hbs)
    · obtain ⟨rest, hrest⟩ := (List.prefix_append _ _).trans H.written
      rw [← hrest] at H
      obtain ⟨hbs, H'⟩ := OperandRun.cons_iff.mp H
      have hop : c.operand kind = (.ok (), c.advance bs.length) :=
        operand_eq_ok_iff.mpr ⟨bs, hbs, ⟨rest, hrest⟩, rfl⟩
      have hrest' : (c.advance bs.length).remaining = rest := by
        rw [remaining_advance, ← hrest, List.drop_left]
      rw [operands, hop]
      change (c.advance bs.length).operands kinds = _
      rw [ih (hrest' ▸ H'), advance_advance, List.flatten_cons, List.length_append]

end Cursor

/-! ## Segments -/

/-- The error that a record of a failure reports. -/
def Record.error? : Record → Option DecodeError
  | .truncatedExtendedOpcode => some .truncatedExtendedOpcode
  | .illegalExtendedOpcode b => some (.illegalExtendedOpcode b)
  | .illegalOpcode b => some (.illegalOpcode b)
  | .decoded _ _ => none

/-- A stretch of a stream and the record that is left for it. -/
structure Segment where
  record : Record
  bytes : List UInt8

namespace Segment

open Descriptor

/-- The segment at offset `pc`, where `bs` are the bytes from there on: an entry of the table with
those of its operands that can be read, or one byte where no entry of the table starts. -/
inductive At (pc : Nat) (bs : List UInt8) : Segment → Prop
  | decoded {d : Descriptor} {rest : List UInt8} {parts : List (List UInt8)} (hd : d ∈ table)
      (h : bs = d.opcode.encoding.bytes ++ rest)
      (hrun : OperandRun d.signature.toList rest parts) :
      At pc bs ⟨.decoded d.opcode pc, d.opcode.encoding.bytes ++ parts.flatten⟩
  | truncated (h : bs = [Encoding.extendedPrefix]) :
      At pc bs ⟨.truncatedExtendedOpcode, [Encoding.extendedPrefix]⟩
  | illegalExtended {b : UInt8} {rest : List UInt8}
      (h : bs = Encoding.extendedPrefix :: b :: rest)
      (hb : ∀ d ∈ table, d.opcode.encoding ≠ .extended b) :
      At pc bs ⟨.illegalExtendedOpcode b, [Encoding.extendedPrefix]⟩
  | illegal {b : UInt8} {rest : List UInt8} (h : bs = b :: rest)
      (hne : b ≠ Encoding.extendedPrefix) (hb : ∀ d ∈ table, d.opcode.encoding ≠ .primary b) :
      At pc bs ⟨.illegalOpcode b, [b]⟩

variable {g g' : Segment} {pc : Nat} {bs : List UInt8}

theorem At.bytes_prefix (H : g.At pc bs) : g.bytes <+: bs := by
  cases H with
  | decoded hd h hrun => exact h ▸ (List.prefix_append_right_inj _).mpr hrun.written
  | truncated h => exact ⟨[], h.symm⟩
  | illegalExtended h | illegal h => exact ⟨_, h.symm⟩

theorem At.length_pos (H : g.At pc bs) : 0 < g.bytes.length := by
  cases H with
  | decoded =>
    rw [List.length_append, Encoding.length_bytes]
    exact Nat.add_pos_left (Encoding.length_pos _) _
  | truncated | illegalExtended | illegal => exact Nat.one_pos

theorem At.ne_nil (H : g.At pc bs) : bs ≠ [] := by
  have hpos := Nat.lt_of_lt_of_le H.length_pos H.bytes_prefix.length_le
  exact List.ne_nil_of_length_pos hpos

/-- Wherever there is a byte there is a segment. -/
theorem exists_at (pc : Nat) (h : bs ≠ []) : ∃ g : Segment, g.At pc bs := by
  obtain ⟨r, H⟩ := (Cursor.start bs).exists_opcodeOutcome
  cases H with
  | atEnd hrest => exact absurd hrest h
  | truncated hrest => exact ⟨_, .truncated hrest⟩
  | illegalExtended hrest hb => exact ⟨_, .illegalExtended hrest hb⟩
  | illegal hrest hne hb => exact ⟨_, .illegal hrest hne hb⟩
  | @decoded d rest hd hrest =>
    obtain ⟨parts, hrun⟩ := exists_operandRun d.signature.toList rest
    exact ⟨_, .decoded hd hrest hrun⟩

/-- The segment of an error is one byte, at which decoding an opcode fails with this error. -/
theorem At.error {c : Cursor} {e : DecodeError} (H : g.At c.pc c.remaining)
    (he : g.record.error? = some e) :
    g.bytes.length = 1 ∧ c.nextOpcode = ⟨(.error e, c), [g.record]⟩ := by
  cases H with
  | decoded => cases he
  | truncated h =>
    cases he
    exact ⟨rfl, (Cursor.OpcodeOutcome.truncated h).eq⟩
  | illegalExtended h hb =>
    cases he
    exact ⟨rfl, (Cursor.OpcodeOutcome.illegalExtended h hb).eq⟩
  | illegal h hne hb =>
    cases he
    exact ⟨rfl, (Cursor.OpcodeOutcome.illegal h hne hb).eq⟩

/-- The segment of an opcode starts where its record says, with the opcode. -/
theorem At.decoded_iff {op : Opcode} {p : Nat} (H : g.At pc bs) (h : g.record = .decoded op p) :
    p = pc ∧ op.encoding.bytes <+: g.bytes := by
  cases H with
  | decoded =>
    cases h
    exact ⟨rfl, List.prefix_append _ _⟩
  | truncated | illegalExtended | illegal => cases h

end Segment

namespace Cursor

variable {c : Cursor} {g : Segment}

theorem skip_of_remaining (h : c.remaining ≠ []) : c.skip = c.advance 1 := by
  obtain ⟨b, rest, hrest⟩ := List.exists_cons_of_ne_nil h
  rw [skip, next_of_cons hrest]

/-- One round leaves the record of the segment at the cursor, and goes past this segment. -/
theorem round_of_at (H : g.At c.pc c.remaining) :
    c.round = ⟨c.advance g.bytes.length, [g.record]⟩ := by
  rcases he : g.record.error? with _ | e
  · cases H with
    | @decoded d rest parts hd h hrun =>
      have hrest : (c.advance d.encodedLength).remaining = rest := by
        rw [remaining_advance, h, Descriptor.encodedLength, ← Encoding.length_bytes, List.drop_left]
      rw [round, nextOpcode_of_bytes hd h]
      change Traced.mk ((c.advance d.encodedLength).operands _) _ = _
      rw [operands_of_operandRun (hrest.symm ▸ hrun), advance_advance, List.length_append,
        Encoding.length_bytes]
      rfl
    | truncated | illegalExtended | illegal => cases he
  · obtain ⟨hone, hop⟩ := H.error he
    rw [round, hop, hone]
    exact congrArg (Traced.mk · _) (skip_of_remaining H.ne_nil)

end Cursor

/-- Where there is a segment there is only one: it is what a round goes past. -/
theorem Segment.At.unique {g g' : Segment} {pc : Nat} {bs : List UInt8} (H : g.At pc bs)
    (H' : g'.At pc bs) : g = g' := by
  let c : Cursor := ⟨List.replicate pc 0 ++ bs, pc⟩
  have hc : c.remaining = bs := by simp [c, Cursor.remaining]
  have hround : c.round = _ := Cursor.round_of_at (hc.symm ▸ H)
  have hround' : c.round = _ := Cursor.round_of_at (hc.symm ▸ H')
  obtain ⟨hadvance, hrecord⟩ := Traced.mk.inj (hround.symm.trans hround')
  have hlength : g.bytes.length = g'.bytes.length :=
    Nat.add_left_cancel (congrArg Cursor.pc hadvance)
  have hbytes : g.bytes = g'.bytes := by
    rw [List.prefix_iff_eq_take.mp H.bytes_prefix, List.prefix_iff_eq_take.mp H'.bytes_prefix,
      hlength]
  cases g
  cases g'
  cases hbytes
  cases List.singleton_inj.mp hrecord
  rfl

/-! ## Tilings -/

/-- The byte string `bs`, which stands at offset `pc`, divides into these segments. -/
inductive Tiling : (pc : Nat) → (bs : List UInt8) → List Segment → Prop
  | nil {pc : Nat} : Tiling pc [] []
  | cons {pc : Nat} {bs rest : List UInt8} {g : Segment} {gs : List Segment} (h : g.At pc bs)
      (hbs : bs = g.bytes ++ rest) (tail : Tiling (pc + g.bytes.length) rest gs) :
      Tiling pc bs (g :: gs)

namespace Tiling

variable {pc : Nat} {bs : List UInt8} {g : Segment} {gs gs' : List Segment}

theorem unique (H : Tiling pc bs gs) (H' : Tiling pc bs gs') : gs = gs' := by
  induction H generalizing gs' with
  | nil =>
    cases H' with
    | nil => rfl
    | cons h => exact absurd rfl h.ne_nil
  | cons h hbs tail ih =>
    cases H' with
    | nil => exact absurd rfl h.ne_nil
    | cons h' hbs' tail' =>
      cases h.unique h'
      cases List.append_cancel_left (hbs.symm.trans hbs')
      rw [ih tail']

theorem flatMap_bytes (H : Tiling pc bs gs) : gs.flatMap (·.bytes) = bs := by
  induction H with
  | nil => rfl
  | cons _ hbs _ ih => rw [List.flatMap_cons, ih, hbs]

/-- Behind some segments comes the next one. -/
theorem at_of_append (H : Tiling pc bs (gs ++ g :: gs')) :
    g.At (pc + (gs.flatMap (·.bytes)).length) (bs.drop (gs.flatMap (·.bytes)).length) := by
  induction gs generalizing pc bs with
  | nil =>
    cases H with
    | cons h => exact h
  | cons g₀ gs ih =>
    cases H with
    | cons _ hbs tail =>
      rw [List.flatMap_cons, List.length_append, ← Nat.add_assoc, ← List.drop_drop, hbs,
        List.drop_left]
      exact ih tail

end Tiling

/-! ## Moving a tiling -/

/-- The record of the same bytes `n` bytes further on. -/
def Record.shift (n : Nat) : Record → Record
  | .decoded op pc => .decoded op (pc + n)
  | r => r

/-- The segment of the same bytes `n` bytes further on. -/
def Segment.shift (n : Nat) (g : Segment) : Segment := { g with record := g.record.shift n }

theorem Segment.At.shift {g : Segment} {pc : Nat} {bs : List UInt8} (H : g.At pc bs) (n : Nat) :
    (g.shift n).At (pc + n) bs := by
  cases H with
  | decoded hd h hrun => exact .decoded hd h hrun
  | truncated h => exact .truncated h
  | illegalExtended h hb => exact .illegalExtended h hb
  | illegal h hne hb => exact .illegal h hne hb

/-- Only the bytes from the offset on have a say in a tiling. -/
theorem Tiling.shift {pc : Nat} {bs : List UInt8} {gs : List Segment} (H : Tiling pc bs gs)
    (n : Nat) : Tiling (pc + n) bs (gs.map (Segment.shift n)) := by
  induction H with
  | nil => exact .nil
  | cons h hbs tail ih => exact .cons (h.shift n) hbs (by rwa [Nat.add_right_comm] at ih)

/-- Every byte string has a tiling. -/
theorem exists_tiling (pc : Nat) (bs : List UInt8) : ∃ gs, Tiling pc bs gs := by
  by_cases h : bs = []
  · exact ⟨[], h ▸ .nil⟩
  · obtain ⟨g, hg⟩ := Segment.exists_at pc h
    obtain ⟨rest, hrest⟩ := hg.bytes_prefix
    have hlt : rest.length < bs.length := by
      rw [← hrest, List.length_append]
      exact Nat.lt_add_of_pos_left hg.length_pos
    obtain ⟨gs, H⟩ := exists_tiling (pc + g.bytes.length) rest
    exact ⟨g :: gs, .cons hg hrest.symm H⟩
termination_by bs.length

/-- The rounds from a cursor leave the records of the segments that tile what remains. -/
theorem Tiling.trace_rounds {pc : Nat} {bs : List UInt8} {gs : List Segment}
    (H : Tiling pc bs gs) {c : Cursor} (hpc : c.pc = pc) (hrest : c.remaining = bs) :
    c.rounds.map (·.trace) = gs.map fun g => [g.record] := by
  induction H generalizing c with
  | nil =>
    rw [Cursor.rounds_of_isEmpty (Cursor.isEmpty_iff_remaining.mpr hrest)]
    rfl
  | @cons pc bs rest g gs h hbs tail ih =>
    subst hpc hrest
    have hround := Cursor.round_of_at h
    have hnext : (c.advance g.bytes.length).remaining = rest := by
      rw [Cursor.remaining_advance, hbs, List.drop_left]
    have hempty : c.isEmpty = false := Cursor.isEmpty_eq_false_iff.mpr h.ne_nil
    rw [Cursor.rounds_of_not_isEmpty hempty, List.map_cons, List.map_cons, hround, ih rfl hnext]

theorem Tiling.sweep_eq {stream : List UInt8} {gs : List Segment} (H : Tiling 0 stream gs) :
    sweep stream = gs.map (·.record) := by
  have htrace := H.trace_rounds (c := .start stream) rfl rfl
  rw [sweep, List.flatMap_def, htrace, ← List.flatMap_def, ← List.map_eq_flatMap]

/-- A sweep leaves one record for each segment of its stream, in order, and no others. The stream
divides into these segments in only one way: an opcode of the table with the operands that can be
read behind it, at the offset of its record, or one byte at which decoding an opcode fails with the
error of the record. -/
theorem sweep_tiles (stream : List UInt8) :
    ∃ segments, Tiling 0 stream segments ∧
      (∀ segments', Tiling 0 stream segments' → segments' = segments) ∧
      sweep stream = segments.map (·.record) ∧
      segments.flatMap (·.bytes) = stream ∧
      ∀ before g after, segments = before ++ g :: after →
        let c : Cursor := ⟨stream, (before.flatMap (·.bytes)).length⟩
        g.At c.pc c.remaining ∧ g.bytes <+: c.remaining ∧
        (∀ op pc, g.record = .decoded op pc → pc = c.pc ∧ op.encoding.bytes <+: g.bytes) ∧
        ∀ e, g.record.error? = some e →
          g.bytes.length = 1 ∧ c.nextOpcode = ⟨(.error e, c), [g.record]⟩ := by
  obtain ⟨segments, H⟩ := exists_tiling 0 stream
  refine ⟨segments, H, fun _ H' => H'.unique H, H.sweep_eq, H.flatMap_bytes, ?_⟩
  intro before g after hsegments c
  have hat : g.At c.pc c.remaining := by
    have h := (hsegments ▸ H).at_of_append
    rwa [Nat.zero_add] at h
  exact ⟨hat, hat.bytes_prefix, fun _ _ => hat.decoded_iff, fun _ => hat.error⟩

end AmlBytecode
