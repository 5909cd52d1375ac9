import AmlBytecode.Proofs.CheckedReads
import AmlBytecode.Proofs.Refusals
import AmlBytecode.Proofs.SweepTiling

/-! # Streams inside longer streams

`Cursor.embed` puts bytes before a stream and behind it and leaves the cursor at its place. What a
read finds there is what it found before: the bytes before the stream have no say at all, and those
behind it only where the stream ended too soon (`Settled`). Main statements: `Cursor.read_embed`, for
every read that finds items, and `Cursor.nextOpcode_embed`, which adds the records, with their offsets
counted from the start of the longer stream. -/

namespace AmlBytecode

/-- Bytes that come behind make no difference where only these errors can be met: there are no such
bytes, or none of the errors is a truncation. -/
def Settled (after : List UInt8) (errors : DecodeError → Prop) : Prop :=
  after = [] ∨ ∀ e, errors e → e.isTruncation = false

theorem Settled.mono {after : List UInt8} {errors errors' : DecodeError → Prop}
    (h : Settled after errors) (himp : ∀ e, errors' e → errors e) : Settled after errors' :=
  h.imp_right fun h e he => h e (himp e he)

theorem Settled.refusal {after rest : List UInt8} {st : Step} {e : DecodeError}
    (h : Settled after (Refusal st rest)) (H : Refusal st rest e) : Refusal st (rest ++ after) e := by
  rcases h with rfl | h
  · rwa [List.append_nil]
  · exact H.append (h e H) after

namespace Cursor

variable {c c' : Cursor} {stream before after : List UInt8}

/-- The same place in the stream when there are bytes before the stream and behind it. -/
def embed (before after : List UInt8) (c : Cursor) : Cursor :=
  ⟨before ++ c.bytes ++ after, c.pc + before.length⟩

theorem advance_embed (n : Nat) :
    (c.embed before after).advance n = (c.advance n).embed before after := by
  simp only [advance, embed, Nat.add_right_comm]

theorem embed_inj : c.embed before after = c'.embed before after ↔ c = c' := by
  refine ⟨fun h => ?_, congrArg _⟩
  obtain ⟨hbytes, hpc⟩ := Cursor.mk.inj h
  cases c
  cases c'
  cases List.append_cancel_left (List.append_cancel_right hbytes)
  cases Nat.add_right_cancel hpc
  rfl

theorem remaining_embed (H : c.Within stream) :
    (c.embed before after).remaining = c.remaining ++ after := by
  have hle : c.pc + before.length ≤ (before ++ c.bytes).length := by
    rw [List.length_append, H.bytes_eq, Nat.add_comm]
    exact Nat.add_le_add_left H.pc_le _
  rw [remaining, embed, List.drop_append_of_le_length hle, Nat.add_comm, ← List.drop_drop,
    List.drop_left, remaining]

theorem isEmpty_embed (H : c.Within stream) (h : c.isEmpty = false) :
    (c.embed before after).isEmpty = false := by
  rw [isEmpty_eq_false_iff] at h ⊢
  rw [remaining_embed H]
  exact List.append_ne_nil_of_left_ne_nil h after

theorem remaining_embed_nil (H : c.Within stream) : (c.embed before []).remaining = c.remaining := by
  rw [remaining_embed H, List.append_nil]

theorem isEmpty_embed_nil (H : c.Within stream) : (c.embed before []).isEmpty = c.isEmpty := by
  rw [Bool.eq_iff_iff, isEmpty_iff_remaining, isEmpty_iff_remaining, remaining_embed_nil H]

/-! ## Reads -/

theorem Reads.embed {i : Item} (h : c.Reads i c') (H : c.Within stream) :
    (c.embed before after).Reads i (c'.embed before after) := by
  obtain ⟨hwf, hwritten, rfl⟩ := reads_iff.mp h
  refine reads_iff.mpr ⟨hwf, ?_, (advance_embed _).symm⟩
  rw [remaining_embed H]
  exact hwritten.trans (List.prefix_append _ _)

/-- A read that finds items, and that fails for the reasons of a step and then stays in place, finds
the same inside a longer stream. -/
theorem read_embed {α : Type} {read : Cursor → Except DecodeError α × Cursor} (item : α → Item)
    {st : Step} (hok : ∀ c a c', read c = (.ok a, c') ↔ c.Reads (item a) c')
    (herror : ∀ c e, (read c).1 = .error e ↔ Refusal st c.remaining e)
    (hfails : ∀ c : Cursor, c.FailsInPlace (read c)) (H : c.Within stream)
    (h : Settled after (Refusal st c.remaining)) :
    read (c.embed before after) = Prod.map id (embed before after) (read c) := by
  rcases hread : read c with ⟨e | a, c'⟩
  · obtain rfl : c' = c := hfails c e c' hread
    have hrefusal : Refusal st c'.remaining e := (herror c' e).mp (congrArg Prod.fst hread)
    refine (hfails _).eq_of_error ((herror _ e).mpr ?_)
    rw [remaining_embed H]
    exact h.refusal hrefusal
  · exact (hok _ a _).mpr (((hok c a c').mp hread).embed H)

section

variable (H : c.Within stream)
include H

theorem peek_embed (h : Settled after (Refusal .peek c.remaining)) :
    (c.embed before after).peek = c.peek := by
  -- a peek finds no item and leaves the cursor where it is, so this is no case of `read_embed`
  have hrest' : (c.embed before after).remaining = c.remaining ++ after := remaining_embed H
  rcases hrest : c.remaining with _ | ⟨b, rest⟩
  · rw [hrest] at h hrest'
    rw [peek_of_nil hrest]
    exact peek_eq_error_iff.mpr (hrest' ▸ h.refusal .peek)
  · rw [hrest] at hrest'
    rw [peek_of_cons hrest, peek_of_cons hrest']

theorem next_embed (h : Settled after (Refusal .next c.remaining)) :
    (c.embed before after).next = Prod.map id (embed before after) c.next :=
  read_embed .byte (fun _ _ _ => Iff.rfl) (fun _ _ => next_eq_error_iff)
    next_failsInPlace H h

theorem immediate_embed {kind : OperandKind}
    (h : Settled after (Refusal (.immediate kind) c.remaining)) :
    (c.embed before after).immediate kind =
      Prod.map id (embed before after) (c.immediate kind) :=
  read_embed (.immediate kind) (fun _ _ _ => Iff.rfl) (fun _ _ => immediate_eq_error_iff)
    (immediate_failsInPlace · kind) H h

theorem string_embed (h : Settled after (Refusal .string c.remaining)) :
    (c.embed before after).string = Prod.map id (embed before after) c.string :=
  read_embed .string (fun _ _ _ => Iff.rfl) (fun _ _ => string_eq_error_iff)
    string_failsInPlace H h

end

/-! ## Records -/

/-- The records of decoding an opcode at offset `pc` with this result. -/
def opcodeRecords (pc : Nat) : Except DecodeError Descriptor → List Record
  | .ok d => [.decoded d.opcode pc]
  | .error .truncatedExtendedOpcode => [.truncatedExtendedOpcode]
  | .error (.illegalExtendedOpcode b) => [.illegalExtendedOpcode b]
  | .error (.illegalOpcode b) => [.illegalOpcode b]
  | .error .endOfStream | .error (.notAnImmediate _) | .error .invalidString => []

theorem trace_nextOpcode (c : Cursor) :
    c.nextOpcode.trace = opcodeRecords c.pc c.nextOpcode.value.1 := by
  have H := c.opcodeOutcome_nextOpcode
  generalize c.nextOpcode = r at H
  cases H <;> rfl

theorem opcodeRecords_add (n pc : Nat) (r : Except DecodeError Descriptor) :
    opcodeRecords (pc + n) r = (opcodeRecords pc r).map (Record.shift n) := by
  rcases r with e | d
  · cases e <;> rfl
  · rfl

theorem nextOpcode_embed (H : c.Within stream)
    (h : Settled after (Refusal .nextOpcode c.remaining)) :
    (c.embed before after).nextOpcode =
      ⟨Prod.map id (embed before after) c.nextOpcode.value,
        c.nextOpcode.trace.map (Record.shift before.length)⟩ := by
  have hvalue : (c.embed before after).nextOpcode.value =
      Prod.map id (embed before after) c.nextOpcode.value :=
    read_embed .opcode (fun _ _ _ => Iff.rfl) (fun _ _ => nextOpcode_eq_error_iff)
      nextOpcode_failsInPlace H h
  have htrace : (c.embed before after).nextOpcode.trace =
      c.nextOpcode.trace.map (Record.shift before.length) := by
    rw [trace_nextOpcode, trace_nextOpcode, hvalue]
    exact opcodeRecords_add before.length c.pc _
  rw [← hvalue, ← htrace]

end Cursor

end AmlBytecode
