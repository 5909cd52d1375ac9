import AmlBytecode.Cursor.Lemmas
import AmlBytecode.Proofs.ByteMapInversion

/-! # The language of opcodes

What decoding an opcode comes to is settled by the bytes from the cursor on and by the written
forms of the entries of the table; the byte maps and the look ahead are details. `OpcodeOutcome`
lists the five outcomes with their records, and `nextOpcode_eq_iff` says that decoding has exactly
these. That decoding is a function is then what makes the written forms prefix free
(`Descriptor.eq_of_bytes_append`). -/

namespace AmlBytecode

namespace Cursor

variable {c : Cursor}

/-! ## The rest of the stream -/

theorem getElem?_remaining (c : Cursor) (n : Nat) : c.remaining[n]? = c.bytes[c.pc + n]? := by
  simp [remaining]

theorem remaining_advance (c : Cursor) (n : Nat) :
    (c.advance n).remaining = c.remaining.drop n := by
  simp [remaining, advance]

theorem advance_advance (c : Cursor) (m n : Nat) :
    (c.advance m).advance n = c.advance (m + n) := by
  simp [advance, Nat.add_assoc]

theorem isEmpty_iff_remaining : c.isEmpty = true ↔ c.remaining = [] := by
  rw [isEmpty_iff, remaining, List.drop_eq_nil_iff]

theorem isEmpty_eq_false_iff : c.isEmpty = false ↔ c.remaining ≠ [] := by
  rw [ne_eq, ← isEmpty_iff_remaining, Bool.not_eq_true]

theorem peek_of_nil (h : c.remaining = []) : c.peek = .error .endOfStream := by
  have hnone : c.bytes[c.pc]? = none := by
    simpa [h] using (c.getElem?_remaining 0).symm
  simp [peek, hnone]

theorem peek_of_cons {b : UInt8} {rest : List UInt8} (h : c.remaining = b :: rest) :
    c.peek = .ok b := by
  rw [peek_eq_ok_iff]
  simpa [h] using (c.getElem?_remaining 0).symm

theorem next_of_cons {b : UInt8} {rest : List UInt8} (h : c.remaining = b :: rest) :
    c.next = (.ok b, c.advance 1) := by
  rw [next, peek_of_cons h]

theorem getElem?_succ_of_cons {b : UInt8} {rest : List UInt8} (h : c.remaining = b :: rest) :
    c.bytes[c.pc + 1]? = rest.head? := by
  rw [← getElem?_remaining, h, List.getElem?_cons_succ, List.head?_eq_getElem?]

/-! ## Decoding through the byte at the cursor -/

theorem nextOpcode_of_nil (h : c.remaining = []) : c.nextOpcode = ⟨(.error .endOfStream, c), []⟩ := by
  simp [nextOpcode, peek_of_nil h]

theorem nextOpcode_of_resolve_error {b : UInt8} {rest : List UInt8} {e : DecodeError}
    {trace : List Record} (h : c.remaining = b :: rest)
    (hresolve : Descriptor.resolve b rest.head? = ⟨.error e, trace⟩) :
    c.nextOpcode = ⟨(.error e, c), trace⟩ := by
  simp [nextOpcode, peek_of_cons h, getElem?_succ_of_cons h, hresolve]

theorem nextOpcode_of_resolve_ok {b : UInt8} {rest : List UInt8} {d : Descriptor}
    {trace : List Record} (h : c.remaining = b :: rest)
    (hresolve : Descriptor.resolve b rest.head? = ⟨.ok d, trace⟩) :
    c.nextOpcode = ⟨(.ok d, c.advance d.encodedLength), trace ++ [.decoded d.opcode c.pc]⟩ := by
  simp [nextOpcode, peek_of_cons h, getElem?_succ_of_cons h, hresolve]

end Cursor

namespace Descriptor

variable {b : UInt8} {d : Descriptor}

theorem resolve_prefix_none :
    resolve Encoding.extendedPrefix none =
      ⟨.error .truncatedExtendedOpcode, [.truncatedExtendedOpcode]⟩ := by
  simp [resolve]

theorem resolve_prefix_illegal (h : ∀ d ∈ table, d.opcode.encoding ≠ .extended b) :
    resolve Encoding.extendedPrefix (some b) =
      ⟨.error (.illegalExtendedOpcode b), [.illegalExtendedOpcode b]⟩ := by
  simp [resolve, Encoding.descriptor?_eq_none_iff.mpr h]

theorem resolve_prefix_of_mem (hd : d ∈ table) (h : d.opcode.encoding = .extended b) :
    resolve Encoding.extendedPrefix (some b) = ⟨.ok d, []⟩ := by
  simp [resolve, Encoding.descriptor?_eq_some_iff.mpr ⟨hd, h⟩]

theorem resolve_illegal (hne : b ≠ Encoding.extendedPrefix)
    (h : ∀ d ∈ table, d.opcode.encoding ≠ .primary b) (next : Option UInt8) :
    resolve b next = ⟨.error (.illegalOpcode b), [.illegalOpcode b]⟩ := by
  simp [resolve, hne, Encoding.descriptor?_eq_none_iff.mpr h]

theorem resolve_of_mem (hd : d ∈ table) (h : d.opcode.encoding = .primary b)
    (next : Option UInt8) : resolve b next = ⟨.ok d, []⟩ := by
  have hne : b ≠ Encoding.extendedPrefix := fun hb => encoding_ne_prefix d hd (hb ▸ h)
  simp [resolve, hne, Encoding.descriptor?_eq_some_iff.mpr ⟨hd, h⟩]

end Descriptor

namespace Cursor

open Descriptor

variable {c c' : Cursor} {d : Descriptor}

/-! ## The outcomes of decoding -/

/-- What decoding an opcode at `c` comes to, said of the rest of the stream and of the table. -/
inductive OpcodeOutcome (c : Cursor) : Traced (Except DecodeError Descriptor × Cursor) → Prop
  /-- Nothing is left, and there is nothing to record. -/
  | atEnd (h : c.remaining = []) : OpcodeOutcome c ⟨(.error .endOfStream, c), []⟩
  /-- Only the prefix is left. -/
  | truncated (h : c.remaining = [Encoding.extendedPrefix]) :
      OpcodeOutcome c ⟨(.error .truncatedExtendedOpcode, c), [.truncatedExtendedOpcode]⟩
  | illegalExtended {b : UInt8} {rest : List UInt8}
      (h : c.remaining = Encoding.extendedPrefix :: b :: rest)
      (hb : ∀ d ∈ table, d.opcode.encoding ≠ .extended b) :
      OpcodeOutcome c ⟨(.error (.illegalExtendedOpcode b), c), [.illegalExtendedOpcode b]⟩
  | illegal {b : UInt8} {rest : List UInt8} (h : c.remaining = b :: rest)
      (hne : b ≠ Encoding.extendedPrefix) (hb : ∀ d ∈ table, d.opcode.encoding ≠ .primary b) :
      OpcodeOutcome c ⟨(.error (.illegalOpcode b), c), [.illegalOpcode b]⟩
  /-- The rest starts with an entry of the table, whatever comes after it. -/
  | decoded {d : Descriptor} {rest : List UInt8} (hd : d ∈ table)
      (h : c.remaining = d.opcode.encoding.bytes ++ rest) :
      OpcodeOutcome c ⟨(.ok d, c.advance d.encodedLength), [.decoded d.opcode c.pc]⟩

theorem nextOpcode_of_bytes {rest : List UInt8} (hd : d ∈ table)
    (h : c.remaining = d.opcode.encoding.bytes ++ rest) :
    c.nextOpcode = ⟨(.ok d, c.advance d.encodedLength), [.decoded d.opcode c.pc]⟩ := by
  rcases henc : d.opcode.encoding with ⟨_ | _, b⟩
  · rw [henc] at h
    exact nextOpcode_of_resolve_ok h (resolve_of_mem hd henc _)
  · rw [henc] at h
    exact nextOpcode_of_resolve_ok h (resolve_prefix_of_mem hd henc)

theorem OpcodeOutcome.eq {r : Traced (Except DecodeError Descriptor × Cursor)}
    (H : OpcodeOutcome c r) : c.nextOpcode = r := by
  cases H with
  | atEnd h => exact nextOpcode_of_nil h
  | truncated h => exact nextOpcode_of_resolve_error h resolve_prefix_none
  | illegalExtended h hb => exact nextOpcode_of_resolve_error h (resolve_prefix_illegal hb)
  | illegal h hne hb => exact nextOpcode_of_resolve_error h (resolve_illegal hne hb _)
  | decoded hd h => exact nextOpcode_of_bytes hd h

theorem remaining_eq_of_encoding_eq {e : Encoding} {rest : List UInt8}
    (h : c.remaining = e.bytes ++ rest) (henc : d.opcode.encoding = e) :
    c.remaining = d.opcode.encoding.bytes ++ rest := by
  rw [h, henc]

theorem exists_opcodeOutcome (c : Cursor) : ∃ r, OpcodeOutcome c r := by
  rcases h : c.remaining with _ | ⟨b, rest⟩
  · exact ⟨_, .atEnd h⟩
  by_cases hb : b = Encoding.extendedPrefix
  · subst hb
    rcases rest with _ | ⟨b, rest⟩
    · exact ⟨_, .truncated h⟩
    obtain ⟨d, hd, henc⟩ | hlegal := exists_encoding_eq_or_forall_ne table (.extended b)
    · exact ⟨_, .decoded hd (remaining_eq_of_encoding_eq h henc)⟩
    · exact ⟨_, .illegalExtended h hlegal⟩
  · obtain ⟨d, hd, henc⟩ | hlegal := exists_encoding_eq_or_forall_ne table (.primary b)
    · exact ⟨_, .decoded hd (remaining_eq_of_encoding_eq h henc)⟩
    · exact ⟨_, .illegal h hb hlegal⟩

theorem nextOpcode_eq_iff {r : Traced (Except DecodeError Descriptor × Cursor)} :
    c.nextOpcode = r ↔ OpcodeOutcome c r := by
  refine ⟨fun h => ?_, OpcodeOutcome.eq⟩
  -- some outcome is there, and decoding has no other than this one
  obtain ⟨r', H⟩ := c.exists_opcodeOutcome
  rw [← h, H.eq]
  exact H

theorem opcodeOutcome_nextOpcode (c : Cursor) : OpcodeOutcome c c.nextOpcode :=
  nextOpcode_eq_iff.mp rfl

theorem nextOpcode_value_eq_iff {v : Except DecodeError Descriptor × Cursor} :
    c.nextOpcode.value = v ↔ ∃ trace, OpcodeOutcome c ⟨v, trace⟩ := by
  refine ⟨fun h => ?_, fun h => ?_⟩
  · subst h
    exact ⟨_, c.opcodeOutcome_nextOpcode⟩
  · obtain ⟨trace, H⟩ := h
    rw [H.eq]

theorem nextOpcode_result_eq_iff {o : Except DecodeError Descriptor} :
    c.nextOpcode.value.1 = o ↔ ∃ c' trace, OpcodeOutcome c ⟨(o, c'), trace⟩ := by
  refine ⟨fun h => ?_, fun h => ?_⟩
  · exact ⟨_, nextOpcode_value_eq_iff.mp (Prod.ext h rfl)⟩
  · obtain ⟨c', trace, H⟩ := h
    rw [H.eq]

/-! ## When each outcome occurs -/

theorem nextOpcode_eq_ok_iff :
    c.nextOpcode.value = (.ok d, c') ↔
      d ∈ table ∧ d.opcode.encoding.bytes <+: c.remaining ∧ c' = c.advance d.encodedLength := by
  rw [nextOpcode_value_eq_iff]
  refine ⟨fun h => ?_, fun h => ?_⟩
  · obtain ⟨trace, H⟩ := h
    cases H with
    | decoded hd h => exact ⟨hd, ⟨_, h.symm⟩, rfl⟩
  · obtain ⟨hd, ⟨rest, h⟩, rfl⟩ := h
    exact ⟨_, .decoded hd h.symm⟩

theorem nextOpcode_eq_endOfStream_iff :
    c.nextOpcode.value.1 = .error .endOfStream ↔ c.remaining = [] := by
  rw [nextOpcode_result_eq_iff]
  refine ⟨fun h => ?_, fun h => ⟨_, _, .atEnd h⟩⟩
  obtain ⟨c', trace, H⟩ := h
  cases H with
  | atEnd h => exact h

theorem nextOpcode_eq_truncated_iff :
    c.nextOpcode.value.1 = .error .truncatedExtendedOpcode ↔
      c.remaining = [Encoding.extendedPrefix] := by
  rw [nextOpcode_result_eq_iff]
  refine ⟨fun h => ?_, fun h => ⟨_, _, .truncated h⟩⟩
  obtain ⟨c', trace, H⟩ := h
  cases H with
  | truncated h => exact h

theorem nextOpcode_eq_illegalExtended_iff {b : UInt8} :
    c.nextOpcode.value.1 = .error (.illegalExtendedOpcode b) ↔
      [Encoding.extendedPrefix, b] <+: c.remaining ∧
        ∀ d ∈ table, d.opcode.encoding ≠ .extended b := by
  rw [nextOpcode_result_eq_iff]
  refine ⟨fun h => ?_, fun h => ?_⟩
  · obtain ⟨c', trace, H⟩ := h
    cases H with
    | illegalExtended h hb => exact ⟨⟨_, h.symm⟩, hb⟩
  · obtain ⟨⟨rest, h⟩, hb⟩ := h
    exact ⟨_, _, .illegalExtended h.symm hb⟩

theorem nextOpcode_eq_illegal_iff {b : UInt8} :
    c.nextOpcode.value.1 = .error (.illegalOpcode b) ↔
      [b] <+: c.remaining ∧ b ≠ Encoding.extendedPrefix ∧
        ∀ d ∈ table, d.opcode.encoding ≠ .primary b := by
  rw [nextOpcode_result_eq_iff]
  refine ⟨fun h => ?_, fun h => ?_⟩
  · obtain ⟨c', trace, H⟩ := h
    cases H with
    | illegal h hne hb => exact ⟨⟨_, h.symm⟩, hne, hb⟩
  · obtain ⟨⟨rest, h⟩, hne, hb⟩ := h
    exact ⟨_, _, .illegal h.symm hne hb⟩

theorem error_of_nextOpcode {e : DecodeError} (he : c.nextOpcode.value.1 = .error e) :
    e = .endOfStream ∨ e = .truncatedExtendedOpcode ∨
      (∃ b, e = .illegalExtendedOpcode b) ∨ ∃ b, e = .illegalOpcode b := by
  obtain ⟨c', trace, H⟩ := nextOpcode_result_eq_iff.mp he
  cases H with
  | atEnd => exact .inl rfl
  | truncated => exact .inr <| .inl rfl
  | illegalExtended => exact .inr <| .inr <| .inl ⟨_, rfl⟩
  | illegal => exact .inr <| .inr <| .inr ⟨_, rfl⟩

/-- The stream up to some bytes at the cursor, with any other bytes after them. -/
theorem remaining_take_append {bs rest : List UInt8} (hpc : c.pc ≤ c.bytes.length)
    (h : c.remaining = bs ++ rest) (rest' : List UInt8) :
    (Cursor.mk (c.bytes.take (c.pc + bs.length) ++ rest') c.pc).remaining = bs ++ rest' := by
  have hle : c.pc ≤ (c.bytes.take (c.pc + bs.length)).length := by
    rw [List.length_take]
    omega
  simp only [remaining] at h ⊢
  rw [List.drop_append_of_le_length hle, List.drop_take, h, Nat.add_sub_cancel_left,
    List.take_left]

end Cursor

/-- At most one entry is written at the start of a byte string: it is what decoding finds there. -/
theorem Descriptor.eq_of_bytes_append {d d' : Descriptor} (hd : d ∈ table) (hd' : d' ∈ table)
    {rest rest' : List UInt8}
    (h : d.opcode.encoding.bytes ++ rest = d'.opcode.encoding.bytes ++ rest') :
    d = d' ∧ rest = rest' := by
  let c := Cursor.start (d.opcode.encoding.bytes ++ rest)
  have hc : c.nextOpcode = _ := Cursor.nextOpcode_of_bytes hd rfl
  have hc' : c.nextOpcode = _ := Cursor.nextOpcode_of_bytes hd' h
  obtain ⟨hd, -⟩ := Prod.mk.inj (congrArg Traced.value (hc.symm.trans hc'))
  obtain rfl := Except.ok.inj hd
  exact ⟨rfl, List.append_cancel_left h⟩

open Descriptor in
/-- Decoding an opcode accepts exactly the written forms of the entries of the table, of which at
most one starts the rest of the stream; each way of failing belongs to one kind of rest and leaves the
cursor in place, and the bytes behind an accepted opcode play no part. -/
theorem Cursor.nextOpcode_recognises_table (c : Cursor) :
    (∀ d c', c.nextOpcode.value = (.ok d, c') ↔
      d ∈ table ∧ d.opcode.encoding.bytes <+: c.remaining ∧
        c' = c.advance d.opcode.encoding.bytes.length) ∧
    (∀ d ∈ table, ∀ d' ∈ table, d.opcode.encoding.bytes <+: c.remaining →
      d'.opcode.encoding.bytes <+: c.remaining → d = d') ∧
    (c.nextOpcode.value.1 = .error .endOfStream ↔ c.remaining = []) ∧
    (c.nextOpcode.value.1 = .error .truncatedExtendedOpcode ↔ c.remaining = [0x5b]) ∧
    (∀ b, c.nextOpcode.value.1 = .error (.illegalExtendedOpcode b) ↔
      [0x5b, b] <+: c.remaining ∧ ∀ d ∈ table, d.opcode.encoding ≠ .extended b) ∧
    (∀ b, c.nextOpcode.value.1 = .error (.illegalOpcode b) ↔
      [b] <+: c.remaining ∧ b ≠ 0x5b ∧ ∀ d ∈ table, d.opcode.encoding ≠ .primary b) ∧
    (∀ e c', c.nextOpcode.value = (.error e, c') → c' = c ∧
      (e = .endOfStream ∨ e = .truncatedExtendedOpcode ∨
        (∃ b, e = .illegalExtendedOpcode b) ∨ ∃ b, e = .illegalOpcode b)) ∧
    c.nextOpcode.value.1 ≠ .error (.illegalOpcode 0x5b) ∧
    (∀ d c', c.nextOpcode.value = (.ok d, c') → ∀ rest,
      (Cursor.mk (c.bytes.take c'.pc ++ rest) c.pc).nextOpcode =
        ⟨(.ok d, ⟨c.bytes.take c'.pc ++ rest, c'.pc⟩), c.nextOpcode.trace⟩) := by
  refine ⟨?_, ?_, nextOpcode_eq_endOfStream_iff, nextOpcode_eq_truncated_iff,
    fun _ => nextOpcode_eq_illegalExtended_iff, fun _ => nextOpcode_eq_illegal_iff,
    fun e c' he => ⟨c.nextOpcode_failsInPlace e c' he, error_of_nextOpcode (congrArg Prod.fst he)⟩,
    ?_, ?_⟩
  · intro d c'
    rw [Encoding.length_bytes]
    exact nextOpcode_eq_ok_iff
  · intro d hd d' hd' h h'
    obtain ⟨rest, h⟩ := h
    obtain ⟨rest', h'⟩ := h'
    exact (eq_of_bytes_append hd hd' (h.trans h'.symm)).1
  · intro h
    exact (nextOpcode_eq_illegal_iff.mp h).2.1 rfl
  · intro d c' hok rest
    obtain ⟨hd, ⟨rest₀, h⟩, rfl⟩ := nextOpcode_eq_ok_iff.mp hok
    -- the opcode has a byte, so the cursor stands inside the stream
    have hpc : c.pc ≤ c.bytes.length := by
      have hlength := congrArg List.length h
      have hpos := d.opcode.encoding.length_pos
      rw [List.length_append, Encoding.length_bytes, length_remaining] at hlength
      omega
    have hrest := remaining_take_append hpc h.symm rest
    rw [Encoding.length_bytes] at hrest
    rw [nextOpcode_of_bytes hd h.symm]
    exact nextOpcode_of_bytes hd hrest

end AmlBytecode
