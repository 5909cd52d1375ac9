import AmlBytecode.Descriptor.ByteMap

/-! # Byte maps invert the encodings of a table

A map filled from a table answers, for a byte of its space, the position of the one entry written
with that byte. Any table will do that a position fits in a byte for and that writes no two of its
entries alike (`lookup_ofTable_eq_some_iff`). `Descriptor.table` is such a table, as one pass over it
shows (`nodup_of_allNew`), so looking up a written form finds the entry that has it, and finds nothing
if no entry has it (`Encoding.descriptor?_eq_some_iff`, `Encoding.descriptor?_eq_none_iff`). -/

namespace AmlBytecode

/-! ## Lists without duplicates -/

/-- The numbers are all different, and none of them is a bit of `seen`. The numbers that were met are kept
as bits of one number, so a long list is checked in one pass. -/
def allNew (seen : Nat) : List Nat → Bool
  | [] => true
  | n :: ns => !seen.testBit n && allNew (seen ||| 1 <<< n) ns

theorem allNew_iff {seen : Nat} {ns : List Nat} :
    allNew seen ns = true ↔ ns.Nodup ∧ ∀ n ∈ ns, seen.testBit n = false := by
  induction ns generalizing seen with
  | nil => simp [allNew]
  | cons n ns ih =>
    have hmet : (∀ m ∈ ns, (seen ||| 1 <<< n).testBit m = false) ↔
        (∀ m ∈ ns, seen.testBit m = false) ∧ n ∉ ns := by
      simp only [Nat.testBit_or, Nat.one_shiftLeft, Nat.testBit_two_pow, Bool.or_eq_false_iff,
        decide_eq_false_iff_not]
      refine ⟨fun h => ⟨fun m hm => (h m hm).1, fun hn => (h n hn).2 rfl⟩, fun h m hm => ?_⟩
      exact ⟨h.1 m hm, fun hnm => h.2 (hnm ▸ hm)⟩
    rw [allNew, Bool.and_eq_true, Bool.not_eq_true', ih, hmet, List.nodup_cons, List.forall_mem_cons]
    constructor
    · intro h
      exact ⟨⟨h.2.2.2, h.2.1⟩, h.1, h.2.2.1⟩
    · intro h
      exact ⟨h.2.1, h.1.2, h.2.2, h.1.1⟩

/-- A list has no duplicates if a number can be given to its elements that tells them apart. -/
theorem nodup_of_allNew {α : Type} {l : List α} (number : α → Nat)
    (h : allNew 0 (l.map number) = true) : l.Nodup := by
  rw [allNew_iff] at h
  exact List.Pairwise.of_map number (fun _ _ hne heq => hne (congrArg number heq)) h.1

/-! ## Filling a map -/

theorem Descriptor.exists_encoding_eq_or_forall_ne (table : List Descriptor) (e : Encoding) :
    (∃ d ∈ table, d.opcode.encoding = e) ∨ ∀ d ∈ table, d.opcode.encoding ≠ e := by
  by_cases h : ∃ d ∈ table, d.opcode.encoding = e
  · exact .inl h
  · refine .inr fun d hd henc => ?_
    exact h ⟨d, hd, henc⟩

namespace ByteMap

variable {space : Space} {b : UInt8} {m : ByteMap}

theorem lookup_insert_of_eq {entry : Descriptor × Nat}
    (h : entry.1.opcode.encoding = ⟨space, b⟩) :
    (insert space m entry).lookup b = some entry.2.toUInt8 := by
  simp [insert, h, lookup_store]

theorem lookup_insert_of_ne {entry : Descriptor × Nat}
    (h : entry.1.opcode.encoding ≠ ⟨space, b⟩) :
    (insert space m entry).lookup b = m.lookup b := by
  unfold insert
  split
  case isTrue hspace =>
    have hbyte : entry.1.opcode.encoding.byte ≠ b := fun hb => h (by rw [← hspace, ← hb])
    rw [lookup_store, if_neg hbyte]
  case isFalse => rfl

theorem lookup_foldl_of_forall_ne {entries : List (Descriptor × Nat)}
    (h : ∀ entry ∈ entries, entry.1.opcode.encoding ≠ ⟨space, b⟩) :
    (entries.foldl (insert space) m).lookup b = m.lookup b := by
  induction entries generalizing m with
  | nil => rfl
  | cons entry entries ih =>
    rw [List.foldl_cons, ih fun e he => h e (List.mem_cons_of_mem _ he)]
    exact lookup_insert_of_ne (h entry List.mem_cons_self)

theorem lookup_foldl_of_mem {entries : List (Descriptor × Nat)}
    (hdistinct : (entries.map (·.1.opcode.encoding)).Nodup) {entry : Descriptor × Nat}
    (hmem : entry ∈ entries) (h : entry.1.opcode.encoding = ⟨space, b⟩) :
    (entries.foldl (insert space) m).lookup b = some entry.2.toUInt8 := by
  induction entries generalizing m with
  | nil => cases hmem
  | cons first entries ih =>
    obtain ⟨hfirst, hrest⟩ := List.nodup_cons.mp hdistinct
    rw [List.foldl_cons]
    rcases List.mem_cons.mp hmem with rfl | hmem
    · -- the entries after it are written differently, so its position stays
      rw [lookup_foldl_of_forall_ne, lookup_insert_of_eq h]
      intro e he heq
      exact hfirst (List.mem_map.mpr ⟨e, he, heq.trans h.symm⟩)
    · exact ih hrest hmem

section
variable {table : List Descriptor}

theorem lookup_ofTable_of_forall_ne (h : ∀ d ∈ table, d.opcode.encoding ≠ ⟨space, b⟩) :
    (ofTable table space).lookup b = none := by
  unfold ofTable
  rw [lookup_foldl_of_forall_ne, lookup_empty]
  rintro ⟨d, k⟩ hmem
  exact h d (List.mem_of_getElem? (List.mem_zipIdx_iff_getElem?.mp hmem))

theorem lookup_ofTable_of_getElem? (hdistinct : (table.map (·.opcode.encoding)).Nodup) {k : Nat}
    {d : Descriptor} (hk : table[k]? = some d) (h : d.opcode.encoding = ⟨space, b⟩) :
    (ofTable table space).lookup b = some k.toUInt8 := by
  have hentries : table.zipIdx.map (·.1.opcode.encoding) = table.map (·.opcode.encoding) := by
    rw [show (fun e : Descriptor × Nat => e.1.opcode.encoding) =
        (fun d : Descriptor => d.opcode.encoding) ∘ Prod.fst from rfl,
      ← List.map_map, List.zipIdx_map_fst]
  have hmem : (d, k) ∈ table.zipIdx := List.mem_zipIdx_iff_getElem?.mpr hk
  exact lookup_foldl_of_mem (hentries ▸ hdistinct) hmem h

/-- A byte is mapped to the position of the entry that is written with it, and to no other. -/
theorem lookup_ofTable_eq_some_iff (hlength : table.length ≤ 256)
    (hdistinct : (table.map (·.opcode.encoding)).Nodup) {i : UInt8} :
    (ofTable table space).lookup b = some i ↔
      ∃ d, table[i.toNat]? = some d ∧ d.opcode.encoding = ⟨space, b⟩ := by
  refine ⟨fun hi => ?_, fun h => ?_⟩
  · obtain ⟨d, hd, henc⟩ | h := Descriptor.exists_encoding_eq_or_forall_ne table ⟨space, b⟩
    · obtain ⟨k, hk⟩ := List.getElem?_of_mem hd
      rw [lookup_ofTable_of_getElem? hdistinct hk henc] at hi
      have hlt : k < table.length := (List.getElem?_eq_some_iff.mp hk).1
      -- a position fits in the byte that it is kept in
      have hik : i.toNat = k := by
        rw [← Option.some.inj hi, Nat.toUInt8_eq, UInt8.toNat_ofNat']
        omega
      exact ⟨d, hik ▸ hk, henc⟩
    · rw [lookup_ofTable_of_forall_ne h] at hi
      cases hi
  · obtain ⟨d, hd, henc⟩ := h
    rw [lookup_ofTable_of_getElem? hdistinct hd henc]
    simp

end

end ByteMap

/-! ## The table -/

/-- Both spaces are numbered one after the other. -/
def Encoding.number (e : Encoding) : Nat :=
  match e.space with
  | .primary => e.byte.toNat
  | .extended => 256 + e.byte.toNat

namespace Descriptor

theorem length_table_le : table.length ≤ 256 := by decide

/-- No two opcodes of the language are written alike. -/
theorem nodup_encodings : (table.map (·.opcode.encoding)).Nodup :=
  nodup_of_allNew Encoding.number rfl

/-- The prefix of the extended space is no opcode by itself. -/
theorem encoding_ne_prefix :
    ∀ d ∈ table, d.opcode.encoding ≠ .primary Encoding.extendedPrefix := by decide

end Descriptor

theorem Space.byteMap_eq_ofTable (space : Space) :
    space.byteMap = ByteMap.ofTable Descriptor.table space := by
  cases space <;> rfl

namespace Encoding

open Descriptor

theorem descriptor?_eq_some_iff {e : Encoding} {d : Descriptor} :
    e.descriptor? = some d ↔ d ∈ table ∧ d.opcode.encoding = e := by
  unfold descriptor? atPosition?
  rw [Space.byteMap_eq_ofTable, Option.bind_eq_some_iff]
  constructor
  · rintro ⟨i, hi, hd⟩
    obtain ⟨d', hd', henc⟩ :=
      (ByteMap.lookup_ofTable_eq_some_iff length_table_le nodup_encodings).mp hi
    cases hd.symm.trans hd'
    exact ⟨List.mem_of_getElem? hd, henc⟩
  · rintro ⟨hd, rfl⟩
    obtain ⟨k, hk⟩ := List.getElem?_of_mem hd
    have hlt : k < table.length := (List.getElem?_eq_some_iff.mp hk).1
    have hk256 := length_table_le
    refine ⟨k.toUInt8, ByteMap.lookup_ofTable_of_getElem? nodup_encodings hk rfl, ?_⟩
    rw [Nat.toUInt8_eq, UInt8.toNat_ofNat', Nat.mod_eq_of_lt (by omega)]
    exact hk

theorem descriptor?_eq_none_iff {e : Encoding} :
    e.descriptor? = none ↔ ∀ d ∈ table, d.opcode.encoding ≠ e := by
  simp only [Option.eq_none_iff_forall_ne_some, ne_eq, descriptor?_eq_some_iff, not_and]

end Encoding

end AmlBytecode
