import AmlBytecode.Proofs.ByteMapInversion
import Mathlib.Data.List.Nodup
import Mathlib.Logic.ExistsUnique

/-! # The two byte maps of a table share its positions

Filling a map may be refused: a table can be too long for its positions to fit in a byte, and a byte can
be taken already. Both maps of a table are filled just if the table has at most 256 entries and no two
of them are written alike (`ByteMap.forall_isSome_ofTable?_iff`). Then every position of the table is in
one of the two maps, for one byte, and nothing else is in them. Main statement:
`ByteMap.ofTable_partitions`. -/

namespace AmlBytecode

namespace ByteMap

variable {space : Space} {m m' : ByteMap} {entry : Descriptor × Nat}
  {entries : List (Descriptor × Nat)} {table : List Descriptor}

/-! ## Filling a map with checks -/

/-- Does as `insert`, but refuses an entry whose byte is taken. -/
def insert? (space : Space) (m : ByteMap) (entry : Descriptor × Nat) : Option ByteMap :=
  if entry.1.opcode.encoding.space = space ∧ m.lookup entry.1.opcode.encoding.byte ≠ none then none
  else some (insert space m entry)

/-- Does as `ofTable`, but refuses a table that is too long for its positions to fit in a byte, and one
that writes two entries of the space alike. -/
def ofTable? (table : List Descriptor) (space : Space) : Option ByteMap :=
  if table.length ≤ 256 then table.zipIdx.foldlM (insert? space) empty else none

/-- The byte of an entry is not taken in the map of its space. -/
def Free (space : Space) (m : ByteMap) (entry : Descriptor × Nat) : Prop :=
  entry.1.opcode.encoding.space = space → m.lookup entry.1.opcode.encoding.byte = none

/-- Two descriptors are not written alike in the space. -/
def Apart (space : Space) (d d' : Descriptor) : Prop :=
  d.opcode.encoding.space = space → d'.opcode.encoding ≠ d.opcode.encoding

theorem insert?_eq_some_iff :
    insert? space m entry = some m' ↔ Free space m entry ∧ insert space m entry = m' := by
  rw [insert?, Option.ite_none_left_eq_some, Option.some_inj, Free]
  simp only [not_and, Classical.not_not]

theorem lookup_insert_eq_none_iff {b : UInt8} :
    (insert space m entry).lookup b = none ↔
      entry.1.opcode.encoding ≠ ⟨space, b⟩ ∧ m.lookup b = none := by
  by_cases h : entry.1.opcode.encoding = ⟨space, b⟩
  · simp [lookup_insert_of_eq h, h]
  · simp [lookup_insert_of_ne h, h]

/-- An entry is free after another if it was free before and the two are not written alike. -/
theorem free_insert_iff {entry' : Descriptor × Nat} :
    Free space (insert space m entry) entry' ↔
      Free space m entry' ∧ Apart space entry.1 entry'.1 := by
  simp only [Free, Apart, lookup_insert_eq_none_iff]
  constructor
  · intro h
    refine ⟨fun hspace => (h hspace).2, fun hspace heq => ?_⟩
    have hspace' : entry'.1.opcode.encoding.space = space := heq ▸ hspace
    exact (h hspace').1 (by rw [← heq, ← hspace'])
  · intro h hspace
    refine ⟨fun heq => ?_, h.1 hspace⟩
    have hspace' : entry.1.opcode.encoding.space = space := by rw [heq]
    exact h.2 hspace' (by rw [heq, ← hspace])

theorem foldlM_insert?_eq_some_iff :
    entries.foldlM (insert? space) m = some m' ↔
      (∀ entry ∈ entries, Free space m entry) ∧
        entries.Pairwise (fun entry entry' => Apart space entry.1 entry'.1) ∧
        entries.foldl (insert space) m = m' := by
  induction entries generalizing m with
  | nil => simp
  | cons entry entries ih =>
    rw [List.foldlM_cons, Option.bind_eq_bind, Option.bind_eq_some_iff, List.forall_mem_cons,
      List.pairwise_cons, List.foldl_cons]
    simp only [insert?_eq_some_iff, ih, and_assoc, exists_and_left, exists_eq_left',
      free_insert_iff, forall_and]

theorem free_empty (entry : Descriptor × Nat) : Free space empty entry := fun _ => lookup_empty _

theorem ofTable?_eq_some_iff :
    ofTable? table space = some m ↔
      table.length ≤ 256 ∧ table.Pairwise (Apart space) ∧ ofTable table space = m := by
  have hpairs : table.zipIdx.Pairwise (fun entry entry' => Apart space entry.1 entry'.1) ↔
      table.Pairwise (Apart space) := by
    rw [← List.pairwise_map, List.zipIdx_map_fst]
  rw [ofTable?, Option.ite_none_right_eq_some, foldlM_insert?_eq_some_iff, hpairs, ofTable,
    and_iff_right fun entry _ => free_empty entry]

theorem pairwise_apart_of_nodup (h : (table.map (·.opcode.encoding)).Nodup) :
    table.Pairwise (Apart space) :=
  (List.pairwise_map.mp h).imp fun hne _ heq => hne heq.symm

/-- The checks refuse just the tables whose maps would lose an entry. -/
theorem forall_isSome_ofTable?_iff :
    (∀ space, (ofTable? table space).isSome = true) ↔
      table.length ≤ 256 ∧ (table.map (·.opcode.encoding)).Nodup := by
  simp only [Option.isSome_iff_exists, ofTable?_eq_some_iff]
  constructor
  · intro h
    obtain ⟨_, hlength, hprimary, -⟩ := h .primary
    obtain ⟨_, -, hextended, -⟩ := h .extended
    refine ⟨hlength, List.pairwise_map.mpr ?_⟩
    -- each of the two checks sees only the encodings of its own space
    refine (hprimary.and hextended).imp fun {d d'} hne heq => ?_
    rcases hspace : d.opcode.encoding.space with _ | _
    · exact hne.1 hspace heq.symm
    · exact hne.2 hspace heq.symm
  · intro h space
    exact ⟨_, h.1, pairwise_apart_of_nodup h.2, rfl⟩

/-! ## Counting the entries of a map -/

/-- The number of bytes for which a map holds a position. -/
def held (m : ByteMap) : Nat := m.countP Option.isSome

theorem held_store {b p : UInt8} (h : m.lookup b = none) : (m.store b p).held = m.held + 1 := by
  have hlt : b.toNat < 256 := b.toNat_lt
  have hentry : m[b.toNat] = none := h
  rw [held, store, Vector.countP_set, hentry]
  simp [held]

theorem held_insert (h : Free space m entry) :
    (insert space m entry).held =
      m.held + if entry.1.opcode.encoding.space = space then 1 else 0 := by
  unfold insert
  split
  case isTrue hspace => exact held_store (h hspace)
  case isFalse => rfl

theorem held_of_foldlM (h : entries.foldlM (insert? space) m = some m') :
    m'.held = m.held + entries.countP (·.1.opcode.encoding.space = space) := by
  induction entries generalizing m with
  | nil =>
    cases h
    rfl
  | cons entry entries ih =>
    rw [List.foldlM_cons, Option.bind_eq_bind, Option.bind_eq_some_iff] at h
    obtain ⟨m₁, hfirst, hrest⟩ := h
    obtain ⟨hfree, rfl⟩ := insert?_eq_some_iff.mp hfirst
    rw [ih hrest, held_insert hfree, List.countP_cons]
    simp only [decide_eq_true_eq]
    omega

theorem held_of_ofTable? (h : ofTable? table space = some m) :
    m.held = table.countP (·.opcode.encoding.space = space) := by
  rw [ofTable?, Option.ite_none_right_eq_some] at h
  have hentries : table.countP (·.opcode.encoding.space = space) =
      table.zipIdx.countP (·.1.opcode.encoding.space = space) := by
    conv => lhs; rw [← List.zipIdx_map_fst 0 table]
    rw [List.countP_map]
    rfl
  rw [held_of_foldlM h.2, hentries]
  simp [held, empty]

/-! ## Positions -/

section

variable (hlength : table.length ≤ 256) (hdistinct : (table.map (·.opcode.encoding)).Nodup)
include hlength hdistinct

theorem ofTable?_eq (space : Space) : ofTable? table space = some (ofTable table space) :=
  ofTable?_eq_some_iff.mpr ⟨hlength, pairwise_apart_of_nodup hdistinct, rfl⟩

theorem map_toNat_lookup_ofTable {b : UInt8} {k : Nat} :
    ((ofTable table space).lookup b).map UInt8.toNat = some k ↔
      ∃ d, table[k]? = some d ∧ d.opcode.encoding = ⟨space, b⟩ := by
  rw [Option.map_eq_some_iff]
  constructor
  · rintro ⟨i, hi, rfl⟩
    exact (lookup_ofTable_eq_some_iff hlength hdistinct).mp hi
  · rintro ⟨d, hk, henc⟩
    refine ⟨k.toUInt8, lookup_ofTable_of_getElem? hdistinct hk henc, ?_⟩
    have hlt : k < table.length := (List.getElem?_eq_some_iff.mp hk).1
    rw [Nat.toUInt8_eq, UInt8.toNat_ofNat']
    omega

theorem held_add_held : (ofTable table .primary).held + (ofTable table .extended).held =
    table.length := by
  rw [held_of_ofTable? (ofTable?_eq hlength hdistinct _),
    held_of_ofTable? (ofTable?_eq hlength hdistinct _),
    List.length_eq_countP_add_countP (fun d => d.opcode.encoding.space = .primary)]
  congr 1
  refine List.countP_congr fun d _ => ?_
  rcases d.opcode.encoding.space <;> simp

end

theorem lookup_ofTable_eq_none_iff {b : UInt8} (hdistinct : (table.map (·.opcode.encoding)).Nodup) :
    (ofTable table space).lookup b = none ↔ ∀ d ∈ table, d.opcode.encoding ≠ ⟨space, b⟩ := by
  refine ⟨fun hnone d hd henc => ?_, lookup_ofTable_of_forall_ne⟩
  obtain ⟨k, hk⟩ := List.getElem?_of_mem hd
  rw [lookup_ofTable_of_getElem? hdistinct hk henc] at hnone
  cases hnone

/-- In a table of at most 256 descriptors that writes no two of them alike, the two maps are filled
without a refusal, and each holds for a byte the position of the entry that is written with this byte of
its space, and nothing if there is none. So every position is held by one of the maps, for one byte;
no other position is held, and together the maps hold as many as there are. -/
theorem ofTable_partitions {table : List Descriptor} (hlength : table.length ≤ 256)
    (hdistinct : (table.map (·.opcode.encoding)).Nodup) :
    (∀ space, ofTable? table space = some (ofTable table space)) ∧
    (∀ space b k, ((ofTable table space).lookup b).map UInt8.toNat = some k ↔
      ∃ d, table[k]? = some d ∧ d.opcode.encoding = ⟨space, b⟩) ∧
    (∀ space b, (ofTable table space).lookup b = none ↔
      ∀ d ∈ table, d.opcode.encoding ≠ ⟨space, b⟩) ∧
    (∀ k < table.length, ∃! e : Encoding,
      ((ofTable table e.space).lookup e.byte).map UInt8.toNat = some k) ∧
    (∀ space b i, (ofTable table space).lookup b = some i → i.toNat < table.length) ∧
    (ofTable table .primary).countP Option.isSome + (ofTable table .extended).countP Option.isSome =
      table.length := by
  refine ⟨ofTable?_eq hlength hdistinct, fun space b k => map_toNat_lookup_ofTable hlength hdistinct,
    fun space b => lookup_ofTable_eq_none_iff hdistinct, fun k hk => ?_, fun space b i hi => ?_,
    held_add_held hlength hdistinct⟩
  · have hentry : table[k]? = some table[k] := List.getElem?_eq_getElem hk
    refine ⟨table[k].opcode.encoding, ?_, fun e he => ?_⟩
    · exact (map_toNat_lookup_ofTable hlength hdistinct).mpr ⟨_, hentry, rfl⟩
    · obtain ⟨d, hd, henc⟩ := (map_toNat_lookup_ofTable hlength hdistinct).mp he
      cases hentry.symm.trans hd
      exact henc.symm
  · obtain ⟨d, hd, -⟩ := (lookup_ofTable_eq_some_iff hlength hdistinct).mp hi
    exact (List.getElem?_eq_some_iff.mp hd).1

/-- One entry for each number of a local object, whose bytes make up the whole primary space. -/
def everyLocal : List Descriptor :=
  (List.range 256).map fun n => ⟨.localObj n.toUInt8, .localVariable, .ofList [.executable], ⟨0⟩⟩

theorem getElem?_everyLocal {n : Nat} (h : n < 256) :
    everyLocal[n]? = some ⟨.localObj n.toUInt8, .localVariable, .ofList [.executable], ⟨0⟩⟩ := by
  rw [everyLocal, List.getElem?_map, List.getElem?_range h, Option.map_some]

theorem nodup_encodings_everyLocal : (everyLocal.map (·.opcode.encoding)).Nodup := by
  rw [everyLocal, List.map_map]
  refine List.nodup_range.map_on fun m hm n hn henc => ?_
  have hbyte : (0x60 : UInt8) + m.toUInt8 = 0x60 + n.toUInt8 := congrArg Encoding.byte henc
  have hsame : m.toUInt8.toNat = n.toUInt8.toNat := by rw [UInt8.add_right_inj _ |>.mp hbyte]
  rw [Nat.toUInt8_eq, Nat.toUInt8_eq, UInt8.toNat_ofNat', UInt8.toNat_ofNat'] at hsame
  rw [List.mem_range] at hm hn
  omega

/-- The longest table there may be: its last position is kept whole, at a byte where the counting from
the byte of `Local0` has wrapped. -/
theorem ofTable_partitions_everyLocal :
    everyLocal.length ≤ 256 ∧ (everyLocal.map (·.opcode.encoding)).Nodup ∧
      ofTable? everyLocal .primary = some (ofTable everyLocal .primary) ∧
      ((ofTable everyLocal .primary).lookup 0x5f).map UInt8.toNat = some 255 ∧
      (ofTable everyLocal .extended).lookup 0x5f = none := by
  have hlength : everyLocal.length ≤ 256 := by simp [everyLocal]
  obtain ⟨hfilled, hposition, hnone, -⟩ :=
    ofTable_partitions hlength nodup_encodings_everyLocal
  refine ⟨hlength, nodup_encodings_everyLocal, hfilled _,
    (hposition .primary 0x5f 255).mpr ⟨_, getElem?_everyLocal (by decide), rfl⟩,
    (hnone .extended 0x5f).mpr fun d hd henc => ?_⟩
  obtain ⟨n, -, rfl⟩ := List.mem_map.mp hd
  cases congrArg Encoding.space henc

end ByteMap

end AmlBytecode
