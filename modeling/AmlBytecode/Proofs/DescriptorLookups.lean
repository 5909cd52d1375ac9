import AmlBytecode.Proofs.OpcodeLanguage
import Mathlib.Data.List.Nodup
import Mathlib.Logic.ExistsUnique

/-! # Three ways to a descriptor

A descriptor is found from its opcode, at a position of the table, and by decoding a stream. Each way
leads to the entries of the table and to nothing else, so the three agree on every descriptor there
could be (`Descriptor.lookups_agree`). Only the opcodes of the language have an entry: the byte of a
local or an argument object with a larger number belongs to some other opcode or to none, and neither
its own lookup nor a stream finds it there (`Opcode.descriptor?_eq_none_iff_inLanguage`). -/

namespace AmlBytecode

namespace Opcode

open Descriptor

variable {op : Opcode} {d : Descriptor}

/-- The opcode belongs to the language, which has eight local objects and seven arguments. -/
def inLanguage : Opcode → Bool
  | localObj n => n.toNat < 8
  | argObj n => n.toNat < 7
  | _ => true

/-! ## By opcode -/

theorem descriptor?_eq_some_iff : op.descriptor? = some d ↔ d ∈ table ∧ d.opcode = op := by
  rw [descriptor?, Option.filter_eq_some_iff, Encoding.descriptor?_eq_some_iff, decide_eq_true_eq]
  refine ⟨fun h => ⟨h.1.1, h.2⟩, fun h => ⟨⟨h.1, ?_⟩, h.2⟩⟩
  rw [h.2]

theorem descriptor?_opcode_iff : d.opcode.descriptor? = some d ↔ d ∈ table := by
  rw [descriptor?_eq_some_iff, and_iff_left rfl]

theorem descriptor?_eq_none_iff : op.descriptor? = none ↔ ∀ d ∈ table, d.opcode ≠ op := by
  simp only [Option.eq_none_iff_forall_ne_some, ne_eq, descriptor?_eq_some_iff, not_and]

theorem inLanguage_of_mem_table : ∀ d ∈ table, d.opcode.inLanguage = true :=
  List.all_eq_true.mp rfl

theorem exists_mem_table_of_inLanguage (h : op.inLanguage = true) :
    ∃ d ∈ table, d.opcode = op := by
  cases op with
  | localObj n =>
    have hentry : ∀ k < 8, ∃ d ∈ table, d.opcode = localObj (UInt8.ofNat k) := by decide
    simpa using hentry n.toNat (by simpa [inLanguage] using h)
  | argObj n =>
    have hentry : ∀ k < 7, ∃ d ∈ table, d.opcode = argObj (UInt8.ofNat k) := by decide
    simpa using hentry n.toNat (by simpa [inLanguage] using h)
  | _ => decide +kernel

/-- The table has an entry for the opcodes of the language and for no others. -/
theorem descriptor?_eq_none_iff_inLanguage : op.descriptor? = none ↔ op.inLanguage = false := by
  rw [descriptor?_eq_none_iff, ← Bool.not_eq_true]
  refine ⟨fun h hin => ?_, fun h d hd hop => h (hop ▸ inLanguage_of_mem_table d hd)⟩
  obtain ⟨d, hd, hop⟩ := exists_mem_table_of_inLanguage hin
  exact h d hd hop

/-- The argument object that would be written as the prefix byte has no entry. -/
example : (argObj 243).encoding = .primary Encoding.extendedPrefix ∧
    (argObj 243).inLanguage = false := by decide

end Opcode

namespace Descriptor

variable {d : Descriptor}

/-! ## By position -/

theorem nodup_table : table.Nodup := nodup_encodings.of_map _

theorem exists_atPosition?_iff : (∃ k, atPosition? k = some d) ↔ d ∈ table :=
  ⟨fun ⟨_, hk⟩ => List.mem_of_getElem? hk, List.getElem?_of_mem⟩

theorem existsUnique_atPosition?_iff : (∃! k, atPosition? k = some d) ↔ d ∈ table := by
  rw [← exists_atPosition?_iff]
  refine ⟨ExistsUnique.exists, fun ⟨k, hk⟩ => ⟨k, hk, fun j hj => ?_⟩⟩
  have hlt : j < table.length := (List.getElem?_eq_some_iff.mp hj).1
  exact (List.getElem?_inj hlt nodup_table).mp (hj.trans hk.symm)

theorem descriptor?_eq_none_iff_atPosition? {op : Opcode} :
    op.descriptor? = none ↔ ∀ k d, atPosition? k = some d → d.opcode ≠ op := by
  rw [Opcode.descriptor?_eq_none_iff, forall_comm]
  refine forall_congr' fun d => ?_
  rw [← exists_atPosition?_iff, forall_exists_index]

/-! ## From a stream -/

theorem nextOpcode_of_mem_table (hd : d ∈ table) (before after : List UInt8) :
    let stream := before ++ d.opcode.encoding.bytes ++ after
    (Cursor.mk stream before.length).nextOpcode.value =
      (.ok d, ⟨stream, before.length + d.encodedLength⟩) := by
  intro stream
  have hrest : (Cursor.mk stream before.length).remaining = d.opcode.encoding.bytes ++ after := by
    simp only [Cursor.remaining, stream, List.append_assoc, List.drop_left]
  rw [Cursor.nextOpcode_of_bytes hd hrest]
  rfl

theorem mem_table_of_nextOpcode {c c' : Cursor} (h : c.nextOpcode.value = (.ok d, c')) :
    d ∈ table :=
  (Cursor.nextOpcode_eq_ok_iff.mp h).1

theorem exists_nextOpcode_iff : (∃ c c' : Cursor, c.nextOpcode.value = (.ok d, c')) ↔ d ∈ table :=
  ⟨fun ⟨_, _, h⟩ => mem_table_of_nextOpcode h, fun hd => ⟨_, _, nextOpcode_of_mem_table hd [] []⟩⟩

/-! ## All three -/

/-- The lookups by opcode, by position and from a stream agree: a descriptor is what its opcode is
looked up to just if it stands at one position of the table, just if it is decoded wherever it is
written, and just if it is decoded anywhere. An opcode that is looked up to nothing has no entry in the
table, and no stream gives a descriptor of it; so it is for the local and the argument objects outside
the language, whatever the bytes that they would have stand for. -/
theorem lookups_agree :
    (∀ d : Descriptor,
      (d.opcode.descriptor? = some d ↔ ∃! k, atPosition? k = some d) ∧
      (d.opcode.descriptor? = some d ↔ ∀ before after : List UInt8,
        let stream := before ++ d.opcode.encoding.bytes ++ after
        (Cursor.mk stream before.length).nextOpcode.value =
          (.ok d, ⟨stream, before.length + d.encodedLength⟩)) ∧
      (d.opcode.descriptor? = some d ↔
        ∃ c c' : Cursor, c.nextOpcode.value = (.ok d, c'))) ∧
    (∀ op : Opcode,
      (op.descriptor? = none ↔ ∀ k d, atPosition? k = some d → d.opcode ≠ op) ∧
      (op.descriptor? = none →
        ∀ (c c' : Cursor) (d : Descriptor), c.nextOpcode.value = (.ok d, c') → d.opcode ≠ op)) ∧
    ∀ n : UInt8,
      ((Opcode.localObj n).descriptor? = none ↔ 8 ≤ n.toNat) ∧
      ((Opcode.argObj n).descriptor? = none ↔ 7 ≤ n.toNat) := by
  refine ⟨fun d => ?_, fun op => ⟨descriptor?_eq_none_iff_atPosition?, fun h c c' d hread => ?_⟩,
    fun n => ?_⟩
  · rw [Opcode.descriptor?_opcode_iff]
    refine ⟨existsUnique_atPosition?_iff.symm, ⟨nextOpcode_of_mem_table, fun h => ?_⟩,
      exists_nextOpcode_iff.symm⟩
    exact mem_table_of_nextOpcode (h [] [])
  · exact Opcode.descriptor?_eq_none_iff.mp h d (mem_table_of_nextOpcode hread)
  · simp [Opcode.descriptor?_eq_none_iff_inLanguage, Opcode.inLanguage]

end Descriptor

end AmlBytecode
