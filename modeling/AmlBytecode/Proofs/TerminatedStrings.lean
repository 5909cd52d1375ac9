import AmlBytecode.Proofs.Refusals
import Mathlib.Data.List.Basic
import Mathlib.Logic.ExistsUnique

/-! # Terminated ASCII strings

A string operand is read just where bytes other than zero and below `0x80` stand before a zero byte, and
the text that is read has exactly these bytes. Without a zero byte the stream is too short, whatever its
bytes are; with a byte above `0x7f` before the first zero byte the string is invalid, also when it is
well-formed UTF-8 (`Cursor.string_reads_terminated`). Reading an ASCII text comes to the same as reading
UTF-8 and refusing texts that are not ASCII (`Ascii.decode?_eq_filter`). -/

namespace AmlBytecode

/-! ## ASCII within UTF-8 -/

namespace Ascii

variable {bytes : List UInt8} {text : String}

/-- All bytes of the text in UTF-8 are below `0x80`. -/
def isAscii (text : String) : Bool := text.toUTF8.data.toList.all (·.toNat < 0x80)

theorem utf8EncodeChar_eq {c : Char} (h : c.toNat < 0x80) :
    String.utf8EncodeChar c = [c.toUInt8] := by
  have hle : c.val.toNat ≤ 127 := Nat.le_of_lt_succ h
  rw [String.utf8EncodeChar, if_pos hle]
  rfl

theorem toUTF8_eq (h : ∀ c ∈ text.toList, c.toNat < 0x80) :
    text.toUTF8 = (encode text).toByteArray := by
  have hchars : text.toList.flatMap String.utf8EncodeChar = encode text := by
    rw [encode, List.map_eq_flatMap]
    exact List.flatMap_congr fun c hc => utf8EncodeChar_eq (h c hc)
  rw [String.toUTF8_eq_toByteArray, ← String.utf8Encode_toList, List.utf8Encode, hchars]

theorem fromUTF8?_eq_some_iff :
    String.fromUTF8? bytes.toByteArray = some text ↔ text.toUTF8 = bytes.toByteArray := by
  unfold String.fromUTF8?
  refine ⟨fun h => ?_, fun h => ?_⟩
  · split at h
    · cases h
      rfl
    · cases h
  · rw [← h, String.toUTF8_eq_toByteArray, dif_pos text.isValidUTF8]
    rfl

theorem toUTF8_of_decode? (h : decode? bytes = some text) : text.toUTF8 = bytes.toByteArray := by
  obtain ⟨hascii, rfl⟩ := decode?_eq_some_iff.mp h
  exact toUTF8_eq hascii

/-- A text is known by its bytes. -/
theorem eq_of_toUTF8_eq {text' : String} (h : text.toUTF8 = text'.toUTF8) : text = text' := by
  rwa [String.toUTF8_eq_toByteArray, String.toUTF8_eq_toByteArray, String.toByteArray_inj] at h

theorem decode?_eq_some_iff_toUTF8 :
    decode? bytes = some text ↔
      (∀ b ∈ bytes, b.toNat < 0x80) ∧ text.toUTF8 = bytes.toByteArray := by
  refine ⟨fun h => ⟨exists_decode?_eq_some_iff.mp ⟨text, h⟩, toUTF8_of_decode? h⟩, fun h => ?_⟩
  obtain ⟨hascii, htext⟩ := h
  obtain ⟨text', htext'⟩ := exists_decode?_eq_some_iff.mpr hascii
  rwa [eq_of_toUTF8_eq (htext.trans (toUTF8_of_decode? htext').symm)]

theorem existsUnique_toUTF8_eq (h : ∀ b ∈ bytes, b.toNat < 0x80) :
    ∃! text, String.toUTF8 text = bytes.toByteArray := by
  obtain ⟨text, htext⟩ := exists_decode?_eq_some_iff.mpr h
  have hbytes := toUTF8_of_decode? htext
  exact ⟨text, hbytes, fun text' htext' => eq_of_toUTF8_eq (htext'.trans hbytes.symm)⟩

theorem isAscii_of_toUTF8 (h : text.toUTF8 = bytes.toByteArray) :
    isAscii text = true ↔ ∀ b ∈ bytes, b.toNat < 0x80 := by
  rw [isAscii, h, List.toList_data_toByteArray]
  simp

/-- An ASCII text is a text in UTF-8 that has no byte above `0x7f`. -/
theorem decode?_eq_filter :
    decode? bytes = (String.fromUTF8? bytes.toByteArray).filter isAscii := by
  ext text
  rw [Option.filter_eq_some_iff, fromUTF8?_eq_some_iff, decode?_eq_some_iff_toUTF8, and_comm]
  exact and_congr_right fun h => (isAscii_of_toUTF8 h).symm

end Ascii

namespace Cursor

variable {c c' : Cursor} {chars rest : List UInt8}

/-! ## Reading to the terminator -/

theorem string_eq_elim (h : c.remaining = chars ++ 0 :: rest) (hne : 0 ∉ chars) :
    c.string = ((String.fromUTF8? chars.toByteArray).filter Ascii.isAscii).elim
      (.error .invalidString, c) fun text => (.ok text, c.advance (chars.length + 1)) := by
  rw [string_of_terminated h (List.forall_mem_ne'.mpr hne), ← Ascii.decode?_eq_filter]
  cases Ascii.decode? chars <;> rfl

theorem string_eq_ok_iff_terminated {text : String} :
    c.string = (.ok text, c') ↔
      ∃ chars rest, c.remaining = chars ++ 0 :: rest ∧
        (∀ b ∈ chars, 0x01 ≤ b.toNat ∧ b.toNat ≤ 0x7f) ∧
        text.toUTF8 = chars.toByteArray ∧ c' = c.advance (chars.length + 1) := by
  rw [string_eq_ok_iff, Ascii.decode?_eq_some_iff_toUTF8]
  refine ⟨fun h => ?_, fun h => ?_⟩
  · obtain ⟨hzero, ⟨hascii, htext⟩, rfl⟩ := h
    obtain ⟨rest, hrest⟩ := takeWhile_ne_zero_prefix hzero
    rw [List.append_assoc, List.singleton_append] at hrest
    refine ⟨_, rest, hrest.symm, fun b hb => ⟨?_, ?_⟩, htext, rfl⟩
    · have hne : b ≠ 0 := by simpa using List.all_eq_true.mp List.all_takeWhile _ hb
      exact Nat.pos_of_ne_zero fun h0 => hne (UInt8.toNat_inj.mp h0)
    · exact Nat.le_of_lt_succ (hascii b hb)
  · obtain ⟨chars, rest, hrest, hrange, htext, rfl⟩ := h
    have hne : ∀ b ∈ chars, b ≠ 0 := by
      rintro b hb rfl
      exact absurd (hrange 0 hb).1 (by decide)
    rw [hrest, takeWhile_ne_append hne]
    exact ⟨by simp, ⟨fun b hb => Nat.lt_succ_of_le (hrange b hb).2, htext⟩, rfl⟩

theorem string_eq_error_iff_or {e : DecodeError} :
    c.string.1 = .error e ↔
      (e = .endOfStream ∧ 0 ∉ c.remaining) ∨
      (e = .invalidString ∧ ∃ chars rest, c.remaining = chars ++ 0 :: rest ∧ 0 ∉ chars ∧
        ∃ b ∈ chars, 0x7f < b.toNat) := by
  rw [string_eq_error_iff]
  refine ⟨fun H => ?_, fun h => ?_⟩
  · generalize c.remaining = bytes at H
    cases H with
    | unterminated h => exact .inl ⟨rfl, h⟩
    | notAscii hne h => exact .inr ⟨rfl, _, _, rfl, List.forall_mem_ne'.mp hne, h⟩
  · obtain ⟨rfl, h⟩ | ⟨rfl, chars, rest, hrest, hne, h⟩ := h
    · exact .unterminated h
    · rw [hrest]
      exact .notAscii (List.forall_mem_ne'.mpr hne) h

theorem string_eq_endOfStream_iff : c.string.1 = .error .endOfStream ↔ 0 ∉ c.remaining := by
  simp [string_eq_error_iff_or]

theorem string_eq_invalidString_iff :
    c.string.1 = .error .invalidString ↔
      ∃ chars rest, c.remaining = chars ++ 0 :: rest ∧ 0 ∉ chars ∧ ∃ b ∈ chars, 0x7f < b.toNat := by
  simp [string_eq_error_iff_or]

/-- The two bytes are well-formed UTF-8. -/
example : (start [0xc3, 0xa9, 0x00]).string = (.error .invalidString, start [0xc3, 0xa9, 0x00]) := by
  decide

theorem error_of_string {e : DecodeError} (h : c.string.1 = .error e) :
    e = .endOfStream ∨ e = .invalidString :=
  (string_eq_error_iff_or.mp h).imp And.left And.left

/-- There is at most one string before a terminator. -/
theorem eq_of_terminated {chars' rest' : List UInt8} (hne : 0 ∉ chars) (hne' : 0 ∉ chars')
    (h : chars ++ 0 :: rest = chars' ++ 0 :: rest') : chars = chars' ∧ rest = rest' := by
  have hchars : chars = chars' := by
    rw [← takeWhile_ne_append (List.forall_mem_ne'.mpr hne) rest, h,
      takeWhile_ne_append (List.forall_mem_ne'.mpr hne') rest']
  subst hchars
  exact ⟨rfl, (List.cons.inj (List.append_cancel_left h)).2⟩

/-- Reading a string takes exactly the strings of ASCII characters other than zero that are ended by a
zero byte: the text has the bytes before the first zero byte, and the cursor goes past that byte. The
stream is too short just if there is no zero byte in the rest of it, and the string is invalid just if
there is one and a byte above `0x7f` before the first; it makes no difference whether those bytes are
UTF-8, because a text in UTF-8 that is not ASCII is refused as well. -/
theorem string_reads_terminated (c : Cursor) :
    (∀ (text : String) (c' : Cursor), c.string = (.ok text, c') ↔
      ∃ chars rest, c.remaining = chars ++ 0 :: rest ∧
        (∀ b ∈ chars, 0x01 ≤ b.toNat ∧ b.toNat ≤ 0x7f) ∧
        text.toUTF8 = chars.toByteArray ∧ c' = c.advance (chars.length + 1)) ∧
    (∀ chars : List UInt8, (∀ b ∈ chars, 0x01 ≤ b.toNat ∧ b.toNat ≤ 0x7f) →
      ∃! text, String.toUTF8 text = chars.toByteArray) ∧
    (∀ chars rest chars' rest' : List UInt8, c.remaining = chars ++ 0 :: rest → 0 ∉ chars →
      c.remaining = chars' ++ 0 :: rest' → 0 ∉ chars' → chars = chars' ∧ rest = rest') ∧
    (c.string.1 = .error .endOfStream ↔ 0 ∉ c.remaining) ∧
    (c.string.1 = .error .invalidString ↔ ∃ chars rest, c.remaining = chars ++ 0 :: rest ∧
      0 ∉ chars ∧ ∃ b ∈ chars, 0x7f < b.toNat) ∧
    (∀ e c', c.string = (.error e, c') → c' = c ∧ (e = .endOfStream ∨ e = .invalidString)) ∧
    ∀ chars rest : List UInt8, c.remaining = chars ++ 0 :: rest → 0 ∉ chars →
      c.string = ((String.fromUTF8? chars.toByteArray).filter Ascii.isAscii).elim
        (.error .invalidString, c) fun text => (.ok text, c.advance (chars.length + 1)) := by
  refine ⟨fun text c' => string_eq_ok_iff_terminated, fun chars h => ?_, ?_,
    string_eq_endOfStream_iff, string_eq_invalidString_iff,
    fun e c' h => ⟨c.string_failsInPlace e c' h, error_of_string (congrArg Prod.fst h)⟩,
    fun chars rest => string_eq_elim⟩
  · exact Ascii.existsUnique_toUTF8_eq fun b hb => Nat.lt_succ_of_le (h b hb).2
  · intro chars rest chars' rest' h hne h' hne'
    exact eq_of_terminated hne hne' (h.symm.trans h')

end Cursor

end AmlBytecode
