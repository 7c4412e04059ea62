import GrammarTrace.Proofs.Lines

/-!
# The lines of encoded texts

In UTF-8 a line feed is a byte of its own, and so is a carriage return; no other character has such
a byte. So the bytes of a text are cut into lines where the text is cut, and decoding each of these
lines gives a line of the text (`Text.byteLines_toUTF8`, `Text.decode?_encode`).
-/

namespace GrammarTrace.Text

/-- The bytes that encode characters in UTF-8. -/
def encode (chars : List Char) : List UInt8 := chars.flatMap String.utf8EncodeChar

variable {chars : List Char} {bytes : List UInt8} {byte : UInt8} {c d : Char}

/-! ### Bytes -/

lemma toList_loop_eq (array : ByteArray) (i : Nat) (done : List UInt8) :
    ByteArray.toList.loop array i done = done.reverse ++ array.data.toList.drop i := by
  fun_induction ByteArray.toList.loop array i done with
  | case1 i done h ih =>
    have hi : i < array.data.toList.length := by simpa using h
    rw [ih, List.drop_eq_getElem_cons hi]
    simp [ByteArray.get!, h]
  | case2 i done h =>
    rw [List.drop_eq_nil_of_le (by simpa using Nat.le_of_not_lt h), List.append_nil]

lemma toList_eq (array : ByteArray) : array.toList = array.data.toList := by
  rw [ByteArray.toList, toList_loop_eq, List.reverse_nil, List.nil_append, List.drop_zero]

lemma toList_toByteArray (bytes : List UInt8) : bytes.toByteArray.toList = bytes := by
  rw [toList_eq, List.toList_data_toByteArray]

/-! ### Characters -/

/-- A byte below 128 is the code of the character that it encodes. -/
lemma toNat_eq_of_mem (h : byte ∈ String.utf8EncodeChar c) (hbyte : byte.toNat < 128) :
    c.toNat = byte.toNat := by
  have hc : c.val.toNat = c.toNat := rfl
  rw [String.utf8EncodeChar] at h
  split_ifs at h with hone htwo hthree
  · rw [List.mem_singleton.mp h, UInt8.toNat_ofNat', hc]
    omega
  · -- every byte of a longer encoding is at least 128
    simp only [List.mem_cons, List.not_mem_nil, or_false] at h
    rcases h with rfl | rfl <;> rw [UInt8.toNat_ofNat'] at hbyte <;> omega
  · simp only [List.mem_cons, List.not_mem_nil, or_false] at h
    rcases h with rfl | rfl | rfl <;> rw [UInt8.toNat_ofNat'] at hbyte <;> omega
  · simp only [List.mem_cons, List.not_mem_nil, or_false] at h
    rcases h with rfl | rfl | rfl | rfl <;> rw [UInt8.toNat_ofNat'] at hbyte <;> omega

lemma feed_not_mem_utf8EncodeChar (h : c ≠ '\n') : 0x0a ∉ String.utf8EncodeChar c :=
  fun hmem => h (Char.toNat_inj.mp (toNat_eq_of_mem hmem (by decide)))

lemma carriage_not_mem_utf8EncodeChar (h : c ≠ '\r') : 0x0d ∉ String.utf8EncodeChar c :=
  fun hmem => h (Char.toNat_inj.mp (toNat_eq_of_mem hmem (by decide)))

/-! ### Texts -/

lemma decode?_eq_some_iff : decode? bytes = some chars ↔ encode chars = bytes := by
  constructor
  · intro h
    obtain ⟨array, harray, rfl⟩ := Option.map_eq_some_iff.mp h
    have hencode : array.toList.utf8Encode = bytes.toByteArray := by
      have hsome : bytes.toByteArray.utf8Decode?.isSome = true := by simp [harray]
      have hget := ByteArray.utf8Encode_get_utf8Decode? (h := hsome)
      rwa [Option.get_of_eq_some hsome harray] at hget
    rw [← toList_toByteArray bytes, ← hencode, List.utf8Encode, toList_toByteArray, encode]
  · rintro rfl
    have hdecode : (encode chars).toByteArray.utf8Decode? = some chars.toArray :=
      List.utf8Decode?_utf8Encode
    rw [decode?, hdecode, Option.map_some, List.toList_toArray]

lemma toList_toUTF8 (source : String) : source.toUTF8.toList = encode source.toList := by
  rw [String.toUTF8_eq_toByteArray, ← String.utf8Encode_toList, List.utf8Encode,
    toList_toByteArray, encode]

/-- The bytes of a text are cut into lines where the text is. -/
theorem byteLines_toUTF8 (source : String) :
    byteLines source.toUTF8 = (lines source).map encode := by
  rw [byteLines, toList_toUTF8]
  exact cutLines_flatMap (by decide) (fun _ => feed_not_mem_utf8EncodeChar) (by decide)
    (fun _ => carriage_not_mem_utf8EncodeChar) (fun _ => String.utf8EncodeChar_ne_nil) _

end GrammarTrace.Text
