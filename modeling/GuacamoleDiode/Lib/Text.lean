import GuacamoleDiode.Lib.Wire
import Mathlib.Data.List.Basic

/-!
# Texts and their bytes

A text is a list of characters, and its bytes are its encoding in UTF-8. Texts with the same bytes
are equal, so that bytes which begin with those of a text belong to a text with that beginning. The
bytes of an ASCII text are its characters one by one.

## Main results

- `utf8_injective`
- `exists_of_utf8_append`: where an ASCII text splits when its bytes do
-/

namespace GuacamoleDiode

open Wire

/-- The bytes of a text. -/
def utf8 (text : List Char) : Bytes := text.flatMap String.utf8EncodeChar

@[simp] theorem utf8_nil : utf8 [] = [] := rfl

@[simp] theorem utf8_append (s t : List Char) : utf8 (s ++ t) = utf8 s ++ utf8 t :=
  List.flatMap_append

/-- The text of some bytes, if there is one. -/
def decodeUtf8 (w : Bytes) : Option (List Char) := w.toByteArray.utf8Decode?.map Array.toList

@[simp] theorem decodeUtf8_utf8 (text : List Char) : decodeUtf8 (utf8 text) = some text := by
  have hencode : (utf8 text).toByteArray = text.utf8Encode := rfl
  rw [decodeUtf8, hencode, List.utf8Decode?_utf8Encode, Option.map_some, List.toList_toArray]

theorem utf8_injective : Function.Injective utf8 := by
  intro s t h
  have hs := decodeUtf8_utf8 s
  rw [h, decodeUtf8_utf8] at hs
  exact (Option.some.inj hs).symm

/-- The byte of an ASCII character. -/
def byteOf (c : Char) : UInt8 := c.toNat.toUInt8

theorem toNat_byteOf {c : Char} (hc : c.toNat ≤ 127) : (byteOf c).toNat = c.toNat := by
  show c.toNat % 256 = c.toNat
  omega

/-- The bytes of an ASCII text are its characters. -/
theorem utf8_eq_map {text : List Char} (h : ∀ c ∈ text, c.toNat ≤ 127) :
    utf8 text = text.map byteOf := by
  induction text with
  | nil => rfl
  | cons c text ih =>
    have hc : c.toNat ≤ 127 := h c List.mem_cons_self
    have hsize : c.utf8Size = 1 := Char.utf8Size_eq_one_iff.mpr (UInt32.le_iff_toNat_le.mpr hc)
    have hrest := ih fun d hd => h d (List.mem_cons_of_mem c hd)
    rw [utf8] at hrest
    rw [utf8, List.flatMap_cons, String.utf8EncodeChar_eq_singleton hsize, hrest]
    rfl

theorem utf8_of_ascii {text : List Char} (h : ∀ c ∈ text, c.toNat ≤ 127) :
    (utf8 text).length = text.length ∧ ∀ b ∈ utf8 text, b ≤ 127 := by
  rw [utf8_eq_map h]
  refine ⟨List.length_map byteOf, fun b hb => ?_⟩
  obtain ⟨c, hc, rfl⟩ := List.mem_map.mp hb
  rw [UInt8.le_iff_toNat_le, toNat_byteOf (h c hc)]
  exact h c hc

/-- Where the bytes of an ASCII text split, the text does. -/
theorem exists_of_utf8_append {text : List Char} (h : ∀ c ∈ text, c.toNat ≤ 127) {a b : Bytes}
    (hsplit : utf8 text = a ++ b) : ∃ s t, text = s ++ t ∧ utf8 s = a ∧ utf8 t = b := by
  rw [utf8_eq_map h, List.map_eq_append_iff] at hsplit
  obtain ⟨s, t, rfl, hs, ht⟩ := hsplit
  refine ⟨s, t, rfl, ?_, ?_⟩
  · rw [utf8_eq_map fun c hc => h c (List.mem_append_left t hc), hs]
  · rw [utf8_eq_map fun c hc => h c (List.mem_append_right s hc), ht]

/-- An ASCII text begins with a text if its bytes begin with the bytes of that text. -/
theorem exists_of_utf8_append_utf8 {text s : List Char} (h : ∀ c ∈ text, c.toNat ≤ 127) {b : Bytes}
    (hsplit : utf8 text = utf8 s ++ b) : ∃ t, text = s ++ t ∧ utf8 t = b := by
  obtain ⟨s', t, htext, hs, ht⟩ := exists_of_utf8_append h hsplit
  exact ⟨t, by rw [htext, utf8_injective hs], ht⟩

end GuacamoleDiode
