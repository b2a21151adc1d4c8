import GuacamoleDiode.Lib.Decimal

/-!
# Padded base64

The text that a sender makes of binary payload: four characters for three bytes, the last
group filled up with padding.

## Main results

- `length_base64`: the number of characters
- `fits_base64`: the text is ASCII
-/

namespace Wire

/-- The characters of the base64 alphabet, by their value. -/
def base64Alphabet : Bytes :=
  ascii "ABCDEFGHIJKLMNOPQRSTUVWXYZabcdefghijklmnopqrstuvwxyz0123456789+/"

/-- The character of a six-bit value. -/
def base64Char (n : ℕ) : UInt8 := base64Alphabet.getD n 0

/-- The byte that fills up the last group. -/
abbrev padding : UInt8 := 61

/-- The padded base64 encoding of a byte string. -/
def base64 : Bytes → Bytes
  | [] => []
  | [a] =>
    [base64Char (a.toNat / 4), base64Char (a.toNat % 4 * 16), padding, padding]
  | [a, b] =>
    [base64Char (a.toNat / 4), base64Char (a.toNat % 4 * 16 + b.toNat / 16),
      base64Char (b.toNat % 16 * 4), padding]
  | a :: b :: c :: bytes =>
    base64Char (a.toNat / 4) :: base64Char (a.toNat % 4 * 16 + b.toNat / 16) ::
      base64Char (b.toNat % 16 * 4 + c.toNat / 64) :: base64Char (c.toNat % 64) :: base64 bytes

/-- Four characters for every three bytes begun. -/
theorem length_base64 (bytes : Bytes) : (base64 bytes).length = (bytes.length + 2) / 3 * 4 := by
  fun_induction base64 bytes with
  | case1 => rfl
  | case2 => simp
  | case3 => simp
  | case4 a b c bytes ih =>
    simp only [List.length_cons, ih]
    omega

theorem base64Char_le (n : ℕ) : base64Char n ≤ 127 := by
  have halphabet : ∀ c ∈ base64Alphabet, c ≤ 127 := by
    rw [base64Alphabet, ascii_ofList]
    decide +kernel
  rw [base64Char, List.getD_eq_getElem?_getD]
  cases h : base64Alphabet[n]? with
  | none => decide
  | some c => exact halphabet c (List.mem_of_getElem? h)

theorem padding_le : padding ≤ 127 := by decide

theorem base64_le (bytes : Bytes) : ∀ c ∈ base64 bytes, c ≤ 127 := by
  fun_induction base64 bytes with
  | case1 => simp
  | case2 a => simp [base64Char_le, padding_le]
  | case3 a b => simp [base64Char_le, padding_le]
  | case4 a b c bytes ih => simpa [base64Char_le] using ih

/-- The encoding is text of the given length. -/
theorem fits_base64 {limit : ℕ} {bytes : Bytes} (h : (bytes.length + 2) / 3 * 4 ≤ limit) :
    Fits limit (base64 bytes) := by
  refine ⟨?_, base64_le bytes⟩
  rwa [length_base64]

/-- The test vectors of the encoding. -/
example : base64 (ascii "f") = ascii "Zg==" ∧ base64 (ascii "fo") = ascii "Zm8=" ∧
    base64 (ascii "foobar") = ascii "Zm9vYmFy" := by decide

end Wire
