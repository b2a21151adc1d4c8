import GuacamoleDiode.Lib.Wire
import Mathlib.Algebra.Group.Nat.Defs

/-!
# Elements from values

A length prefix in decimal notation without leading zeros, and the element and the
instruction that a writer makes of given values.
-/

namespace Wire

variable {limit : ℕ}

/-- Decimal notation, as `std::to_string` writes it. -/
def decimal (n : ℕ) : Bytes := (Nat.toDigits 10 n).map fun c => c.toNat.toUInt8

theorem decimal_ne_nil (n : ℕ) : decimal n ≠ [] := by
  simp [decimal, Nat.toDigits_ne_nil]

/-- The byte of a digit. -/
theorem digitChar_byte {n : ℕ} (h : n < 10) :
    isDigit n.digitChar.toNat.toUInt8 = true ∧ digitValue n.digitChar.toNat.toUInt8 = n := by
  have hall : ∀ k < 10, isDigit (Nat.digitChar k).toNat.toUInt8 = true ∧
      digitValue (Nat.digitChar k).toNat.toUInt8 = k := by decide
  exact hall n h

theorem decimal_eq_if (n : ℕ) :
    decimal n = if n < 10 then [n.digitChar.toNat.toUInt8]
      else decimal (n / 10) ++ [(n % 10).digitChar.toNat.toUInt8] := by
  rw [decimal, Nat.toDigits_eq_if (by decide)]
  split_ifs <;> simp [decimal]

theorem isDigit_of_mem_decimal {n : ℕ} {c : UInt8} (h : c ∈ decimal n) : isDigit c = true := by
  induction n using Nat.strong_induction_on with
  | _ n ih =>
    rw [decimal_eq_if] at h
    split_ifs at h with hn
    · rw [List.mem_singleton] at h
      exact h ▸ (digitChar_byte hn).1
    · rcases List.mem_append.mp h with h | h
      · exact ih (n / 10) (by omega) h
      · rw [List.mem_singleton] at h
        exact h ▸ (digitChar_byte (Nat.mod_lt n (by decide))).1

/-- Decimal notation declares the number it was written for. -/
theorem declared_decimal (n : ℕ) : declared (decimal n) = n := by
  induction n using Nat.strong_induction_on with
  | _ n ih =>
    rw [decimal_eq_if]
    split_ifs with hn
    · simpa [declared] using (digitChar_byte hn).2
    · rw [declared_append_singleton, ih (n / 10) (by omega),
        (digitChar_byte (Nat.mod_lt n (by decide))).2]
      omega

/-- A number below `10 ^ k` has at most `k` digits. -/
theorem length_decimal_le {n k : ℕ} (hk : 0 < k) (h : n < 10 ^ k) : (decimal n).length ≤ k := by
  induction k generalizing n with
  | zero => cases hk
  | succ k ih =>
    rw [decimal_eq_if]
    split_ifs with hn
    · exact Nat.succ_le_succ (Nat.zero_le k)
    · have hk' : 0 < k := by
        apply Nat.pos_of_ne_zero
        rintro rfl
        exact hn h
      have hlt : n / 10 < 10 ^ k := by
        rw [Nat.pow_succ] at h
        omega
      rw [List.length_append]
      exact Nat.succ_le_succ (ih hk' hlt)

/-- A value that fits into an element. -/
def Fits (limit : ℕ) (v : Bytes) : Prop := v.length ≤ limit ∧ ∀ b ∈ v, b ≤ 127

instance (limit : ℕ) (v : Bytes) : Decidable (Fits limit v) :=
  inferInstanceAs (Decidable (_ ∧ _))

theorem Fits.mono {m n : ℕ} {v : Bytes} (h : Fits m v) (hle : m ≤ n) : Fits n v :=
  ⟨h.1.trans hle, h.2⟩

theorem Fits.append {m n : ℕ} {v w : Bytes} (hv : Fits m v) (hw : Fits n w) : Fits (m + n) (v ++ w) := by
  refine ⟨?_, fun b hb => ?_⟩
  · rw [List.length_append]
    exact Nat.add_le_add hv.1 hw.1
  · exact (List.mem_append.mp hb).elim (hv.2 b) (hw.2 b)

/-- The element of a value. -/
def Element.ofValue (v : Bytes) (h : Fits limit v) : Element limit where
  digits := decimal v.length
  value := v
  digits_ne_nil := decimal_ne_nil _
  digits_isDigit := fun _ hd => isDigit_of_mem_decimal hd
  declared_eq := declared_decimal _
  length_le := h.1
  value_ascii := h.2

/-- The instruction of an opcode and its arguments. -/
def Instruction.ofValues (vs : List Bytes) (hne : vs ≠ []) (h : ∀ v ∈ vs, Fits limit v) :
    Instruction limit where
  elements := vs.pmap Element.ofValue h
  elements_ne_nil := by simp [hne]

@[simp] theorem Instruction.values_ofValues (vs : List Bytes) (hne : vs ≠ [])
    (h : ∀ v ∈ vs, Fits limit v) : (Instruction.ofValues vs hne h).values = vs := by
  simp [Instruction.values, Instruction.ofValues, List.map_pmap, Element.ofValue]

end Wire
