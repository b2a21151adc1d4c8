import Mathlib.Logic.Function.Basic

/-!
# Tables

A table has at most one entry under each key. What can be found in it once an entry has been
written, removed or changed is the entry in question, or stands under another key.
-/

namespace Table

variable {κ α : Type*} [DecidableEq κ] {table : κ → Option α} {a b : κ} {v w : α}

/-- Behind a write. -/
theorem of_update (h : Function.update table a (some v) b = some w) :
    b = a ∧ v = w ∨ b ≠ a ∧ table b = some w := by
  by_cases hb : b = a
  · rw [hb, Function.update_self] at h
    exact .inl ⟨hb, Option.some.inj h⟩
  · rw [Function.update_of_ne hb] at h
    exact .inr ⟨hb, h⟩

/-- Behind a removal. -/
theorem of_update_none (h : Function.update table a none b = some w) : b ≠ a ∧ table b = some w := by
  have hb : b ≠ a := by
    rintro rfl
    rw [Function.update_self] at h
    cases h
  rw [Function.update_of_ne hb] at h
  exact ⟨hb, h⟩

/-- Behind a change of the entry under a key. -/
theorem of_update_map {f : α → α} (h : Function.update table a ((table a).map f) b = some w) :
    ∃ v, table b = some v ∧ (b = a ∧ f v = w ∨ b ≠ a ∧ v = w) := by
  by_cases hb : b = a
  · subst hb
    rw [Function.update_self] at h
    obtain ⟨v, hv, hw⟩ := Option.map_eq_some_iff.mp h
    exact ⟨v, hv, .inl ⟨rfl, hw⟩⟩
  · rw [Function.update_of_ne hb] at h
    exact ⟨w, h, .inr ⟨hb, rfl⟩⟩

/-- What a change makes of an entry. -/
theorem exists_update_map {f : α → α} (h : table b = some v) :
    ∃ w, Function.update table a ((table a).map f) b = some w ∧
      (b = a ∧ f v = w ∨ b ≠ a ∧ v = w) := by
  by_cases hb : b = a
  · subst hb
    refine ⟨f v, ?_, .inl ⟨rfl, rfl⟩⟩
    rw [Function.update_self, h, Option.map_some]
  · refine ⟨v, ?_, .inr ⟨hb, rfl⟩⟩
    rw [Function.update_of_ne hb, h]

end Table
