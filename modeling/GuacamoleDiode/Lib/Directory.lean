import GuacamoleDiode.Lib.Tables

/-!
# Directories

A directory says under each key which member is to be found there. It is kept beside the
members themselves, which know their keys, and `Lists` says that the two agree: the
directory lists exactly the members that satisfy a predicate. The lemmas say how both have
to change together.
-/

namespace Directory

variable {κ ι α : Type*} {key : α → κ} {P Q : ι → α → Prop} {dir : κ → Option ι}
  {members : ι → Option α}

/-- The directory lists exactly the members that satisfy `P`, each under its key. -/
def Lists (dir : κ → Option ι) (members : ι → Option α) (key : α → κ) (P : ι → α → Prop) : Prop :=
  ∀ k i, dir k = some i ↔ ∃ a, members i = some a ∧ key a = k ∧ P i a

/-- Two members are not listed under one key. -/
theorem Lists.unique (h : Lists dir members key P) {i j : ι} {a b : α} (ha : members i = some a)
    (hb : members j = some b) (hk : key a = key b) (hpa : P i a) (hpb : P j b) : i = j := by
  have hi := (h (key a) i).mpr ⟨a, ha, rfl, hpa⟩
  have hj := (h (key a) j).mpr ⟨b, hb, hk.symm, hpb⟩
  exact Option.some.inj (hi.symm.trans hj)

section

variable [DecidableEq ι] {i : ι} {a b : α}

/-- The members other than `i`, where the predicates agree. -/
theorem exists_update {k : κ} {j : ι} (hj : j ≠ i)
    (hPQ : ∀ j x, j ≠ i → members j = some x → (P j x ↔ Q j x)) :
    (∃ x, Function.update members i (some b) j = some x ∧ key x = k ∧ Q j x) ↔
      ∃ x, members j = some x ∧ key x = k ∧ P j x := by
  rw [Function.update_of_ne hj]
  constructor
  · rintro ⟨x, hx, hk, hq⟩
    exact ⟨x, hx, hk, (hPQ j x hj hx).mpr hq⟩
  · rintro ⟨x, hx, hk, hp⟩
    exact ⟨x, hx, hk, (hPQ j x hj hx).mp hp⟩

theorem exists_update_self {R : α → Prop} :
    (∃ x, Function.update members i (some b) i = some x ∧ R x) ↔ R b := by
  simp

/-- A member changes, and stays where it is. -/
theorem Lists.keep (h : Lists dir members key P)
    (hPQ : ∀ j x, j ≠ i → members j = some x → (P j x ↔ Q j x)) (ha : members i = some a)
    (hk : key b = key a) (hp : Q i b ↔ P i a) :
    Lists dir (Function.update members i (some b)) key Q := by
  intro k j
  by_cases hj : j = i
  · subst hj
    rw [h k j, exists_update_self, hk, hp]
    simp [ha]
  · rw [h k j, exists_update hj hPQ]

/-- A new member that is not listed. -/
theorem Lists.skip (h : Lists dir members key P)
    (hPQ : ∀ j x, j ≠ i → members j = some x → (P j x ↔ Q j x)) (hnew : members i = none)
    (hp : ¬Q i b) : Lists dir (Function.update members i (some b)) key Q := by
  intro k j
  by_cases hj : j = i
  · subst hj
    rw [h k j, exists_update_self]
    simp [hnew, hp]
  · rw [h k j, exists_update hj hPQ]

variable [DecidableEq κ]

/-- A member is listed under its key, where no other one is. -/
theorem Lists.add (h : Lists dir members key P)
    (hPQ : ∀ j x, j ≠ i → members j = some x → (P j x ↔ Q j x))
    (hold : ∀ a, members i = some a → key a = key b) (hp : Q i b)
    (hfree : ∀ j x, members j = some x → key x = key b → P j x → j = i) :
    Lists (Function.update dir (key b) (some i)) (Function.update members i (some b)) key Q := by
  intro k j
  by_cases hj : j = i
  · subst hj
    rw [exists_update_self]
    by_cases hk : k = key b
    · subst hk
      simp [hp]
    · rw [Function.update_of_ne hk, h k j]
      constructor
      · rintro ⟨x, hx, hkx, -⟩
        exact absurd (hkx.symm.trans (hold x hx)) hk
      · rintro ⟨hkb, -⟩
        exact absurd hkb.symm hk
  · rw [exists_update hj hPQ]
    by_cases hk : k = key b
    · subst hk
      rw [Function.update_self]
      constructor
      · intro heq
        exact absurd (Option.some.inj heq).symm hj
      · rintro ⟨x, hx, hkx, hpx⟩
        exact absurd (hfree j x hx hkx hpx) hj
    · rw [Function.update_of_ne hk, h k j]

/-- A member is taken off its key. -/
theorem Lists.remove (h : Lists dir members key P) (ha : members i = some a) (hp : ¬P i b)
    (honly : ∀ j x, members j = some x → key x = key a → P j x → j = i) :
    Lists (Function.update dir (key a) none) (Function.update members i (some b)) key P := by
  intro k j
  by_cases hj : j = i
  · subst hj
    rw [exists_update_self]
    constructor
    · intro hdir
      by_cases hkk : k = key a
      · subst hkk
        simp at hdir
      · rw [Function.update_of_ne hkk, h k j] at hdir
        obtain ⟨x, hx, hkx, -⟩ := hdir
        cases ha.symm.trans hx
        exact absurd hkx.symm hkk
    · rintro ⟨-, hpb⟩
      exact absurd hpb hp
  · rw [exists_update hj fun _ _ _ _ => Iff.rfl]
    by_cases hkk : k = key a
    · subst hkk
      rw [Function.update_self]
      constructor
      · intro hdir
        cases hdir
      · rintro ⟨x, hx, hkx, hpx⟩
        exact absurd (honly j x hx hkx hpx) hj
    · rw [Function.update_of_ne hkk, h k j]

end

end Directory
