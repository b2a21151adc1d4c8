import GuacamoleDiode.Lib.Tables
import Mathlib.Data.List.Basic
import Mathlib.Data.Set.Insert
import Mathlib.Logic.Function.Basic

/-!
# Custody of descriptors

One thread opens files and gives each of them to a worker, by way of a table under whose keys
the descriptors can be found again. Whoever has a file in the end closes it: the opener where it
cannot enter the file in the table, and otherwise the worker. The opener may use a descriptor
that it has taken out of the table, although the worker may have closed it by then. A number
is free again as soon as its descriptor is closed.

Files are numbered in the order in which they are opened, so that a number which is used
again stands for another file.

## Main definitions

- `Custody`: the files, who has them, and what has become of them
- `Custody.Step`: what the threads can do
- `Custody.Wf`: every open file is in the hands of one thread

## Main results

- `Custody.Wf.closed_once`: a file is closed by the one thread that has it, or still open
- `Custody.Wf.taken`: a descriptor that has been taken is that of the same file, or closed
-/

/-- What the opener has in its hands. -/
inductive Custody.Hand where
  | empty
  /-- a file that it has opened and not given away -/
  | fresh (fd k : ℕ)
  /-- a descriptor out of the table, and its file -/
  | taken (fd k : ℕ)

/-- The files, who has them, and what has become of them. -/
@[ext]
structure Custody (κ θ : Type*) where
  /-- the file behind each open descriptor -/
  files : ℕ → Option ℕ := fun _ => none
  /-- the descriptors of all files that have been opened, in order -/
  opened : List ℕ := []
  hand : Custody.Hand := .empty
  /-- the descriptors of the workers, which have the numbers of their files -/
  workers : ℕ → Option ℕ := fun _ => none
  /-- the descriptors that can be found, and their files -/
  table : κ → Option (ℕ × ℕ) := fun _ => none
  /-- the files that have been given to a worker -/
  given : Set ℕ := ∅
  /-- who has closed each file -/
  closers : ℕ → List θ := fun _ => []

namespace Custody

variable {κ θ : Type*} [DecidableEq κ]

/-- A thread closes a descriptor, and with it the file behind it. -/
def closed (s : Custody κ θ) (fd : ℕ) (who : θ) : ℕ → List θ :=
  match s.files fd with
  | none => s.closers
  | some k => Function.update s.closers k (s.closers k ++ [who])

/-- What the threads can do. -/
inductive Step (opener : θ) (worker : ℕ → θ) (s : Custody κ θ) : Custody κ θ → Prop where
  | stay : Step opener worker s s
  | opens (fd : ℕ) (free : s.files fd = none) (hand : s.hand = .empty) :
      Step opener worker s
        { s with
          files := Function.update s.files fd (some s.opened.length)
          opened := s.opened ++ [fd]
          hand := .fresh fd s.opened.length }
  | gives (c : κ) (fd k : ℕ) (hand : s.hand = .fresh fd k) :
      Step opener worker s
        { s with
          hand := .empty
          workers := Function.update s.workers k (some fd)
          table := Function.update s.table c (some (fd, k))
          given := insert k s.given }
  /-- the opener closes what it has not given away -/
  | rejects (fd k : ℕ) (hand : s.hand = .fresh fd k) :
      Step opener worker s
        { s with
          files := Function.update s.files fd none
          hand := .empty
          closers := s.closed fd opener }
  /-- a worker closes its file when the table does not have it any more -/
  | closes (fd k : ℕ) (working : s.workers k = some fd) (unlisted : ∀ c, s.table c ≠ some (fd, k)) :
      Step opener worker s
        { s with
          files := Function.update s.files fd none
          workers := Function.update s.workers k none
          closers := s.closed fd (worker k) }
  | takes (c : κ) (fd k : ℕ) (hand : s.hand = .empty) (listed : s.table c = some (fd, k)) :
      Step opener worker s { s with hand := .taken fd k }
  | removes (c : κ) : Step opener worker s { s with table := Function.update s.table c none }
  /-- the opener takes a descriptor and removes it from the table at once -/
  | pulls (c : κ) (fd k : ℕ) (hand : s.hand = .empty) (listed : s.table c = some (fd, k)) :
      Step opener worker s
        { s with hand := .taken fd k, table := Function.update s.table c none }
  /-- the opener is done with a descriptor -/
  | drops (fd k : ℕ) (hand : s.hand = .taken fd k) : Step opener worker s { s with hand := .empty }

theorem Step.congr {opener : θ} {worker : ℕ → θ} {s t t' : Custody κ θ}
    (h : Step opener worker s t) (ht : t = t') : Step opener worker s t' := ht ▸ h

/-- Every open file is in the hands of one thread, and every other one has been closed by the
thread that had it. -/
structure Wf (opener : θ) (worker : ℕ → θ) (s : Custody κ θ) : Prop where
  fresh : ∀ fd k, s.hand = .fresh fd k → s.files fd = some k ∧ k ∉ s.given
  working : ∀ k fd, s.workers k = some fd → s.files fd = some k ∧ k ∈ s.given
  listed : ∀ c fd k, s.table c = some (fd, k) → s.workers k = some fd
  taken : ∀ fd k, s.hand = .taken fd k →
    s.opened[k]? = some fd ∧ (s.files fd = some k ∨ s.files fd = none)
  opened : ∀ fd k, s.files fd = some k → s.opened[k]? = some fd ∧ s.closers k = [] ∧
    (s.hand = .fresh fd k ∨ s.workers k = some fd)
  closed : ∀ fd k, s.opened[k]? = some fd → s.files fd ≠ some k →
    s.closers k = [opener] ∧ k ∉ s.given ∨ s.closers k = [worker k] ∧ k ∈ s.given
  unused : ∀ k, s.opened.length ≤ k → s.closers k = [] ∧ k ∉ s.given

section

variable {opener : θ} {worker : ℕ → θ} {s s' : Custody κ θ} {fd k : ℕ}

omit [DecidableEq κ] in
theorem wf_init : Wf opener worker ({} : Custody κ θ) := by
  refine ⟨?_, ?_, ?_, ?_, ?_, ?_, ?_⟩ <;> simp

omit [DecidableEq κ] in
/-- A file is closed by the one thread that has it, or still open. -/
theorem Wf.closed_once (h : Wf opener worker s) (hk : s.opened[k]? = some fd) :
    s.closers k = [] ∧ s.files fd = some k ∧ (s.hand = .fresh fd k ∨ s.workers k = some fd) ∨
      s.closers k = [opener] ∧ k ∉ s.given ∨ s.closers k = [worker k] ∧ k ∈ s.given := by
  by_cases hfile : s.files fd = some k
  · obtain ⟨-, hclosers, howner⟩ := h.opened fd k hfile
    exact .inl ⟨hclosers, hfile, howner⟩
  · exact .inr (h.closed fd k hk hfile)

omit [DecidableEq κ] in
/-- An open file has a number that has been given out. -/
theorem Wf.lt_of_file (h : Wf opener worker s) (hfile : s.files fd = some k) :
    k < s.opened.length :=
  (List.getElem?_eq_some_iff.mp (h.opened fd k hfile).1).1

omit [DecidableEq κ] in
theorem Wf.opens (h : Wf opener worker s) (hfree : s.files fd = none) (hempty : s.hand = .empty) :
    Wf opener worker { s with
      files := Function.update s.files fd (some s.opened.length)
      opened := s.opened ++ [fd]
      hand := .fresh fd s.opened.length } := by
  obtain ⟨hclosers, hgiven⟩ := h.unused s.opened.length le_rfl
  have hother : ∀ {fd' k'}, s.files fd' = some k' →
      Function.update s.files fd (some s.opened.length) fd' = some k' := by
    intro fd' k' hfd'
    have hne : fd' ≠ fd := by
      rintro rfl
      cases hfree.symm.trans hfd'
    rw [Function.update_of_ne hne, hfd']
  refine ⟨?_, ?_, h.listed, ?_, ?_, ?_, ?_⟩ <;> dsimp only
  · intro fd' k' hhand
    cases hhand
    exact ⟨Function.update_self .., hgiven⟩
  · intro k' fd' hk'
    obtain ⟨hfile, hmem⟩ := h.working k' fd' hk'
    exact ⟨hother hfile, hmem⟩
  · intro fd' k' hhand
    cases hhand
  · intro fd' k' hfile
    obtain ⟨rfl, rfl⟩ | ⟨hfd', hfile⟩ := Table.of_update hfile
    · exact ⟨List.getElem?_concat_length, hclosers, .inl rfl⟩
    · obtain ⟨hk', hnone, howner⟩ := h.opened fd' k' hfile
      refine ⟨List.getElem?_append_left (h.lt_of_file hfile) ▸ hk', hnone, .inr ?_⟩
      refine howner.resolve_left fun hfresh => ?_
      cases hempty.symm.trans hfresh
  · intro fd' k' hk' hfile
    rcases Nat.lt_or_ge k' s.opened.length with hlt | hge
    · rw [List.getElem?_append_left hlt] at hk'
      exact h.closed fd' k' hk' fun hfile' => hfile (hother hfile')
    · have hlt : k' < (s.opened ++ [fd]).length := (List.getElem?_eq_some_iff.mp hk').1
      obtain rfl : k' = s.opened.length := by
        simp only [List.length_append, List.length_singleton] at hlt
        omega
      rw [List.getElem?_concat_length] at hk'
      obtain rfl := Option.some.inj hk'
      exact absurd (Function.update_self ..) hfile
  · intro k' hk'
    refine h.unused k' ?_
    simp only [List.length_append, List.length_singleton] at hk'
    omega

theorem Wf.gives (h : Wf opener worker s) (c : κ) (hhand : s.hand = .fresh fd k) :
    Wf opener worker { s with
      hand := .empty
      workers := Function.update s.workers k (some fd)
      table := Function.update s.table c (some (fd, k))
      given := insert k s.given } := by
  obtain ⟨hfile, hgiven⟩ := h.fresh fd k hhand
  have hnone : ∀ fd', s.workers k ≠ some fd' := fun fd' hk => hgiven (h.working k fd' hk).2
  have hother : ∀ {k' fd'}, s.workers k' = some fd' →
      Function.update s.workers k (some fd) k' = some fd' := by
    intro k' fd' hk'
    have hne : k' ≠ k := by
      rintro rfl
      exact hnone fd' hk'
    rw [Function.update_of_ne hne, hk']
  refine ⟨?_, ?_, ?_, ?_, ?_, ?_, ?_⟩ <;> dsimp only
  · intro fd' k' hempty
    cases hempty
  · intro k' fd' hk'
    obtain ⟨rfl, rfl⟩ | ⟨hkk, hk'⟩ := Table.of_update hk'
    · exact ⟨hfile, Set.mem_insert ..⟩
    · obtain ⟨hfile', hmem⟩ := h.working k' fd' hk'
      exact ⟨hfile', Set.mem_insert_of_mem _ hmem⟩
  · intro c' fd' k' hc'
    obtain ⟨-, heq⟩ | ⟨-, hc'⟩ := Table.of_update hc'
    · cases heq
      exact Function.update_self ..
    · exact hother (h.listed c' fd' k' hc')
  · intro fd' k' hempty
    cases hempty
  · intro fd' k' hfile'
    obtain ⟨hk', hclosers, howner⟩ := h.opened fd' k' hfile'
    refine ⟨hk', hclosers, .inr ?_⟩
    rcases howner with hfresh | hworker
    · cases hhand.symm.trans hfresh
      exact Function.update_self ..
    · exact hother hworker
  · intro fd' k' hk' hfile'
    have hkk : k' ≠ k := by
      rintro rfl
      obtain rfl := Option.some.inj ((h.opened fd k' hfile).1.symm.trans hk')
      exact hfile' hfile
    rcases h.closed fd' k' hk' hfile' with ⟨hclosers, hmem⟩ | ⟨hclosers, hmem⟩
    · exact .inl ⟨hclosers, fun hins => hmem (hins.resolve_left hkk)⟩
    · exact .inr ⟨hclosers, Set.mem_insert_of_mem _ hmem⟩
  · intro k' hk'
    obtain ⟨hclosers, hmem⟩ := h.unused k' hk'
    refine ⟨hclosers, fun hins => hmem (hins.resolve_left ?_)⟩
    have hlt := h.lt_of_file hfile
    omega

omit [DecidableEq κ] in
/-- A thread closes the file that it has, and does not have it any more. -/
theorem Wf.closes (h : Wf opener worker s) (hfile : s.files fd = some k) {who : θ} {hand : Hand}
    (hwho : who = opener ∧ k ∉ s.given ∨ who = worker k ∧ k ∈ s.given)
    (hfresh : ∀ fd' k', hand = .fresh fd' k' ↔ s.hand = .fresh fd' k' ∧ k' ≠ k)
    (htaken : ∀ fd' k', hand = .taken fd' k' → s.hand = .taken fd' k')
    (hunlisted : ∀ c, s.table c ≠ some (fd, k)) :
    Wf opener worker { s with
      files := Function.update s.files fd none
      hand := hand
      workers := Function.update s.workers k none
      closers := s.closed fd who } := by
  have hclosed : s.closed fd who = Function.update s.closers k [who] := by
    simp only [Custody.closed, hfile, (h.opened fd k hfile).2.1, List.nil_append]
  have hother : ∀ {fd' k'}, s.files fd' = some k' → k' ≠ k →
      Function.update s.files fd none fd' = some k' := by
    intro fd' k' hfd' hkk
    have hne : fd' ≠ fd := by
      rintro rfl
      exact hkk (Option.some.inj (hfd'.symm.trans hfile))
    rw [Function.update_of_ne hne, hfd']
  have hopen : ∀ {fd' k'}, Function.update s.files fd none fd' = some k' →
      s.files fd' = some k' ∧ k' ≠ k := by
    intro fd' k' hfd'
    obtain ⟨hne, hfd'⟩ := Table.of_update_none hfd'
    refine ⟨hfd', ?_⟩
    rintro rfl
    have hsame := (h.opened fd' k' hfd').1.symm.trans (h.opened fd k' hfile).1
    exact hne (Option.some.inj hsame)
  rw [hclosed]
  refine ⟨?_, ?_, ?_, ?_, ?_, ?_, ?_⟩ <;> dsimp only
  · intro fd' k' hhand
    obtain ⟨hhand', hkk⟩ := (hfresh fd' k').mp hhand
    obtain ⟨hfile', hmem⟩ := h.fresh fd' k' hhand'
    exact ⟨hother hfile' hkk, hmem⟩
  · intro k' fd' hk'
    obtain ⟨hkk, hk'⟩ := Table.of_update_none hk'
    obtain ⟨hfile', hmem⟩ := h.working k' fd' hk'
    exact ⟨hother hfile' hkk, hmem⟩
  · intro c fd' k' hc
    have hkk : k' ≠ k := by
      rintro rfl
      have hfile' := (h.working k' fd' (h.listed c fd' k' hc)).1
      have hsame := (h.opened fd' k' hfile').1.symm.trans (h.opened fd k' hfile).1
      obtain rfl := Option.some.inj hsame
      exact hunlisted c hc
    rw [Function.update_of_ne hkk]
    exact h.listed c fd' k' hc
  · intro fd' k' hhand
    obtain ⟨hk', hfile'⟩ := h.taken fd' k' (htaken fd' k' hhand)
    refine ⟨hk', ?_⟩
    by_cases hfd' : fd' = fd
    · subst hfd'
      exact .inr (Function.update_self ..)
    · rwa [Function.update_of_ne hfd']
  · intro fd' k' hfd'
    obtain ⟨hfile', hkk⟩ := hopen hfd'
    obtain ⟨hk', hclosers, howner⟩ := h.opened fd' k' hfile'
    rw [Function.update_of_ne hkk, Function.update_of_ne hkk]
    exact ⟨hk', hclosers, howner.imp_left fun hhand => (hfresh fd' k').mpr ⟨hhand, hkk⟩⟩
  · intro fd' k' hk' hfd'
    by_cases hkk : k' = k
    · subst hkk
      rw [Function.update_self]
      rcases hwho with ⟨rfl, hmem⟩ | ⟨rfl, hmem⟩
      · exact .inl ⟨rfl, hmem⟩
      · exact .inr ⟨rfl, hmem⟩
    · rw [Function.update_of_ne hkk]
      exact h.closed fd' k' hk' fun hfile' => hfd' (hother hfile' hkk)
  · intro k' hk'
    have hkk : k' ≠ k := by
      rintro rfl
      exact absurd (h.lt_of_file hfile) (not_lt.mpr hk')
    rw [Function.update_of_ne hkk]
    exact h.unused k' hk'

omit [DecidableEq κ] in
/-- What does not touch the files only has to look after the hand of the opener and the table. -/
theorem Wf.looks (h : Wf opener worker s) {hand : Hand} {table : κ → Option (ℕ × ℕ)}
    (hfresh : ∀ fd k, hand = .fresh fd k ↔ s.hand = .fresh fd k)
    (htaken : ∀ fd k, hand = .taken fd k →
      s.opened[k]? = some fd ∧ (s.files fd = some k ∨ s.files fd = none))
    (htable : ∀ c fd k, table c = some (fd, k) → s.table c = some (fd, k)) :
    Wf opener worker { s with hand := hand, table := table } where
  fresh fd k hhand := h.fresh fd k ((hfresh fd k).mp hhand)
  working := h.working
  listed c fd k hc := h.listed c fd k (htable c fd k hc)
  taken := htaken
  opened fd k hfile := by
    obtain ⟨hk, hclosers, howner⟩ := h.opened fd k hfile
    exact ⟨hk, hclosers, howner.imp_left (hfresh fd k).mpr⟩
  closed := h.closed
  unused := h.unused

theorem update_none_le (table : κ → Option (ℕ × ℕ)) (c : κ) (c' : κ) (fd k : ℕ)
    (h : Function.update table c none c' = some (fd, k)) : table c' = some (fd, k) := by
  exact (Table.of_update_none h).2

/-- Every step keeps the files in the hands of their threads. -/
theorem Wf.step (h : Wf opener worker s) (hstep : Step opener worker s s') : Wf opener worker s' := by
  have hlisted : ∀ {c fd k}, s.table c = some (fd, k) →
      s.opened[k]? = some fd ∧ (s.files fd = some k ∨ s.files fd = none) := by
    intro c fd k hc
    have hfile := (h.working _ _ (h.listed _ _ _ hc)).1
    exact ⟨(h.opened fd k hfile).1, .inl hfile⟩
  cases hstep with
  | stay => exact h
  | opens fd hfree hempty => exact h.opens hfree hempty
  | gives c fd k hhand => exact h.gives c hhand
  | rejects fd k hhand =>
    obtain ⟨hfile, hgiven⟩ := h.fresh fd k hhand
    -- nobody else has the file
    have hnone : Function.update s.workers k none = s.workers := by
      rw [Function.update_eq_self_iff, eq_comm, Option.eq_none_iff_forall_ne_some]
      exact fun fd' hk => hgiven (h.working k fd' hk).2
    have hempty : ∀ fd' k', Hand.empty = .fresh fd' k' ↔ s.hand = .fresh fd' k' ∧ k' ≠ k := by
      refine fun fd' k' => iff_of_false nofun ?_
      rintro ⟨hfresh, hkk⟩
      cases hhand.symm.trans hfresh
      exact hkk rfl
    have hclose := h.closes hfile (.inl ⟨rfl, hgiven⟩) hempty nofun
      fun c hc => hgiven (h.working k fd (h.listed c fd k hc)).2
    rwa [hnone] at hclose
  | closes fd k hworking hunlisted =>
    obtain ⟨hfile, hgiven⟩ := h.working k fd hworking
    refine h.closes hfile (.inr ⟨rfl, hgiven⟩) (fun fd' k' => ?_) (fun _ _ => id) hunlisted
    refine ⟨fun hfresh => ⟨hfresh, ?_⟩, And.left⟩
    rintro rfl
    exact (h.fresh fd' k' hfresh).2 hgiven
  | takes c fd k hempty hc =>
    refine h.looks (fun fd' k' => by simp [hempty]) (fun fd' k' hhand => ?_) fun _ _ _ => id
    cases hhand
    exact hlisted hc
  | removes c => exact h.looks (fun _ _ => Iff.rfl) h.taken (update_none_le s.table c)
  | pulls c fd k hempty hc =>
    refine h.looks (fun fd' k' => by simp [hempty]) (fun fd' k' hhand => ?_) (update_none_le s.table c)
    cases hhand
    exact hlisted hc
  | drops fd k hhand => exact h.looks (fun fd' k' => by simp [hhand]) nofun fun _ _ _ => id

end

end Custody
