import GuacamoleDiode.Lib.Machine
import Mathlib.Data.ENat.Basic
import Mathlib.Data.Finset.Card

/-!
# Monitors

A lock with a condition variable, and the threads that use it. A call that changes what the lock
protects notifies behind its locked part, when other threads may have taken the lock already.
A call that waits looks at what is protected each time that it gets the lock; a thread that has
been notified has to get it like any other, and may also wake up without having been notified.

`Monitor.machine` has one event for each access of one thread. Which thread gets the lock, and
which sleeper a notification wakes, is part of the event.

## Main definitions

- `Monitor`: what the lock protects, and the calls
- `Monitor.machine`: the threads, one access at a time
- `Monitor.Demand`: how many waiting threads could go on, and what the calls do to this number
- `Monitor.Attended`: whoever sleeps is not needed, or a wake-up is on its way

## Main results

- `Monitor.rule`: what the locked parts preserve holds in every run
- `Monitor.attended_run`: no wake-up is lost
-/

/-- How a call wakes the threads that wait. -/
inductive Monitor.Notify where
  | none
  | one
  | all
  deriving DecidableEq, Repr

/-- What a lock protects, and the locked parts of its calls. -/
structure Monitor (σ α β ρ : Type*) where
  init : σ
  /-- a call that does not wait, and what it returns -/
  update : α → σ → σ × β
  /-- how the call notifies behind its locked part -/
  notify : α → Monitor.Notify
  /-- what the other call waits for -/
  ready : σ → Bool
  /-- what it does then, and what it returns -/
  take : σ → σ × ρ

namespace Monitor

/-- What the lock protects, and where the threads stand that are in a call. -/
structure State (σ τ : Type*) where
  shared : σ
  /-- in `wait` -/
  asleep : Finset τ := ∅
  /-- woken, and in front of the lock -/
  woken : Finset τ := ∅
  /-- in front of `notify_one` -/
  one : Finset τ := ∅
  /-- in front of `notify_all` -/
  all : Finset τ := ∅

/-- One access of one thread. A step that the thread cannot take where it stands does nothing. -/
inductive Event (τ α : Type*) where
  /-- the locked part of a call that does not wait -/
  | update (t : τ) (a : α)
  /-- the notification behind it; `notify_one` wakes `sleeper` if anybody sleeps -/
  | notify (t sleeper : τ)
  /-- the call that waits gets the lock for the first time -/
  | call (t : τ)
  /-- a thread that has been woken gets the lock -/
  | resume (t : τ)
  /-- a thread wakes up of its own accord -/
  | wakeUp (t : τ)
  deriving DecidableEq, Repr

/-- What the calls return, in the order of their locked parts. -/
inductive Output (τ α β ρ : Type*) where
  | updated (t : τ) (a : α) (b : β)
  | took (t : τ) (r : ρ)
  deriving DecidableEq, Repr

variable {σ α β ρ τ : Type*} [DecidableEq τ]

namespace State

variable (s : State σ τ)

/-- The thread is in no call. -/
def Idle (t : τ) : Prop := t ∉ s.asleep ∧ t ∉ s.woken ∧ t ∉ s.one ∧ t ∉ s.all

instance (t : τ) : Decidable (s.Idle t) := inferInstanceAs (Decidable (_ ∧ _))

/-- What a thread finds that has the lock and waits for `ready`. -/
def enter (M : Monitor σ α β ρ) (t : τ) : State σ τ × List (Output τ α β ρ) :=
  if M.ready s.shared then
    ({ s with shared := (M.take s.shared).1 }, [.took t (M.take s.shared).2])
  else ({ s with asleep := insert t s.asleep }, [])

/-- A thread that is about to notify. -/
def passed (t : τ) : Notify → State σ τ
  | .none => s
  | .one => { s with one := insert t s.one }
  | .all => { s with all := insert t s.all }

@[simp] theorem passed_asleep (t : τ) (kind : Notify) : (s.passed t kind).asleep = s.asleep := by
  cases kind <;> rfl

@[simp] theorem passed_woken (t : τ) (kind : Notify) : (s.passed t kind).woken = s.woken := by
  cases kind <;> rfl

/-- A sleeper is woken. -/
def wake (t : τ) : State σ τ :=
  { s with asleep := s.asleep.erase t, woken := insert t s.woken }

end State

def step (M : Monitor σ α β ρ) (s : State σ τ) : Event τ α → State σ τ × List (Output τ α β ρ)
  | .update t a =>
    if s.Idle t then
      let r := M.update a s.shared
      ({ s.passed t (M.notify a) with shared := r.1 }, [.updated t a r.2])
    else (s, [])
  | .notify t sleeper =>
    if t ∈ s.all then
      ({ s with all := s.all.erase t, asleep := ∅, woken := s.woken ∪ s.asleep }, [])
    else if t ∈ s.one then
      if s.asleep = ∅ then ({ s with one := s.one.erase t }, [])
      else if sleeper ∈ s.asleep then ({ s.wake sleeper with one := s.one.erase t }, [])
      else (s, [])
    else (s, [])
  | .call t => if s.Idle t then s.enter M t else (s, [])
  | .resume t => if t ∈ s.woken then { s with woken := s.woken.erase t }.enter M t else (s, [])
  | .wakeUp t => if t ∈ s.asleep then (s.wake t, []) else (s, [])

/-- Any number of threads that use the monitor. -/
def machine (M : Monitor σ α β ρ) (τ : Type*) [DecidableEq τ] :
    Machine (State σ τ) (Event τ α) (Output τ α β ρ) where
  init := { shared := M.init }
  step := M.step

section

variable {M : Monitor σ α β ρ} {s : State σ τ} {e : Event τ α}

/-- What a step does to what the lock protects. -/
inductive Locked (M : Monitor σ α β ρ) (x : σ) : Event τ α → σ → List (Output τ α β ρ) → Prop
  | none (e : Event τ α) : Locked M x e x []
  | update (t : τ) (a : α) : Locked M x (.update t a) (M.update a x).1 [.updated t a (M.update a x).2]
  | take (e : Event τ α) (t : τ) (ready : M.ready x = true) :
      Locked M x e (M.take x).1 [.took t (M.take x).2]

theorem locked_enter (s : State σ τ) (t : τ) (e : Event τ α) :
    Locked M s.shared e (s.enter M t).1.shared (s.enter M t).2 := by
  unfold State.enter
  split_ifs with h
  · exact .take e t h
  · exact .none e

/-- At most one locked part is passed in a step. -/
theorem locked_step (M : Monitor σ α β ρ) (s : State σ τ) (e : Event τ α) :
    Locked M s.shared e (M.step s e).1.shared (M.step s e).2 := by
  cases e with
  | update t a =>
    simp only [step]
    split_ifs
    · exact .update t a
    · exact .none _
  | notify t sleeper =>
    simp only [step]
    split_ifs
    all_goals exact .none _
  | call t =>
    simp only [step]
    split_ifs
    · exact locked_enter s t _
    · exact .none _
  | resume t =>
    simp only [step]
    split_ifs
    · exact locked_enter { s with woken := s.woken.erase t } t _
    · exact .none _
  | wakeUp t =>
    simp only [step]
    split_ifs
    all_goals exact .none _

/-- What the locked parts preserve holds in every run, whatever the threads do in between. -/
theorem rule {P : List (Output τ α β ρ) → σ → Prop} (h₀ : P [] M.init)
    (hupdate : ∀ out x t a, P out x → P (out ++ [.updated t a (M.update a x).2]) (M.update a x).1)
    (htake : ∀ out x t, P out x → M.ready x = true → P (out ++ [.took t (M.take x).2]) (M.take x).1)
    (es : List (Event τ α)) : P ((M.machine τ).emitted es) ((M.machine τ).run es).shared := by
  induction es using List.reverseRecOn with
  | nil => exact h₀
  | append_singleton es e ih =>
    rw [Machine.emitted_snoc, Machine.run_snoc]
    have hlocked := locked_step M ((M.machine τ).run es) e
    change Locked M _ e ((M.machine τ).step _ e).1.shared ((M.machine τ).step _ e).2 at hlocked
    generalize ((M.machine τ).step ((M.machine τ).run es) e).1.shared = x at hlocked ⊢
    generalize ((M.machine τ).step ((M.machine τ).run es) e).2 = out at hlocked ⊢
    cases hlocked with
    | none => rwa [List.append_nil]
    | update t a => exact hupdate _ _ t a ih
    | take _ t hready => exact htake _ _ t ih hready

end

-- ════════════════════════════════════════════════════════════════════════
-- Wake-ups
-- ════════════════════════════════════════════════════════════════════════

/-- How many waiting threads could go on, and what the calls do to this number. -/
structure Demand (M : Monitor σ α β ρ) where
  demand : σ → ℕ∞
  ready : ∀ x, M.ready x = true ↔ demand x ≠ 0
  none : ∀ a x, M.notify a = .none → demand (M.update a x).1 ≤ demand x
  one : ∀ a x, M.notify a = .one → demand (M.update a x).1 ≤ demand x + 1
  take : ∀ x, M.ready x = true → demand (M.take x).1 + 1 ≤ demand x

/-- Nobody sleeps and is woken at once. As long as somebody sleeps, there are enough wake-ups for
the threads that could go on: they have been woken, or are about to be. -/
structure Attended {M : Monitor σ α β ρ} (D : Demand M) (s : State σ τ) : Prop where
  disjoint : Disjoint s.asleep s.woken
  enough : s.asleep.Nonempty → s.all = ∅ →
    D.demand s.shared ≤ ((s.woken.card + s.one.card : ℕ) : ℕ∞)

section

variable {M : Monitor σ α β ρ} {D : Demand M} {s : State σ τ} {t sleeper : τ} {a : α} {e : Event τ α}

/-- A thread gets the lock that neither sleeps nor counts as woken. -/
theorem attended_enter {n : ℕ} (hdisjoint : Disjoint s.asleep s.woken) (ht : t ∉ s.woken) (hn : n ≤ 1)
    (h : s.asleep.Nonempty → s.all = ∅ →
      D.demand s.shared ≤ ((s.woken.card + n + s.one.card : ℕ) : ℕ∞)) :
    Attended D (s.enter M t).1 := by
  unfold State.enter
  by_cases hready : M.ready s.shared = true
  · rw [if_pos hready]
    refine ⟨hdisjoint, fun hasleep hall => ?_⟩
    -- the thread that goes on is needed no more
    have htaken := (D.take _ hready).trans (h hasleep hall)
    obtain ⟨d, hd⟩ := ENat.ne_top_iff_exists.mp (ne_top_of_le_ne_top (ENat.natCast_ne_top _)
      (le_self_add.trans htaken))
    show D.demand (M.take s.shared).1 ≤ _
    rw [← hd] at htaken ⊢
    norm_cast at htaken ⊢
    show d ≤ s.woken.card + s.one.card
    omega
  · rw [if_neg hready]
    refine ⟨?_, fun _ _ => ?_⟩
    · exact Finset.disjoint_insert_left.mpr ⟨ht, hdisjoint⟩
    · have hzero : D.demand s.shared = 0 := by
        by_contra hne
        exact hready ((D.ready _).mpr hne)
      show D.demand s.shared ≤ _
      rw [hzero]
      exact bot_le

theorem card_wake (hdisjoint : Disjoint s.asleep s.woken) (ht : sleeper ∈ s.asleep) :
    (s.wake sleeper).woken.card = s.woken.card + 1 :=
  Finset.card_insert_of_notMem (Finset.disjoint_left.mp hdisjoint ht)

theorem disjoint_wake (hdisjoint : Disjoint s.asleep s.woken) :
    Disjoint (s.wake sleeper).asleep (s.wake sleeper).woken := by
  refine Finset.disjoint_insert_right.mpr ⟨Finset.notMem_erase sleeper s.asleep, ?_⟩
  exact hdisjoint.mono_left (Finset.erase_subset _ _)

theorem nonempty_of_wake (h : (s.wake sleeper).asleep.Nonempty) : s.asleep.Nonempty :=
  h.mono (Finset.erase_subset _ _)

theorem attended_update (h : Attended D s) (hidle : s.Idle t) :
    Attended D { s.passed t (M.notify a) with shared := (M.update a s.shared).1 } := by
  refine ⟨by simpa using h.disjoint, fun hasleep hall => ?_⟩
  simp only [State.passed_asleep] at hasleep
  cases hkind : M.notify a with
  | none =>
    rw [hkind] at hall
    exact (D.none a s.shared hkind).trans (h.enough hasleep hall)
  | one =>
    rw [hkind] at hall
    -- the thread that notifies makes up for the one that could go on now
    have hcard : (insert t s.one).card = s.one.card + 1 := Finset.card_insert_of_notMem hidle.2.2.1
    refine (D.one a s.shared hkind).trans ?_
    show D.demand s.shared + 1 ≤ ((s.woken.card + (insert t s.one).card : ℕ) : ℕ∞)
    rw [hcard, ← Nat.add_assoc, Nat.cast_add, Nat.cast_one]
    exact add_le_add_left (h.enough hasleep hall) 1
  | all =>
    rw [hkind] at hall
    exact absurd hall (Finset.insert_ne_empty t s.all)

theorem attended_step (h : Attended D s) (e : Event τ α) : Attended D (M.step s e).1 := by
  cases e with
  | update t a =>
    by_cases hidle : s.Idle t
    · rw [step, if_pos hidle]
      exact attended_update h hidle
    · rwa [step, if_neg hidle]
  | notify t sleeper =>
    by_cases hall : t ∈ s.all
    · rw [step, if_pos hall]
      exact ⟨Finset.disjoint_empty_left _, fun hasleep => absurd hasleep Finset.not_nonempty_empty⟩
    · by_cases hone : t ∈ s.one
      · rw [step, if_neg hall, if_pos hone]
        by_cases hnobody : s.asleep = ∅
        · rw [if_pos hnobody]
          exact ⟨h.disjoint, fun hasleep => absurd hnobody hasleep.ne_empty⟩
        · by_cases hsleeper : sleeper ∈ s.asleep
          · rw [if_neg hnobody, if_pos hsleeper]
            refine ⟨disjoint_wake h.disjoint, fun hasleep hempty => ?_⟩
            have hwoken := card_wake h.disjoint hsleeper
            have hcard := Finset.card_erase_add_one hone
            refine (h.enough (nonempty_of_wake hasleep) hempty).trans_eq (congrArg Nat.cast ?_)
            show s.woken.card + s.one.card = (s.wake sleeper).woken.card + (s.one.erase t).card
            omega
          · rwa [if_neg hnobody, if_neg hsleeper]
      · rwa [step, if_neg hall, if_neg hone]
  | call t =>
    by_cases hidle : s.Idle t
    · rw [step, if_pos hidle]
      exact attended_enter (n := 0) h.disjoint hidle.2.1 (Nat.zero_le 1) h.enough
    · rwa [step, if_neg hidle]
  | resume t =>
    by_cases ht : t ∈ s.woken
    · rw [step, if_pos ht]
      refine attended_enter (n := 1) ?_ (Finset.notMem_erase t s.woken) le_rfl fun hasleep hall => ?_
      · exact h.disjoint.mono_right (Finset.erase_subset _ _)
      · have hcard := Finset.card_erase_add_one ht
        simp only [hcard]
        exact h.enough hasleep hall
    · rwa [step, if_neg ht]
  | wakeUp t =>
    by_cases ht : t ∈ s.asleep
    · rw [step, if_pos ht]
      refine ⟨disjoint_wake h.disjoint, fun hasleep hempty => ?_⟩
      refine (h.enough (nonempty_of_wake hasleep) hempty).trans (Nat.cast_le.mpr ?_)
      have hwoken := card_wake h.disjoint ht
      show s.woken.card + s.one.card ≤ (s.wake t).woken.card + s.one.card
      omega
    · rwa [step, if_neg ht]

/-- No wake-up is lost, whatever the order of the accesses. -/
theorem attended_run (D : Demand M) (es : List (Event τ α)) : Attended D ((M.machine τ).run es) := by
  refine Machine.invariant (P := fun _ s => Attended D s) ?_ (fun _ e h => attended_step h e) es
  exact ⟨Finset.disjoint_empty_left _, fun hasleep => absurd hasleep Finset.not_nonempty_empty⟩

/-- A thread that could go on does not sleep for good: somebody has been woken, or is about to
notify. -/
theorem Attended.stirs (h : Attended D s) (hready : M.ready s.shared = true) (hasleep : s.asleep.Nonempty) :
    s.woken.Nonempty ∨ s.one.Nonempty ∨ s.all.Nonempty := by
  by_cases hall : s.all = ∅
  · have henough := h.enough hasleep hall
    have hdemand := (D.ready _).mp hready
    by_cases hwoken : s.woken = ∅
    · refine .inr (.inl (Finset.nonempty_iff_ne_empty.mpr fun hone => hdemand ?_))
      rw [hwoken, hone, Finset.card_empty] at henough
      exact nonpos_iff_eq_zero.mp henough
    · exact .inl (Finset.nonempty_iff_ne_empty.mpr hwoken)
  · exact .inr (.inr (Finset.nonempty_iff_ne_empty.mpr hall))

/-- Nobody waits who has not called. -/
theorem waits_step (h : t ∈ (M.step s e).1.asleep ∪ (M.step s e).1.woken) :
    t ∈ s.asleep ∪ s.woken ∨ e = .call t := by
  cases e with
  | update t' a =>
    simp only [step] at h
    split_ifs at h
    · cases hkind : M.notify a <;> simpa [hkind, State.passed] using h
    · exact .inl h
  | notify t' sleeper =>
    simp only [step] at h
    split_ifs at h <;> simp only [State.wake, Finset.mem_union, Finset.mem_insert, Finset.mem_erase,
      Finset.notMem_empty] at h ⊢ <;> grind
  | call t' =>
    simp only [step, State.enter] at h
    split_ifs at h <;> simp only [Finset.mem_union, Finset.mem_insert] at h ⊢ <;> grind
  | resume t' =>
    simp only [step, State.enter] at h
    split_ifs at h <;> simp only [Finset.mem_union, Finset.mem_insert, Finset.mem_erase] at h ⊢ <;> grind
  | wakeUp t' =>
    simp only [step] at h
    split_ifs at h <;> simp only [State.wake, Finset.mem_union, Finset.mem_insert,
      Finset.mem_erase] at h ⊢ <;> grind

theorem resume_of_ready (hready : M.ready s.shared = true) (ht : t ∈ s.woken) :
    (M.step s (.resume t)).2 = [.took t (M.take s.shared).2] := by
  rw [step, if_pos ht, State.enter, if_pos hready]

/-- A notification wakes a sleeper, and leaves alone what the lock protects. -/
theorem woken_notify (ht : t ∈ s.one ∨ t ∈ s.all) (hsleeper : sleeper ∈ s.asleep) :
    sleeper ∈ (M.step s (.notify t sleeper)).1.woken ∧
      (M.step s (.notify t sleeper)).1.shared = s.shared := by
  by_cases hall : t ∈ s.all
  · rw [step, if_pos hall]
    exact ⟨Finset.mem_union_right _ hsleeper, rfl⟩
  · rw [step, if_neg hall, if_pos (ht.resolve_right hall), if_neg (Finset.ne_empty_of_mem hsleeper),
      if_pos hsleeper]
    exact ⟨Finset.mem_insert_self _ _, rfl⟩

/-- Two accesses at most, and a thread that waits has gone on. -/
theorem Attended.proceeds (h : Attended D s) (hready : M.ready s.shared = true)
    (hasleep : s.asleep.Nonempty) :
    ∃ t, (M.step s (.resume t)).2 = [.took t (M.take s.shared).2] ∨
      ∃ n, (M.step (M.step s (.notify n t)).1 (.resume t)).2 = [.took t (M.take s.shared).2] := by
  have hnotified : (∃ n, n ∈ s.one ∨ n ∈ s.all) →
      ∃ t n, (M.step (M.step s (.notify n t)).1 (.resume t)).2 = [.took t (M.take s.shared).2] := by
    rintro ⟨n, hn⟩
    obtain ⟨sleeper, hsleeper⟩ := hasleep
    obtain ⟨hwoken, hshared⟩ := woken_notify (M := M) hn hsleeper
    refine ⟨sleeper, n, ?_⟩
    rw [resume_of_ready (hshared ▸ hready) hwoken, hshared]
  rcases h.stirs hready hasleep with ⟨t, ht⟩ | ⟨n, hn⟩ | ⟨n, hn⟩
  · exact ⟨t, .inl (resume_of_ready hready ht)⟩
  · obtain ⟨t, ht⟩ := hnotified ⟨n, .inl hn⟩
    exact ⟨t, .inr ht⟩
  · obtain ⟨t, ht⟩ := hnotified ⟨n, .inr hn⟩
    exact ⟨t, .inr ht⟩

end

end Monitor
