import GuacamoleDiode.Lib.Monitor
import Mathlib.Algebra.Order.Ring.Int

/-!
# The readers that a shutdown waits for

`ReaderGroup`: the spawner counts a reader in before it launches it, the last act of a reader is
to count itself out, and `main` waits for the count to be zero.

## Main definitions

- `ReaderGroup.monitor`: the calls of the group

## Main results

- `ReaderGroup.wait_all`: `WaitAll` returns once every reader has left, and then it does return
-/

namespace GuacamoleDiode

/-- What the lock of a group protects: the count, and the readers that are counted. -/
structure ReaderGroup where
  count : ℤ
  /-- how many readers have entered; they are numbered in this order -/
  entered : ℕ
  /-- the readers that have entered and have not left -/
  live : Finset ℕ
  counted : count = live.card
  numbered : ∀ n ∈ live, n < entered

namespace ReaderGroup

/-- A reader leaves when its `Sentinel` is destroyed, and thus once. -/
inductive Call where
  | enter
  | leave (n : ℕ)
  deriving DecidableEq, Repr

def enter (g : ReaderGroup) : ReaderGroup where
  count := g.count + 1
  entered := g.entered + 1
  live := insert g.entered g.live
  counted := by
    have hnew : g.entered ∉ g.live := fun h => lt_irrefl _ (g.numbered _ h)
    rw [Finset.card_insert_of_notMem hnew, g.counted]
    exact (Nat.cast_succ _).symm
  numbered n hn := by
    rcases Finset.mem_insert.mp hn with rfl | hn
    · exact Nat.lt_succ_self _
    · exact Nat.lt_succ_of_lt (g.numbered n hn)

def leave (g : ReaderGroup) (n : ℕ) (h : n ∈ g.live) : ReaderGroup where
  count := g.count - 1
  entered := g.entered
  live := g.live.erase n
  counted := by
    have hcard := Finset.card_erase_add_one h
    rw [g.counted]
    omega
  numbered m hm := g.numbered m (Finset.mem_of_mem_erase hm)

/-- The calls of a group. -/
def monitor : Monitor ReaderGroup Call Unit Unit where
  init := { count := 0, entered := 0, live := ∅, counted := rfl, numbered := by simp }
  update call g :=
    match call with
    | .enter => (g.enter, ())
    | .leave n => if h : n ∈ g.live then (g.leave n h, ()) else (g, ())
  notify
    | .enter => .none
    | .leave _ => .all
  ready g := g.count == 0
  take g := (g, ())

/-- The spawner, the readers and `main`. -/
def machine : Machine (Monitor.State ReaderGroup ℕ) (Monitor.Event ℕ Call)
    (Monitor.Output ℕ Call Unit Unit) :=
  monitor.machine ℕ

theorem ready_iff (g : ReaderGroup) : monitor.ready g = true ↔ g.live = ∅ := by
  show (g.count == 0) = true ↔ _
  rw [beq_iff_eq, g.counted, Nat.cast_eq_zero, Finset.card_eq_zero]

/-- Once all readers have left, anybody may go on. -/
def demands : Monitor.Demand monitor where
  demand g := if g.live = ∅ then ⊤ else 0
  ready g := by
    rw [ready_iff]
    split_ifs <;> simp [*]
  none call g h := by
    cases call with
    | enter =>
      have hlive : (monitor.update .enter g).1.live ≠ ∅ := Finset.insert_ne_empty _ _
      rw [if_neg hlive]
      exact bot_le
    | leave n => cases h
  one call g h := by cases call <;> cases h
  take g h := by
    rw [ready_iff] at h
    show (if g.live = ∅ then ⊤ else 0) + 1 ≤ if g.live = ∅ then ⊤ else 0
    rw [if_pos h]
    exact le_top

/-- Without `Enter` the readers only get fewer. -/
theorem live_step {s : Monitor.State ReaderGroup ℕ} {e : Monitor.Event ℕ Call}
    (h : ∀ t, e ≠ .update t .enter) : (machine.step s e).1.shared.live ⊆ s.shared.live := by
  have hlocked := Monitor.locked_step monitor s e
  change Monitor.Locked monitor _ e (machine.step s e).1.shared (machine.step s e).2 at hlocked
  generalize (machine.step s e).1.shared = g at hlocked ⊢
  generalize (machine.step s e).2 = out at hlocked
  cases hlocked with
  | none => exact Finset.Subset.refl _
  | update t call =>
    cases call with
    | enter => exact absurd rfl (h t)
    | leave n =>
      show (if hn : n ∈ s.shared.live then (s.shared.leave n hn, ()) else (s.shared, ())).1.live ⊆ _
      split_ifs with hn
      · exact Finset.erase_subset _ _
      · exact Finset.Subset.refl _
  | take => exact Finset.Subset.refl _

/-- Whatever the order of the accesses, when `WaitAll` returns, every reader that has entered has
left, and if the spawner is gone, there is none any more. When all readers have left and somebody
waits, two accesses at most and `WaitAll` has returned. -/
theorem wait_all (es : List (Monitor.Event ℕ Call)) :
    (∀ e t es', .took t () ∈ (machine.step (machine.run es) e).2 → (∀ t, .update t .enter ∉ es') →
        (machine.run (es ++ e :: es')).shared.live = ∅) ∧
      ((machine.run es).shared.live = ∅ → (machine.run es).asleep.Nonempty → ∃ t,
        (machine.step (machine.run es) (.resume t)).2 = [.took t ()] ∨
          ∃ n, (machine.step (machine.step (machine.run es) (.notify n t)).1 (.resume t)).2 =
            [.took t ()]) := by
  refine ⟨fun e t es' ht hes' => ?_, fun hlive hasleep => ?_⟩
  · induction es' using List.reverseRecOn with
    | nil =>
      rw [Machine.run_snoc]
      have hlocked := Monitor.locked_step monitor (machine.run es) e
      change Monitor.Locked monitor _ e (machine.step _ e).1.shared (machine.step _ e).2 at hlocked
      generalize (machine.step (machine.run es) e).1.shared = g at hlocked ⊢
      generalize (machine.step (machine.run es) e).2 = out at hlocked ht
      cases hlocked with
      | none => cases ht
      | update t' call => simp at ht
      | take _ t' hready => exact (ready_iff _).mp hready
    | append_singleton es' e' ih =>
      have hbefore := ih fun t ht => hes' t (List.mem_append_left _ ht)
      rw [← List.cons_append, ← List.append_assoc, Machine.run_snoc]
      have hsub := live_step (s := machine.run (es ++ e :: es')) (e := e') fun t ht =>
        hes' t (List.mem_append_right _ (ht ▸ List.mem_singleton_self _))
      rw [hbefore] at hsub
      exact Finset.subset_empty.mp hsub
  · exact (Monitor.attended_run demands es).proceeds ((ready_iff _).mpr hlive) hasleep

end ReaderGroup

end GuacamoleDiode
