import Mathlib.Data.List.Induction

/-!
# Machines with outputs

A deterministic machine reads events and emits outputs. What a scheduler, a
network or another thread decides is part of the event, so that a list of events
fixes the run. The rules say how a property of all states that a run reaches
follows from its steps, also when the steps only have to be right under a condition.

## Main definitions

- `Machine`: an initial state and a step function
- `Machine.run`, `Machine.emitted`: the state behind a list of events, and its outputs
- `Machine.observe`: an observer folded over a run
- `Machine.Always`: a condition on every step of a run
- `Machine.Sometime`: a condition that some step of a part of a run meets
-/

/-- A deterministic machine with states `σ`, events `ε` and outputs `ο`. -/
structure Machine (σ ε ο : Type*) where
  init : σ
  step : σ → ε → σ × List ο

namespace Machine

variable {σ ε ο : Type*} (M : Machine σ ε ο)

/-- The state behind a list of events. -/
def run (es : List ε) : σ := es.foldl (fun s e => (M.step s e).1) M.init

@[simp] theorem run_nil : M.run [] = M.init := rfl

@[simp] theorem run_snoc (es : List ε) (e : ε) : M.run (es ++ [e]) = (M.step (M.run es) e).1 := by
  simp [run]

/-- The outputs from a state on. -/
def emittedFrom : σ → List ε → List ο
  | _, [] => []
  | s, e :: es => (M.step s e).2 ++ emittedFrom (M.step s e).1 es

/-- All outputs of a run. -/
def emitted (es : List ε) : List ο := M.emittedFrom M.init es

@[simp] theorem emitted_nil : M.emitted [] = [] := rfl

@[simp] theorem emitted_snoc (es : List ε) (e : ε) :
    M.emitted (es ++ [e]) = M.emitted es ++ (M.step (M.run es) e).2 := by
  have h : ∀ s, M.emittedFrom s (es ++ [e]) = M.emittedFrom s es ++
      (M.step (es.foldl (fun s e => (M.step s e).1) s) e).2 := by
    intro s
    induction es generalizing s with
    | nil => simp [emittedFrom]
    | cons a es ih => simp [emittedFrom, ih]
  exact h M.init

/-- An observer that sees every step of a run from a state on. -/
def observeFrom {α : Type*} (f : α → σ → ε → List ο → α) : σ → α → List ε → α
  | _, a, [] => a
  | s, a, e :: es => observeFrom f (M.step s e).1 (f a s e (M.step s e).2) es

/-- What an observer has noted behind a run. It sees the state before each step, the event
and the outputs. -/
def observe {α : Type*} (f : α → σ → ε → List ο → α) (a : α) (es : List ε) : α :=
  M.observeFrom f M.init a es

@[simp] theorem observe_nil {α : Type*} (f : α → σ → ε → List ο → α) (a : α) :
    M.observe f a [] = a := rfl

@[simp] theorem observe_snoc {α : Type*} (f : α → σ → ε → List ο → α) (a : α) (es : List ε)
    (e : ε) :
    M.observe f a (es ++ [e]) = f (M.observe f a es) (M.run es) e (M.step (M.run es) e).2 := by
  have h : ∀ s a, M.observeFrom f s a (es ++ [e]) =
      let s' := es.foldl (fun s e => (M.step s e).1) s
      f (M.observeFrom f s a es) s' e (M.step s' e).2 := by
    intro s a
    induction es generalizing s a with
    | nil => rfl
    | cons b es ih => exact ih _ _
  exact h M.init a

/-- What a function of the states and the events of a run yields, one step after another. -/
def collect {α : Type*} (f : σ → ε → List α) (es : List ε) : List α :=
  M.observe (fun as s e _ => as ++ f s e) [] es

@[simp] theorem collect_nil {α : Type*} (f : σ → ε → List α) : M.collect f [] = [] := rfl

@[simp] theorem collect_snoc {α : Type*} (f : σ → ε → List α) (es : List ε) (e : ε) :
    M.collect f (es ++ [e]) = M.collect f es ++ f (M.run es) e :=
  M.observe_snoc _ _ es e

/-- One step more, if there is one. -/
theorem collect_append_toList {α : Type*} (f : σ → ε → List α) (es : List ε) (e : Option ε) :
    M.collect f (es ++ e.toList) = M.collect f es ++ e.toList.flatMap (f (M.run es)) := by
  cases e with
  | none => simp
  | some e => rw [Option.toList_some, collect_snoc, List.flatMap_singleton]

/-- Every step of the run meets the condition; the condition sees the events so far, the
state before the step and its event. -/
def Always (Q : List ε → σ → ε → Prop) (es : List ε) : Prop :=
  ∀ pre e post, es = pre ++ e :: post → Q pre (M.run pre) e

/-- Some step of `mid`, taken behind `pre`, meets a condition on its state and its event. -/
def Sometime (P : σ → ε → Prop) (pre mid : List ε) : Prop :=
  ∃ a e b, mid = a ++ e :: b ∧ P (M.run (pre ++ a)) e

variable {M}

theorem not_sometime_nil {P : σ → ε → Prop} {pre : List ε} : ¬M.Sometime P pre [] := by
  rintro ⟨a, e, b, h, -⟩
  simp at h

theorem Sometime.append {P : σ → ε → Prop} {pre mid : List ε} (h : M.Sometime P pre mid)
    (post : List ε) : M.Sometime P pre (mid ++ post) := by
  obtain ⟨a, e, b, rfl, he⟩ := h
  exact ⟨a, e, b ++ post, by simp, he⟩

theorem sometime_snoc_self {P : σ → ε → Prop} {pre mid : List ε} {e : ε}
    (h : P (M.run (pre ++ mid)) e) : M.Sometime P pre (mid ++ [e]) :=
  ⟨mid, e, [], rfl, h⟩

theorem always_nil {Q : List ε → σ → ε → Prop} : M.Always Q [] := by
  intro pre e post h
  simp at h

/-- What holds at every position of a list that is longer by one. -/
theorem forall_split_snoc {P : List ε → ε → Prop} {es : List ε} {e : ε} :
    (∀ pre a post, es ++ [e] = pre ++ a :: post → P pre a) ↔
      (∀ pre a post, es = pre ++ a :: post → P pre a) ∧ P es e := by
  constructor
  · intro h
    refine ⟨?_, h es e [] rfl⟩
    rintro pre a post rfl
    exact h pre a (post ++ [e]) (by simp)
  · rintro ⟨h, he⟩ pre a post heq
    rcases List.eq_nil_or_concat post with rfl | ⟨post, b, rfl⟩
    · obtain ⟨rfl, ha⟩ := List.append_inj' heq rfl
      cases ha
      exact he
    · rw [List.concat_eq_append, ← List.cons_append, ← List.append_assoc] at heq
      obtain ⟨rfl, -⟩ := List.append_inj' heq rfl
      exact h pre a post rfl

theorem always_snoc {Q : List ε → σ → ε → Prop} {es : List ε} {e : ε} :
    M.Always Q (es ++ [e]) ↔ M.Always Q es ∧ Q es (M.run es) e :=
  forall_split_snoc

/-- A condition on every position of a run. -/
theorem always_of_getElem {Q : List ε → σ → ε → Prop} {es : List ε}
    (h : ∀ i (hi : i < es.length), Q (es.take i) (M.run (es.take i)) es[i]) : M.Always Q es := by
  rintro pre e post rfl
  simpa using h pre.length (by simp)

/-- What the steps preserve holds in every state that a run reaches. -/
theorem invariant {P : List ε → σ → Prop} (h₀ : P [] M.init)
    (hstep : ∀ es e, P es (M.run es) → P (es ++ [e]) (M.step (M.run es) e).1) (es : List ε) :
    P es (M.run es) := by
  induction es using List.reverseRecOn with
  | nil => exact h₀
  | append_singleton es e ih =>
    rw [run_snoc]
    exact hstep es e ih

/-- What the steps preserve under events of a kind, and what it says about their outputs. -/
theorem emitted_of_invariant {P : σ → Prop} {E : ε → Prop} {Q : ο → Prop} (h₀ : P M.init)
    (hstep : ∀ es e, P (M.run es) → E e →
      P (M.step (M.run es) e).1 ∧ ∀ o ∈ (M.step (M.run es) e).2, Q o)
    {es : List ε} (hes : ∀ e ∈ es, E e) : P (M.run es) ∧ ∀ o ∈ M.emitted es, Q o := by
  induction es using List.reverseRecOn with
  | nil =>
    refine ⟨h₀, fun o ho => ?_⟩
    cases ho
  | append_singleton es e ih =>
    obtain ⟨hrun, hemitted⟩ := ih fun e' he' => hes e' (List.mem_append_left _ he')
    obtain ⟨hnext, hout⟩ := hstep es e hrun (hes e (List.mem_append_right _ (List.mem_singleton_self e)))
    rw [run_snoc, emitted_snoc]
    refine ⟨hnext, fun o ho => ?_⟩
    rcases List.mem_append.mp ho with ho | ho
    · exact hemitted o ho
    · exact hout o ho

/-- A part of the state that each step leaves alone, or takes through a step of another machine,
is in a state of the other machine, which makes the steps that have been selected. -/
theorem run_part {σ' ε' ο' : Type*} {N : Machine σ' ε' ο'} (part : σ → σ')
    (select : σ → ε → Option ε') (h₀ : part M.init = N.init)
    (hstep : ∀ s e, part (M.step s e).1 =
      (select s e).elim (part s) fun e' => (N.step (part s) e').1) (es : List ε) :
    part (M.run es) = N.run (M.collect (fun s e => (select s e).toList) es) := by
  induction es using List.reverseRecOn with
  | nil => exact h₀
  | append_singleton es e ih =>
    rw [run_snoc, hstep, collect_snoc]
    cases select (M.run es) e with
    | none => exact ih.trans (by simp)
    | some e' =>
      show (N.step (part (M.run es)) e').1 = N.run (_ ++ [e'])
      rw [run_snoc, ih]

/-- A part of the state that each step leaves alone, or takes through a step of another machine
with the same outputs, where an invariant holds. The invariant may use that the part is in a
state of the other machine. -/
theorem refines {σ' ε' : Type*} {N : Machine σ' ε' ο} (part : σ → σ') {P : σ → Prop}
    (h₀ : part M.init = N.init) (hP₀ : P M.init)
    (hstep : ∀ s e, (∃ es', part s = N.run es') → P s → P (M.step s e).1 ∧
      ∃ e' : Option ε', (part (M.step s e).1, (M.step s e).2) =
        e'.elim (part s, []) (N.step (part s))) (es : List ε) :
    P (M.run es) ∧ ∃ es', part (M.run es) = N.run es' ∧ M.emitted es = N.emitted es' := by
  induction es using List.reverseRecOn with
  | nil => exact ⟨hP₀, [], h₀, rfl⟩
  | append_singleton es e ih =>
    obtain ⟨hP, es', hrun, hemitted⟩ := ih
    obtain ⟨hP', e', he'⟩ := hstep (M.run es) e ⟨es', hrun⟩ hP
    obtain ⟨hpart, hout⟩ := Prod.mk.inj he'
    rw [run_snoc, emitted_snoc]
    refine ⟨hP', es' ++ e'.toList, ?_, ?_⟩
    · cases e' with
      | none => simpa using hpart.trans hrun
      | some e' => simpa [← hrun] using hpart
    · cases e' with
      | none => simpa [hemitted] using hout
      | some e' => simpa [← hrun, hemitted] using hout

/-- What the steps preserve under a condition holds in every state of a run whose steps
all meet the condition. -/
theorem invariant_of_always {Q : List ε → σ → ε → Prop} {P : List ε → σ → Prop}
    (h₀ : P [] M.init)
    (hstep : ∀ es e, P es (M.run es) → Q es (M.run es) e → P (es ++ [e]) (M.step (M.run es) e).1)
    {es : List ε} (h : M.Always Q es) : P es (M.run es) := by
  induction es using List.reverseRecOn with
  | nil => exact h₀
  | append_singleton es e ih =>
    obtain ⟨hes, he⟩ := always_snoc.mp h
    rw [run_snoc]
    exact hstep es e (ih hes) he

end Machine
