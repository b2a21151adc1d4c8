import GuacamoleDiode.Bridge.NetQueue

/-!
# Programs that share a queue

The models of the brokers put a message on a send queue and take one off it in one step each. In
the source both are calls of `NetQueue`: a thread that has put a message on the queue still has to
notify, and the thread that takes the messages off may sleep. `QueueUser.accesses` is a program
whose threads know the queue through these calls only.

## Main definitions

- `QueueUser`: a program of several threads that share a queue
- `QueueUser.accesses`: the same program, one access to `NetQueue` at a time
- `QueueUser.Implements`: what the accesses owe to the program

## Main results

- `QueueUser.implements`
-/

namespace GuacamoleDiode

/-- A step does the same whatever is on the queue, and puts one message on it at most. -/
def QueueUser.Puts {σ ε ο : Type} (setQueue : List BridgeMessage → σ → σ) (step : σ → ε → σ × List ο)
    (s : σ) (e : ε) : Prop :=
  ∃ (msg : Option BridgeMessage) (s' : σ) (out : List ο),
    ∀ q, step (setQueue q s) e = (setQueue (q ++ msg.toList) s', out)

/-- A program of several threads that share a queue. Thread 0 takes the messages off it. A step of
any other thread does not look at the queue, and puts one message on it at most. -/
structure QueueUser (σ ε ο : Type) where
  machine : Machine σ ε ο
  queue : σ → List BridgeMessage
  setQueue : List BridgeMessage → σ → σ
  /-- the thread that takes a step -/
  thread : ε → ℕ
  /-- the step of thread 0 -/
  transmit : ε
  /-- what thread 0 does with a message -/
  sent : BridgeMessage → List ο
  queue_setQueue : ∀ q s, queue (setQueue q s) = q
  setQueue_setQueue : ∀ q q' s, setQueue q (setQueue q' s) = setQueue q s
  setQueue_init : setQueue [] machine.init = machine.init
  thread_eq_zero : ∀ e, thread e = 0 ↔ e = transmit
  transmit_nil : ∀ s, machine.step (setQueue [] s) transmit = (setQueue [] s, [])
  transmit_cons : ∀ msg rest s,
    machine.step (setQueue (msg :: rest) s) transmit = (setQueue rest s, sent msg)
  step_other : ∀ e, thread e ≠ 0 → ∀ s, QueueUser.Puts setQueue machine.step s e

namespace QueueUser

variable {σ ε ο : Type}

section

variable {setQueue : List BridgeMessage → σ → σ} {step : σ → ε → σ × List ο} {s : σ} {e : ε}

/-- A step that puts nothing on the queue. -/
theorem puts_nothing (s' : σ) (out : List ο) (h : ∀ q, step (setQueue q s) e = (setQueue q s', out)) :
    Puts setQueue step s e := by
  refine ⟨none, s', out, fun q => ?_⟩
  rw [Option.toList_none, List.append_nil]
  exact h q

/-- A step that does nothing. -/
theorem puts_same (h : ∀ q, step (setQueue q s) e = (setQueue q s, [])) : Puts setQueue step s e :=
  puts_nothing s [] h

end

/-- The program without its queue, and the threads in the calls of the queue. -/
structure State (σ : Type) where
  program : σ
  calls : NetQueue.State

/-- One access of one thread. -/
inductive Access (ε : Type) where
  /-- a step of another thread than thread 0, up to the locked part of `Enqueue` if it calls it -/
  | step (e : ε)
  /-- `notify_one` of a thread that has put a message on the queue -/
  | notify (t : ℕ)
  /-- a call that does not notify, such as those of the queue monitor -/
  | inspect (t : ℕ) (call : NetQueue.Call)
  /-- thread 0 calls `Dequeue` -/
  | dequeue
  /-- thread 0 has been woken, and gets the lock -/
  | resume
  /-- thread 0 wakes up of its own accord -/
  | wakeUp
  deriving DecidableEq, Repr

variable (U : QueueUser σ ε ο)

/-- An access to the queue; a message that `Dequeue` returns is sent. -/
def access (s : State σ) (call : NetQueue.Event) : State σ × List ο :=
  let r := NetQueue.machine.step s.calls call
  ({ s with calls := r.1 }, (NetQueue.dequeued r.2).flatMap U.sent)

/-- `Enqueue`, if the thread has a message. -/
def enqueue (calls : NetQueue.State) (t : ℕ) : Option BridgeMessage → NetQueue.State
  | none => calls
  | some msg => (NetQueue.machine.step calls (.update t (.enqueue msg))).1

/-- A thread goes on if it is in no call. -/
def step (s : State σ) : Access ε → State σ × List ο
  | .step e =>
    if U.thread e ≠ 0 ∧ s.calls.Idle (U.thread e) then
      let r := U.machine.step (U.setQueue [] s.program) e
      ({ program := U.setQueue [] r.1
         calls := enqueue s.calls (U.thread e) (U.queue r.1).head? }, r.2)
    else (s, [])
  | .notify t => U.access s (.notify t 0)
  | .inspect t call => if NetQueue.notify call = .none then U.access s (.update t call) else (s, [])
  | .dequeue => U.access s (.call 0)
  | .resume => U.access s (.resume 0)
  | .wakeUp => U.access s (.wakeUp 0)

/-- The program, one access at a time. -/
def accesses : Machine (State σ) (Access ε) ο where
  init := ⟨U.machine.init, NetQueue.machine.init⟩
  step := U.step

/-- The program with what is on the queue. -/
def whole (s : State σ) : σ := U.setQueue s.calls.shared.queue s.program

/-- The accesses do what the program does in one step each, in every order, and the thread that
takes the messages off the queue does not sleep while there is one. -/
structure Implements : Prop where
  /-- every run of the accesses is one of the program -/
  sound : ∀ as, ∃ es, U.whole (U.accesses.run as) = U.machine.run es ∧
    U.accesses.emitted as = U.machine.emitted es
  /-- every run of the program is one of the accesses, with no thread left in a call -/
  complete : ∀ es, ∃ as, U.whole (U.accesses.run as) = U.machine.run es ∧
    U.accesses.emitted as = U.machine.emitted es ∧ NetQueue.Quiet (U.accesses.run as).calls
  /-- if thread 0 waits while there is a message, it sends it within two accesses -/
  awake : ∀ as msg rest,
    0 ∈ (U.accesses.run as).calls.asleep ∪ (U.accesses.run as).calls.woken →
    (U.accesses.run as).calls.shared.queue = msg :: rest →
      (U.step (U.accesses.run as) .resume).2 = U.sent msg ∨
        ∃ t, (U.step (U.step (U.accesses.run as) (.notify t)).1 .resume).2 = U.sent msg

-- ════════════════════════════════════════════════════════════════════════
-- One access
-- ════════════════════════════════════════════════════════════════════════

section

variable {U} {s : State σ} {e : ε} {msg : BridgeMessage} {rest : List BridgeMessage}

theorem whole_mk (q : List BridgeMessage) (program : σ) (calls : NetQueue.State)
    (h : calls.shared.queue = q) : U.whole ⟨U.setQueue [] program, calls⟩ = U.setQueue q program := by
  rw [whole, h, U.setQueue_setQueue]

/-- What a step puts on an empty queue is what it puts on any queue. -/
theorem step_setQueue (h : U.thread e ≠ 0) (q : List BridgeMessage) (program : σ) :
    let r := U.machine.step (U.setQueue [] program) e
    U.machine.step (U.setQueue q program) e = (U.setQueue (q ++ (U.queue r.1).head?.toList) r.1, r.2) := by
  obtain ⟨msg, program', out, hstep⟩ := U.step_other e h program
  simp only [hstep, U.queue_setQueue, U.setQueue_setQueue, List.nil_append]
  cases msg <;> rfl

theorem queue_enqueue {calls : NetQueue.State} {t : ℕ} (h : calls.Idle t) (msg : Option BridgeMessage) :
    (enqueue calls t msg).shared.queue = calls.shared.queue ++ msg.toList := by
  cases msg with
  | none => exact (List.append_nil _).symm
  | some msg => rw [enqueue, NetQueue.step_enqueue h]; rfl

/-- A step of another thread than thread 0. -/
theorem step_own (h : U.thread e ≠ 0) (hidle : s.calls.Idle (U.thread e)) :
    (U.whole (U.step s (.step e)).1, (U.step s (.step e)).2) = U.machine.step (U.whole s) e := by
  rw [step, if_pos ⟨h, hidle⟩, whole_mk _ _ _ (queue_enqueue hidle _), whole]
  exact (step_setQueue h _ _).symm

/-- An access of thread 0, a notification, or a call that puts nothing on the queue. -/
theorem whole_access {call : NetQueue.Event}
    (hcall : ∀ t a, call = .update t a → NetQueue.notify a = .none) :
    (U.whole (U.access s call).1, (U.access s call).2) = (U.whole s, []) ∨
      (U.whole (U.access s call).1, (U.access s call).2) = U.machine.step (U.whole s) U.transmit := by
  have hlocked := NetQueue.locked_step s.calls call
  simp only [access, whole]
  generalize (NetQueue.machine.step s.calls call).1.shared = q at hlocked ⊢
  generalize (NetQueue.machine.step s.calls call).2 = out at hlocked ⊢
  cases hlocked with
  | none => exact .inl rfl
  | update t a =>
    have hnotify := hcall t a rfl
    cases a with
    | enqueue msg => cases hnotify
    | _ => exact .inl rfl
  | take _ t hready =>
    cases hqueue : s.calls.shared.queue with
    | nil => exact .inl (by simp [NetQueue.monitor, NetQueue.take, hqueue, NetQueue.dequeued])
    | cons msg rest =>
      refine .inr ?_
      rw [U.transmit_cons]
      simp [NetQueue.monitor, NetQueue.take, hqueue, NetQueue.dequeued]

/-- An access is a step of the program, or nothing to it. -/
theorem whole_step (s : State σ) (a : Access ε) :
    ∃ e : Option ε, (U.whole (U.step s a).1, (U.step s a).2) =
      e.elim (U.whole s, []) (U.machine.step (U.whole s)) := by
  have haccess (call : NetQueue.Event) (hcall : ∀ t a, call = .update t a → NetQueue.notify a = .none) :
      ∃ e : Option ε, (U.whole (U.access s call).1, (U.access s call).2) =
        e.elim (U.whole s, []) (U.machine.step (U.whole s)) := by
    rcases whole_access (U := U) (s := s) hcall with h | h
    · exact ⟨none, h⟩
    · exact ⟨some U.transmit, h⟩
  cases a with
  | step e =>
    by_cases he : U.thread e ≠ 0 ∧ s.calls.Idle (U.thread e)
    · exact ⟨some e, step_own he.1 he.2⟩
    · exact ⟨none, by rw [step, if_neg he]; rfl⟩
  | notify t => exact haccess (.notify t 0) (by simp)
  | inspect t call =>
    rw [step]
    split_ifs with hnotify
    · refine haccess (.update t call) fun t' a h => ?_
      cases h
      exact hnotify
    · exact ⟨none, rfl⟩
  | dequeue => exact haccess (.call 0) (by simp)
  | resume => exact haccess (.resume 0) (by simp)
  | wakeUp => exact haccess (.wakeUp 0) (by simp)

-- ════════════════════════════════════════════════════════════════════════
-- The thread that sleeps
-- ════════════════════════════════════════════════════════════════════════

/-- Wake-ups are not lost, and nobody waits but thread 0. -/
structure Alone (calls : NetQueue.State) : Prop where
  attended : Monitor.Attended NetQueue.demands calls
  waits : ∀ t ∈ calls.asleep ∪ calls.woken, t = 0

theorem Alone.step {calls : NetQueue.State} (h : Alone calls) {call : NetQueue.Event}
    (hcall : ∀ t, call = .call t → t = 0) : Alone (NetQueue.machine.step calls call).1 :=
  ⟨Monitor.attended_step h.attended call,
    fun t ht => (Monitor.waits_step ht).elim (h.waits t) (hcall t)⟩

theorem alone_step (h : Alone s.calls) (a : Access ε) : Alone (U.step s a).1.calls := by
  cases a with
  | step e =>
    rw [QueueUser.step]
    split_ifs
    · show Alone (enqueue s.calls (U.thread e) (U.queue _).head?)
      cases (U.queue (U.machine.step (U.setQueue [] s.program) e).1).head? with
      | none => exact h
      | some msg => exact h.step (by simp)
    · exact h
  | notify t => exact h.step (by simp)
  | inspect t call =>
    rw [QueueUser.step]
    split_ifs
    · exact h.step (by simp)
    · exact h
  | dequeue => exact h.step (by simp)
  | resume => exact h.step (by simp)
  | wakeUp => exact h.step (by simp)

theorem alone_run (as : List (Access ε)) : Alone (U.accesses.run as).calls := by
  refine Machine.invariant (P := fun _ (s : State σ) => Alone s.calls) ?_ (fun _ a h => alone_step h a) as
  refine ⟨Monitor.attended_run NetQueue.demands [], fun t ht => ?_⟩
  simp [accesses, NetQueue.machine, Monitor.machine] at ht

/-- Thread 0 has been woken while there is a message on the queue. -/
theorem resume_woken (hwoken : 0 ∈ s.calls.woken) (hqueue : s.calls.shared.queue = msg :: rest) :
    (U.step s .resume).2 = U.sent msg := by
  have hready : NetQueue.monitor.ready s.calls.shared = true := by
    simp [NetQueue.monitor, NetQueue.ready, hqueue]
  have htook : (NetQueue.machine.step s.calls (.resume 0)).2 = [.took 0 (some msg)] := by
    refine (Monitor.resume_of_ready hready hwoken).trans ?_
    simp [NetQueue.monitor, NetQueue.take, hqueue]
  show (NetQueue.dequeued (NetQueue.machine.step s.calls (.resume 0)).2).flatMap U.sent = _
  rw [htook]
  simp [NetQueue.dequeued]

/-- Thread 0 sleeps while there is a message on the queue. -/
theorem Alone.awake (h : Alone s.calls) (hasleep : 0 ∈ s.calls.asleep)
    (hqueue : s.calls.shared.queue = msg :: rest) :
    ∃ t, (U.step (U.step s (.notify t)).1 .resume).2 = U.sent msg := by
  have hready : NetQueue.monitor.ready s.calls.shared = true := by
    simp [NetQueue.monitor, NetQueue.ready, hqueue]
  have hnotifies : ∃ t, t ∈ s.calls.one ∨ t ∈ s.calls.all := by
    rcases h.attended.stirs hready ⟨0, hasleep⟩ with ⟨t, ht⟩ | ⟨t, ht⟩ | ⟨t, ht⟩
    · -- nobody else could have been woken
      obtain rfl := h.waits t (Finset.mem_union_right _ ht)
      exact absurd ht (Finset.disjoint_left.mp h.attended.disjoint hasleep)
    · exact ⟨t, .inl ht⟩
    · exact ⟨t, .inr ht⟩
  obtain ⟨t, ht⟩ := hnotifies
  obtain ⟨hwoken, hshared⟩ := Monitor.woken_notify (M := NetQueue.monitor) ht hasleep
  have hqueue' : (U.step s (.notify t)).1.calls.shared.queue = msg :: rest := by
    show (Monitor.step NetQueue.monitor s.calls (.notify t 0)).1.shared.queue = _
    rw [hshared, hqueue]
  exact ⟨t, resume_woken hwoken hqueue'⟩

end

-- ════════════════════════════════════════════════════════════════════════
-- Whole runs
-- ════════════════════════════════════════════════════════════════════════

theorem whole_init : U.whole U.accesses.init = U.machine.init := U.setQueue_init

theorem sound (as : List (Access ε)) : ∃ es, U.whole (U.accesses.run as) = U.machine.run es ∧
    U.accesses.emitted as = U.machine.emitted es :=
  (Machine.refines (P := fun _ => True) U.whole U.whole_init trivial
    (fun s a _ _ => ⟨trivial, whole_step s a⟩) as).2

section

variable {U} {as : List (Access ε)}

/-- A step of thread 0 is a whole call of `Dequeue`, if it finds a message. -/
theorem exists_dequeue (hquiet : NetQueue.Quiet (U.accesses.run as).calls) :
    ∃ as', U.whole (U.accesses.run as') = (U.machine.step (U.whole (U.accesses.run as)) U.transmit).1 ∧
      U.accesses.emitted as' =
        U.accesses.emitted as ++ (U.machine.step (U.whole (U.accesses.run as)) U.transmit).2 ∧
      NetQueue.Quiet (U.accesses.run as').calls := by
  cases hqueue : (U.accesses.run as).calls.shared.queue with
  | nil =>
    rw [whole, hqueue, U.transmit_nil]
    exact ⟨as, by rw [whole, hqueue], (List.append_nil _).symm, hquiet⟩
  | cons msg rest =>
    have hcall : U.accesses.step (U.accesses.run as) .dequeue =
        (⟨(U.accesses.run as).program, { (U.accesses.run as).calls with
          shared := { (U.accesses.run as).calls.shared with queue := rest } }⟩, U.sent msg) := by
      show U.access _ (.call 0) = _
      rw [access, hquiet.dequeue 0 hqueue]
      simp [NetQueue.dequeued]
    rw [whole, hqueue, U.transmit_cons]
    refine ⟨as ++ [.dequeue], ?_, ?_, ?_⟩
    · rw [Machine.run_snoc, hcall, whole]
    · rw [Machine.emitted_snoc, hcall]
    · rw [Machine.run_snoc, hcall]
      exact ⟨hquiet.asleep, hquiet.woken, hquiet.one, hquiet.all⟩

/-- A step of another thread is a whole call of `Enqueue`, if it has a message. -/
theorem exists_enqueue (hquiet : NetQueue.Quiet (U.accesses.run as).calls) {e : ε} (he : U.thread e ≠ 0) :
    ∃ as', U.whole (U.accesses.run as') = (U.machine.step (U.whole (U.accesses.run as)) e).1 ∧
      U.accesses.emitted as' = U.accesses.emitted as ++ (U.machine.step (U.whole (U.accesses.run as)) e).2 ∧
      NetQueue.Quiet (U.accesses.run as').calls := by
  have hidle := hquiet.idle (U.thread e)
  obtain ⟨hwhole, hout⟩ := Prod.mk.inj (step_own he hidle)
  have hcalls : (U.accesses.run (as ++ [.step e])).calls = enqueue (U.accesses.run as).calls (U.thread e)
      (U.queue (U.machine.step (U.setQueue [] (U.accesses.run as).program) e).1).head? := by
    rw [Machine.run_snoc]
    show (U.step (U.accesses.run as) (.step e)).1.calls = _
    rw [step, if_pos ⟨he, hidle⟩]
  have hemitted : U.accesses.emitted (as ++ [.step e]) =
      U.accesses.emitted as ++ (U.machine.step (U.whole (U.accesses.run as)) e).2 := by
    rw [Machine.emitted_snoc, ← hout]
    rfl
  rw [← hwhole]
  change ∃ as', _ = U.whole (U.accesses.step (U.accesses.run as) (.step e)).1 ∧ _
  rw [← Machine.run_snoc, ← hemitted]
  cases hmsg : (U.queue (U.machine.step (U.setQueue [] (U.accesses.run as).program) e).1).head? with
  | none =>
    refine ⟨as ++ [.step e], rfl, rfl, ?_⟩
    rw [hcalls, hmsg]
    exact hquiet
  | some msg =>
    rw [hmsg] at hcalls
    -- nobody sleeps, so that the notification changes nothing but the thread
    have hnotify : U.accesses.step (U.accesses.run (as ++ [.step e])) (.notify (U.thread e)) =
        (⟨(U.accesses.run (as ++ [.step e])).program, { (U.accesses.run as).calls with
          shared := (NetQueue.update (.enqueue msg) (U.accesses.run as).calls.shared).1 }⟩, []) := by
      show U.access _ (.notify (U.thread e) 0) = _
      rw [access, hcalls, enqueue, hquiet.enqueue (U.thread e) msg]
      rfl
    refine ⟨as ++ [.step e] ++ [.notify (U.thread e)], ?_, ?_, ?_⟩
    · rw [U.accesses.run_snoc (as ++ [Access.step e]), hnotify, whole, whole, hcalls, enqueue,
        NetQueue.step_enqueue hidle]
    · rw [U.accesses.emitted_snoc (as ++ [Access.step e]), hnotify, List.append_nil]
    · rw [U.accesses.run_snoc (as ++ [Access.step e]), hnotify]
      exact ⟨hquiet.asleep, hquiet.woken, hquiet.one, hquiet.all⟩

end

theorem complete (es : List ε) : ∃ as, U.whole (U.accesses.run as) = U.machine.run es ∧
    U.accesses.emitted as = U.machine.emitted es ∧ NetQueue.Quiet (U.accesses.run as).calls := by
  induction es using List.reverseRecOn with
  | nil => exact ⟨[], U.whole_init, rfl, rfl, rfl, rfl, rfl⟩
  | append_singleton es e ih =>
    obtain ⟨as, hrun, hemitted, hquiet⟩ := ih
    rw [Machine.run_snoc, Machine.emitted_snoc, ← hrun, ← hemitted]
    by_cases he : U.thread e = 0
    · obtain rfl := (U.thread_eq_zero e).mp he
      exact exists_dequeue hquiet
    · exact exists_enqueue hquiet he

theorem implements : U.Implements where
  sound := U.sound
  complete := U.complete
  awake as msg rest hwaits hqueue := by
    rcases Finset.mem_union.mp hwaits with hasleep | hwoken
    · exact .inr ((alone_run as).awake hasleep hqueue)
    · exact .inl (resume_woken hwoken hqueue)

end QueueUser

end GuacamoleDiode
