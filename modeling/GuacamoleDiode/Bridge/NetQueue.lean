import GuacamoleDiode.Bridge.Multiplexer
import GuacamoleDiode.Lib.Monitor

/-!
# The queues between the threads

`NetQueue` with its lock and its condition variable, and any number of threads that use it.
The brokers take a message off a queue or put one on it in one step each; what a lock protects
here goes through just these steps.

## Main definitions

- `NetQueue.monitor`: the calls of the queue
- `NetQueue.peak`: the largest size of the queue since the last `TakeHighWater`

## Main results

- `NetQueue.fifo`: every message is handed out once, in the order of the calls of `Enqueue`
- `NetQueue.wakeup_pending`: nobody sleeps while there is a message for him
- `NetQueue.peak_reported`: what `TakeHighWater` returns
-/

namespace GuacamoleDiode

/-- What the lock of a queue protects. -/
structure NetQueue where
  queue : List BridgeMessage := []
  closed : Bool := false
  high_water : ℕ := 0
  deriving DecidableEq, Repr

namespace NetQueue

/-- The calls that do not wait. -/
inductive Call where
  | enqueue (message : BridgeMessage)
  | takeHighWater
  | close
  | peek
  | isEmpty
  | size
  deriving DecidableEq, Repr

/-- What they return. -/
inductive Returned where
  | nothing
  | count (n : ℕ)
  | first (message : Option BridgeMessage)
  | flag (b : Bool)
  deriving DecidableEq, Repr

/-- The locked parts of the calls. -/
def update : Call → NetQueue → NetQueue × Returned
  | .enqueue message, q =>
    let queue := q.queue ++ [message]
    ({ q with queue, high_water := if q.high_water < queue.length then queue.length else q.high_water },
      .nothing)
  | .takeHighWater, q => ({ q with high_water := q.queue.length }, .count q.high_water)
  | .close, q => ({ q with closed := true }, .nothing)
  | .peek, q => (q, .first q.queue.head?)
  | .isEmpty, q => (q, .flag q.queue.isEmpty)
  | .size, q => (q, .count q.queue.length)

def notify : Call → Monitor.Notify
  | .enqueue _ => .one
  | .close => .all
  | _ => .none

/-- What `Dequeue` waits for. -/
def ready (q : NetQueue) : Bool := !q.queue.isEmpty || q.closed

/-- What `Dequeue` does then. -/
def take (q : NetQueue) : NetQueue × Option BridgeMessage :=
  match q.queue with
  | [] => (q, none)
  | message :: rest => ({ q with queue := rest }, some message)

/-- The calls of the queue. -/
def monitor : Monitor NetQueue Call Returned (Option BridgeMessage) where
  init := {}
  update := update
  notify := notify
  ready := ready
  take := take

abbrev State := Monitor.State NetQueue ℕ
abbrev Event := Monitor.Event ℕ Call
abbrev Output := Monitor.Output ℕ Call Returned (Option BridgeMessage)

/-- The threads that use the queue. -/
def machine : Machine State Event Output := monitor.machine ℕ

/-- The messages in the order of the calls of `Enqueue`. -/
def enqueued (outputs : List Output) : List BridgeMessage :=
  outputs.filterMap fun
    | .updated _ (.enqueue message) _ => some message
    | _ => none

/-- The messages that the calls of `Dequeue` have returned. -/
def dequeued (outputs : List Output) : List BridgeMessage :=
  outputs.filterMap fun
    | .took _ message => message
    | _ => none

/-- The call was `TakeHighWater`. -/
def Takes : Output → Bool
  | .updated _ .takeHighWater _ => true
  | _ => false

/-- The largest size of the queue since the last `TakeHighWater`. -/
def peak (es : List Event) : ℕ :=
  machine.observe (fun n s e outputs =>
    let size := (machine.step s e).1.shared.queue.length
    if outputs.any Takes then size else max n size) 0 es

/-- A closed queue could serve everybody. -/
def demand (q : NetQueue) : ℕ∞ := if q.closed then ⊤ else q.queue.length

theorem ready_iff (q : NetQueue) : ready q = true ↔ demand q ≠ 0 := by
  unfold ready demand
  cases q.closed <;> cases q.queue <;> simp

theorem demand_take {q : NetQueue} (h : ready q = true) : demand (take q).1 + 1 ≤ demand q := by
  unfold demand take
  cases hclosed : q.closed with
  | true => simp
  | false =>
    cases hqueue : q.queue with
    | nil => simp [ready, hclosed, hqueue] at h
    | cons message rest => simp

theorem demand_enqueue (message : BridgeMessage) (q : NetQueue) :
    demand (update (.enqueue message) q).1 ≤ demand q + 1 := by
  unfold demand update
  cases q.closed <;> simp

/-- A message that is put on the queue can serve one thread. -/
def demands : Monitor.Demand monitor where
  demand := demand
  ready := ready_iff
  none call q h := by
    cases call with
    | enqueue message => cases h
    | close => cases h
    | _ => exact le_rfl
  one call q h := by
    cases call with
    | enqueue message => exact demand_enqueue message q
    | _ => cases h
  take _ h := demand_take h

theorem locked_step (s : State) (e : Event) :
    Monitor.Locked monitor s.shared e (machine.step s e).1.shared (machine.step s e).2 :=
  Monitor.locked_step monitor s e

/-- Every message is handed out once, in the order of the calls of `Enqueue`; what has not been
handed out is on the queue. `Dequeue` returns nothing only if the queue has been closed and
everything has been handed out. -/
theorem fifo (es : List Event) :
    dequeued (machine.emitted es) ++ (machine.run es).shared.queue = enqueued (machine.emitted es) ∧
      ∀ e t, .took t none ∈ (machine.step (machine.run es) e).2 →
        (machine.run es).shared.closed = true ∧
          dequeued (machine.emitted es) = enqueued (machine.emitted es) := by
  have hall : dequeued (machine.emitted es) ++ (machine.run es).shared.queue =
      enqueued (machine.emitted es) := by
    refine Monitor.rule (M := monitor)
      (P := fun out q => dequeued out ++ q.queue = enqueued out) rfl ?_ ?_ es
    · intro out q t call h
      cases call with
      | enqueue message =>
        simp [monitor, update, dequeued, enqueued, ← List.append_assoc] at h ⊢
        exact h
      | _ => simpa [monitor, update, dequeued, enqueued] using h
    · intro out q t h hready
      cases hqueue : q.queue with
      | nil => simpa [monitor, take, hqueue, dequeued, enqueued] using h
      | cons message rest => simpa [monitor, take, hqueue, dequeued, enqueued] using h
  refine ⟨hall, fun e t ht => ?_⟩
  have hlocked := locked_step (machine.run es) e
  generalize (machine.step (machine.run es) e).2 = out at hlocked ht
  generalize (machine.step (machine.run es) e).1.shared = x at hlocked
  cases hlocked with
  | none => cases ht
  | update t' call => simp at ht
  | take _ t' hready =>
    have hnone : (take (machine.run es).shared).2 = none := by
      have hmem := List.mem_singleton.mp ht
      injection hmem with _ hresult
      exact hresult.symm
    cases hqueue : (machine.run es).shared.queue with
    | cons message rest => simp [take, hqueue] at hnone
    | nil =>
      rw [hqueue, List.append_nil] at hall
      refine ⟨?_, hall⟩
      simpa [monitor, ready, hqueue] using hready

/-- Whatever the order of the accesses, for every message on the queue that a sleeping thread
could take somebody has been woken or is about to be, and on a closed queue nobody sleeps for good.
So if anybody sleeps who need not, two accesses at most and a waiting thread has gone on. -/
theorem wakeup_pending (es : List Event) (hasleep : (machine.run es).asleep.Nonempty) :
    ((machine.run es).all = ∅ → (machine.run es).shared.closed = false ∧
        (machine.run es).shared.queue.length ≤ (machine.run es).woken.card + (machine.run es).one.card) ∧
      (ready (machine.run es).shared = true → ∃ t,
        (machine.step (machine.run es) (.resume t)).2 = [.took t (take (machine.run es).shared).2] ∨
          ∃ n, (machine.step (machine.step (machine.run es) (.notify n t)).1 (.resume t)).2 =
            [.took t (take (machine.run es).shared).2]) := by
  have hattended := Monitor.attended_run demands es
  refine ⟨fun hall => ?_, fun hready => hattended.proceeds hready hasleep⟩
  have henough := hattended.enough hasleep hall
  change demand (machine.run es).shared ≤ _ at henough
  cases hclosed : (machine.run es).shared.closed with
  | true =>
    rw [demand, hclosed, if_pos rfl, top_le_iff] at henough
    exact absurd henough (ENat.natCast_ne_top _)
  | false =>
    rw [demand, hclosed, if_neg Bool.false_ne_true] at henough
    exact ⟨rfl, Nat.cast_le.mp henough⟩

/-- Thread 0 sleeps, and thread 1 has put a message on the queue and not notified yet. -/
def sleeperRun : List Event := [.call 0, .update 1 (.enqueue {})]

/-- The sleeper gets the message. -/
theorem wakeup_pending_sleeperRun : ready (machine.run sleeperRun).shared = true ∧
    ∃ t, (machine.step (machine.run sleeperRun) (.resume t)).2 =
        [.took t (take (machine.run sleeperRun).shared).2] ∨
      ∃ n, (machine.step (machine.step (machine.run sleeperRun) (.notify n t)).1 (.resume t)).2 =
        [.took t (take (machine.run sleeperRun).shared).2] := by
  have hready : ready (machine.run sleeperRun).shared = true := by decide
  have hasleep : (machine.run sleeperRun).asleep.Nonempty := ⟨0, by decide⟩
  exact ⟨hready, (wakeup_pending sleeperRun hasleep).2 hready⟩

theorem peak_snoc (es : List Event) (e : Event) :
    peak (es ++ [e]) =
      if (machine.step (machine.run es) e).2.any Takes then (machine.run (es ++ [e])).shared.queue.length
      else max (peak es) (machine.run (es ++ [e])).shared.queue.length := by
  rw [peak, Machine.observe_snoc, Machine.run_snoc]
  rfl

/-- The high-water mark is the largest size of the queue since the last `TakeHighWater`, and this
is what the next `TakeHighWater` returns. -/
theorem peak_reported (es : List Event) :
    (machine.run es).shared.high_water = peak es ∧
      ∀ e t r, .updated t .takeHighWater r ∈ (machine.step (machine.run es) e).2 →
        r = .count (peak es) := by
  have hmark : (machine.run es).shared.high_water = peak es ∧
      (machine.run es).shared.queue.length ≤ peak es := by
    induction es using List.reverseRecOn with
    | nil => exact ⟨rfl, le_rfl⟩
    | append_singleton es e ih =>
      obtain ⟨hmark, hsize⟩ := ih
      rw [peak_snoc, Machine.run_snoc]
      have hlocked := locked_step (machine.run es) e
      generalize (machine.step (machine.run es) e).1.shared = q at hlocked ⊢
      generalize (machine.step (machine.run es) e).2 = out at hlocked ⊢
      cases hlocked with
      | none => exact ⟨hmark.trans (max_eq_left hsize).symm, le_max_right _ _⟩
      | update t call =>
        cases call with
        | enqueue message =>
          have hgrown : ((machine.run es).shared.queue ++ [message]).length =
              (machine.run es).shared.queue.length + 1 := List.length_append
          refine ⟨?_, le_max_right _ _⟩
          show (if (machine.run es).shared.high_water < ((machine.run es).shared.queue ++ [message]).length
            then _ else _) = max (peak es) ((machine.run es).shared.queue ++ [message]).length
          rw [hmark, hgrown]
          split_ifs <;> omega
        | takeHighWater => exact ⟨rfl, le_rfl⟩
        | _ => exact ⟨hmark.trans (max_eq_left hsize).symm, le_max_right _ _⟩
      | take _ t hready =>
        have hshrunk : (take (machine.run es).shared).1.queue.length ≤
            (machine.run es).shared.queue.length := by
          unfold take
          split <;> simp [*]
        have hkept : (take (machine.run es).shared).1.high_water = (machine.run es).shared.high_water := by
          unfold take
          split <;> rfl
        refine ⟨?_, le_max_right _ _⟩
        show (take (machine.run es).shared).1.high_water = max (peak es) _
        rw [hkept, hmark]
        exact (max_eq_left (hshrunk.trans hsize)).symm
  refine ⟨hmark.1, fun e t r hr => ?_⟩
  have hlocked := locked_step (machine.run es) e
  generalize (machine.step (machine.run es) e).1.shared = q at hlocked
  generalize (machine.step (machine.run es) e).2 = out at hlocked hr
  cases hlocked with
  | none => cases hr
  | update t' call =>
    obtain ⟨-, rfl, rfl⟩ : t = t' ∧ .takeHighWater = call ∧
        r = (monitor.update call (machine.run es).shared).2 := by simpa using hr
    rw [← hmark.1]
    rfl
  | take => simp at hr

-- ════════════════════════════════════════════════════════════════════════
-- One call after another
-- ════════════════════════════════════════════════════════════════════════

/-- No thread is in a call. -/
structure Quiet (s : State) : Prop where
  asleep : s.asleep = ∅
  woken : s.woken = ∅
  one : s.one = ∅
  all : s.all = ∅

section

variable {s : State} {t : ℕ} {message : BridgeMessage} {rest : List BridgeMessage}

theorem Quiet.idle (h : Quiet s) (t : ℕ) : s.Idle t := by
  simp [Monitor.State.Idle, h.asleep, h.woken, h.one, h.all]

/-- The locked part of `Enqueue`. -/
theorem step_enqueue (h : s.Idle t) (message : BridgeMessage) :
    (machine.step s (.update t (.enqueue message))).1 =
      { s with
        shared := (update (.enqueue message) s.shared).1
        one := insert t s.one } := by
  show (Monitor.step monitor s (.update t (.enqueue message))).1 = _
  rw [Monitor.step, if_pos h]
  rfl

/-- A whole call of `Enqueue`. -/
theorem Quiet.enqueue (h : Quiet s) (t : ℕ) (message : BridgeMessage) :
    machine.step (machine.step s (.update t (.enqueue message))).1 (.notify t 0) =
      ({ s with shared := (update (.enqueue message) s.shared).1 }, []) := by
  have hone : (insert t s.one).erase t = s.one := by simp [h.one]
  rw [step_enqueue (h.idle t)]
  show Monitor.step monitor _ (.notify t 0) = _
  simp [Monitor.step, h.all, h.asleep, hone]

/-- A whole call of `Dequeue`. -/
theorem Quiet.dequeue (h : Quiet s) (t : ℕ) (hqueue : s.shared.queue = message :: rest) :
    machine.step s (.call t) =
      ({ s with shared := { s.shared with queue := rest } }, [.took t (some message)]) := by
  have hready : monitor.ready s.shared = true := by simp [monitor, ready, hqueue]
  have htake : monitor.take s.shared = ({ s.shared with queue := rest }, some message) := by
    simp [monitor, take, hqueue]
  show Monitor.step monitor s (.call t) = _
  rw [Monitor.step, if_pos (h.idle t), Monitor.State.enter, if_pos hready, htake]

end

end NetQueue

end GuacamoleDiode
