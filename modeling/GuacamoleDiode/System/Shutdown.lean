import GuacamoleDiode.Gcdbroker.Turns
import GuacamoleDiode.Gmlbroker.Requests

/-!
# The end of a broker

SIGINT and SIGTERM clear `running`. The threads of a broker leave their loops, its readers
announce their channels on the send queue, and when all of them are gone `main` closes the
queue and joins the sender, `UDPSendHandler`. A closed queue still hands out what it holds,
but the sender looks at `running` before each message.

Both brokers end in this way, so that the machine here is one over any threads that put
messages on a send queue.

## Main definitions

- `Threads`: what a broker runs besides its sender
- `Shutdown.machine`: the threads, the sender, and `main` from the interrupt on
- `Shutdown.Drained`: everything that was queued has been sent
- `Shutdown.Attentive`: the sender is not gone while there is something to send

## Main results

- `Shutdown.drained_iff`: exactly then the queue is drained
- `Shutdown.brokers_drained_iff`: for both brokers
-/

namespace GuacamoleDiode

open Wire

/-- The threads that put messages on the send queue; the outputs of a step are the messages. -/
structure Threads (σ ε : Type) extends Machine σ ε BridgeMessage where
  /-- the threads have been joined, and the readers have left -/
  finished : σ → Bool

/-- Where `UDPSendHandler` stands. -/
inductive UDPSendHandler where
  /-- at the head of its loop -/
  | checking
  /-- in `Dequeue` -/
  | dequeuing
  /-- about to serialize and send a message -/
  | sending (msg : BridgeMessage)
  | returned
  deriving DecidableEq, Repr

/-- The message in the hands of the sender. -/
def UDPSendHandler.held : UDPSendHandler → List BridgeMessage
  | .sending msg => [msg]
  | _ => []

structure Shutdown (σ : Type) where
  threads : σ
  /-- the send queue -/
  queue : List BridgeMessage := []
  /-- `main` has closed the send queue -/
  closed : Bool := false
  running : Bool := true
  sender : UDPSendHandler := .checking
  /-- `main` has joined the sender -/
  joined : Bool := false

namespace Shutdown

inductive Event (ε : Type) where
  /-- a thread of the broker goes on -/
  | thread (e : ε)
  /-- the signal handler clears `running` -/
  | interrupt
  /-- the sender goes on -/
  | send
  /-- `main` closes the send queue -/
  | close
  /-- `main` joins the sender -/
  | join
  deriving DecidableEq, Repr

inductive Output where
  | enqueued (msg : BridgeMessage)
  /-- `UDPSender::Send` -/
  | sent (data : Bytes)
  deriving DecidableEq, Repr

variable {σ ε : Type}

/-- The next access of the sender. `Dequeue` blocks while the queue is empty and open. -/
def send (s : Shutdown σ) : Shutdown σ × List Output :=
  match s.sender with
  | .checking => ({ s with sender := if s.running then .dequeuing else .returned }, [])
  | .dequeuing =>
    match s.queue with
    | [] => if s.closed then ({ s with sender := .returned }, []) else (s, [])
    | msg :: rest => ({ s with queue := rest, sender := .sending msg }, [])
  | .sending msg => ({ s with sender := .checking }, [.sent (Multiplexer.serialize msg)])
  | .returned => (s, [])

def step (T : Threads σ ε) (s : Shutdown σ) : Event ε → Shutdown σ × List Output
  | .thread e =>
    -- the threads have ended before the queue is closed
    if s.closed then (s, [])
    else
      let r := T.step s.threads e
      ({ s with threads := r.1, queue := s.queue ++ r.2 }, r.2.map .enqueued)
  | .interrupt => ({ s with running := false }, [])
  | .send => s.send
  | .close =>
    if s.running = false ∧ T.finished s.threads = true then ({ s with closed := true }, [])
    else (s, [])
  | .join => if s.closed ∧ s.sender = .returned then ({ s with joined := true }, []) else (s, [])

/-- A broker from its start to its end. -/
def machine (T : Threads σ ε) : Machine (Shutdown σ) (Event ε) Output where
  init := { threads := T.init }
  step := step T

/-- The messages that were queued, in order. -/
def enqueued : List Output → List BridgeMessage
  | [] => []
  | .enqueued msg :: outputs => msg :: enqueued outputs
  | .sent _ :: outputs => enqueued outputs

/-- The datagrams that were sent, in order. -/
def sent : List Output → List Bytes
  | [] => []
  | .enqueued _ :: outputs => sent outputs
  | .sent data :: outputs => data :: sent outputs

/-- Every message that was queued has been handed to `UDPSender::Send`, in order. -/
def Drained (T : Threads σ ε) (es : List (Event ε)) : Prop :=
  sent ((machine T).emitted es) =
    (enqueued ((machine T).emitted es)).map Multiplexer.serialize

/-- The sender does not leave its loop over a queue that holds something, and nothing is
queued once it has left. -/
def Attentive (T : Threads σ ε) (s : Shutdown σ) : Event ε → Prop
  | .send => s.sender = .checking → s.running = false → s.queue = []
  | .thread e => s.closed = false → s.sender = .returned → (T.step s.threads e).2 = []
  | _ => True

section

variable {T : Threads σ ε} {s : Shutdown σ} {es : List (Event ε)} {e : Event ε}

theorem enqueued_append (a b : List Output) : enqueued (a ++ b) = enqueued a ++ enqueued b := by
  induction a with
  | nil => rfl
  | cons output a ih => cases output <;> simp [enqueued, ih]

theorem sent_append (a b : List Output) : sent (a ++ b) = sent a ++ sent b := by
  induction a with
  | nil => rfl
  | cons output a ih => cases output <;> simp [sent, ih]

theorem enqueued_map (msgs : List BridgeMessage) : enqueued (msgs.map .enqueued) = msgs := by
  induction msgs with
  | nil => rfl
  | cons msg msgs ih => exact congrArg (msg :: ·) ih

theorem sent_map (msgs : List BridgeMessage) : sent (msgs.map .enqueued) = [] := by
  induction msgs with
  | nil => rfl
  | cons msg msgs ih => exact ih

/-- What a step does to the queue, the sender and the outputs. -/
inductive Turn (T : Threads σ ε) (s : Shutdown σ) (e : Event ε) : Shutdown σ → List Output → Prop
  /-- nothing is queued, taken or sent, and the sender does not return over a full queue -/
  | none (s' : Shutdown σ) (hqueue : s'.queue = s.queue) (hheld : s'.sender.held = s.sender.held)
    (hback : s.sender = .returned → s'.sender = .returned)
    (hleave : s'.sender = .returned → s.sender ≠ .returned → (s.queue = [] ↔ Attentive T s e))
    (hattentive : s'.sender ≠ .returned ∨ s.sender = .returned → Attentive T s e) :
    Turn T s e s' []
  | queued (s' : Shutdown σ) (msgs : List BridgeMessage) (hqueue : s'.queue = s.queue ++ msgs)
    (hsender : s'.sender = s.sender)
    (hattentive : Attentive T s e ↔ (s.sender = .returned → msgs = [])) :
    Turn T s e s' (msgs.map .enqueued)
  | taken (s' : Shutdown σ) (msg : BridgeMessage) (hqueue : s.queue = msg :: s'.queue)
    (hbefore : s.sender = .dequeuing) (hafter : s'.sender = .sending msg)
    (hattentive : Attentive T s e) : Turn T s e s' []
  | sent (s' : Shutdown σ) (msg : BridgeMessage) (hqueue : s'.queue = s.queue)
    (hbefore : s.sender = .sending msg) (hafter : s'.sender = .checking)
    (hattentive : Attentive T s e) : Turn T s e s' [.sent (Multiplexer.serialize msg)]

/-- A step that leaves the queue and the sender alone. -/
theorem turn_refl {s' : Shutdown σ} (hqueue : s'.queue = s.queue) (hsender : s'.sender = s.sender)
    (hattentive : Attentive T s e) : Turn T s e s' [] :=
  .none s' hqueue (by rw [hsender]) (fun h => hsender.trans h)
    (fun h hn => absurd (hsender.symm.trans h) hn) fun _ => hattentive

theorem turn_send : Turn T s .send s.send.1 s.send.2 := by
  cases hsender : s.sender with
  | checking =>
    rw [send, hsender]
    have hne : s.sender ≠ .returned := by simp [hsender]
    by_cases hrunning : s.running = true
    · have hattentive : Attentive T s .send := fun _ hr => absurd hrunning (by simp [hr])
      refine .none _ rfl ?_ (fun h => absurd h hne) ?_ fun _ => hattentive
      · rw [hsender]
        dsimp only
        rw [if_pos hrunning]
        rfl
      · intro hreturned
        dsimp only at hreturned
        rw [if_pos hrunning] at hreturned
        cases hreturned
    · refine .none _ rfl ?_ (fun h => absurd h hne) ?_ ?_
      · rw [hsender]
        dsimp only
        rw [if_neg hrunning]
        rfl
      · intro _ _
        exact ⟨fun h _ _ => h, fun h => h hsender (Bool.eq_false_iff.mpr hrunning)⟩
      · dsimp only
        rw [if_neg hrunning]
        exact fun h => absurd rfl (h.resolve_right hne)
  | dequeuing =>
    have hattentive : Attentive T s .send := fun hc => absurd hc (by simp [hsender])
    rw [send, hsender]
    cases hqueue : s.queue with
    | nil =>
      dsimp only
      split_ifs
      · refine .none _ hqueue.symm (by rw [hsender]; rfl) (fun h => absurd h (by simp [hsender])) ?_
          fun _ => hattentive
        exact fun _ _ => iff_of_true hqueue hattentive
      · exact turn_refl rfl rfl hattentive
    | cons msg rest => exact .taken _ msg hqueue hsender rfl hattentive
  | sending msg =>
    rw [send, hsender]
    exact .sent _ msg rfl hsender rfl fun hc => absurd hc (by simp [hsender])
  | returned =>
    rw [send, hsender]
    exact turn_refl rfl rfl fun hc => absurd hc (by simp [hsender])

theorem turn (T : Threads σ ε) (s : Shutdown σ) (e : Event ε) :
    Turn T s e (s.step T e).1 (s.step T e).2 := by
  cases e with
  | thread e =>
    rw [step]
    split_ifs with hclosed
    · exact turn_refl rfl rfl fun h => absurd hclosed (by simp [h])
    · refine .queued _ _ rfl rfl ⟨fun h => h (Bool.eq_false_iff.mpr hclosed), fun h _ => h⟩
  | interrupt => exact turn_refl rfl rfl trivial
  | send => exact turn_send
  | close =>
    rw [step]
    split_ifs <;> exact turn_refl rfl rfl trivial
  | join =>
    rw [step]
    split_ifs <;> exact turn_refl rfl rfl trivial

/-- What has been sent, what the sender holds and what waits are the messages that were queued. -/
theorem accounted (T : Threads σ ε) (es : List (Event ε)) :
    sent ((machine T).emitted es) ++
        (((machine T).run es).sender.held ++ ((machine T).run es).queue).map Multiplexer.serialize =
      (enqueued ((machine T).emitted es)).map Multiplexer.serialize := by
  induction es using List.reverseRecOn with
  | nil => rfl
  | append_singleton es e ih =>
    have hmap : ∀ a b : List BridgeMessage, (a ++ b).map Multiplexer.serialize =
        a.map Multiplexer.serialize ++ b.map Multiplexer.serialize := fun _ _ => List.map_append
    rw [Machine.run_snoc, Machine.emitted_snoc, sent_append, enqueued_append,
      hmap (enqueued ((machine T).emitted es)), ← ih]
    have hturn : Turn T _ e ((machine T).step ((machine T).run es) e).1
      ((machine T).step ((machine T).run es) e).2 := turn T _ e
    generalize ((machine T).step ((machine T).run es) e).1 = s',
      ((machine T).step ((machine T).run es) e).2 = outputs at hturn ⊢
    cases hturn with
    | none hqueue hheld _ _ _ => simp [hqueue, hheld, sent, enqueued]
    | queued msgs hqueue hsender _ =>
      simp [hqueue, hsender, sent_map, enqueued_map, List.append_assoc]
    | taken msg hqueue hbefore hafter _ =>
      simp [hqueue, hbefore, hafter, UDPSendHandler.held, sent, enqueued]
    | sent msg hqueue hbefore hafter _ =>
      simp [hqueue, hbefore, hafter, UDPSendHandler.held, sent, enqueued]

/-- Once the sender has returned, the queue tells whether it has been attentive; before, it
always has been. -/
theorem attentive_iff (T : Threads σ ε) (es : List (Event ε)) :
    (((machine T).run es).sender ≠ .returned →
      (machine T).Always (fun _ => Attentive T) es) ∧
    (((machine T).run es).sender = .returned →
      (((machine T).run es).queue = [] ↔ (machine T).Always (fun _ => Attentive T) es)) := by
  induction es using List.reverseRecOn with
  | nil => exact ⟨fun _ => Machine.always_nil, fun h => by cases h⟩
  | append_singleton es e ih =>
    obtain ⟨hbefore, hafter⟩ := ih
    rw [Machine.run_snoc, Machine.always_snoc]
    have hturn : Turn T _ e ((machine T).step ((machine T).run es) e).1
      ((machine T).step ((machine T).run es) e).2 := turn T _ e
    generalize ((machine T).step ((machine T).run es) e).1 = s',
      ((machine T).step ((machine T).run es) e).2 = outputs at hturn ⊢
    cases hturn with
    | none hqueue hheld hback hleave hattentive =>
      constructor
      · intro hne
        exact ⟨hbefore fun h => hne (hback h), hattentive (.inl hne)⟩
      · intro hreturned
        rw [hqueue]
        by_cases hwas : ((machine T).run es).sender = .returned
        · rw [hafter hwas]
          exact ⟨fun h => ⟨h, hattentive (.inr hwas)⟩, fun h => h.1⟩
        · rw [hleave hreturned hwas]
          exact ⟨fun h => ⟨hbefore hwas, h⟩, fun h => h.2⟩
    | queued msgs hqueue hsender hattentive =>
      rw [hqueue, hsender, hattentive]
      constructor
      · intro hne
        exact ⟨hbefore hne, fun h => absurd h hne⟩
      · intro hreturned
        rw [List.append_eq_nil_iff, hafter hreturned]
        exact and_congr_right fun _ => ⟨fun h _ => h, fun h => h hreturned⟩
    | taken msg _ hdequeuing hsending hattentive =>
      rw [hsending]
      exact ⟨fun _ => ⟨hbefore (by simp [hdequeuing]), hattentive⟩, fun h => by cases h⟩
    | sent msg _ hsending hchecking hattentive =>
      rw [hchecking]
      exact ⟨fun _ => ⟨hbefore (by simp [hsending]), hattentive⟩, fun h => by cases h⟩

/-- `main` joins a sender that has returned, and it stays joined. -/
theorem returned_of_joined (T : Threads σ ε) (es : List (Event ε))
    (h : ((machine T).run es).joined = true) : ((machine T).run es).sender = .returned := by
  induction es using List.reverseRecOn with
  | nil => cases h
  | append_singleton es e ih =>
    rw [Machine.run_snoc] at h ⊢
    have hkeeps : ((machine T).run es).joined = true → ((machine T).run es).sender = .returned := ih
    generalize (machine T).run es = s at h hkeeps ⊢
    change (s.step T e).1.joined = true at h
    show (s.step T e).1.sender = .returned
    cases e with
    | thread e =>
      rw [step] at h ⊢
      split_ifs at h ⊢ <;> exact hkeeps h
    | interrupt => exact hkeeps h
    | send =>
      have hjoined : s.send.1.joined = s.joined := by
        unfold send
        repeat' split
        all_goals rfl
      have hreturned := hkeeps (hjoined.symm.trans h)
      rw [step, send, hreturned]
      exact hreturned
    | close =>
      rw [step] at h ⊢
      split_ifs at h ⊢ <;> exact hkeeps h
    | join =>
      rw [step] at h ⊢
      split_ifs at h ⊢ with hnow
      · exact hnow.2
      · exact hkeeps h

/-- When `main` has joined the sender, everything that was queued has been sent if and only if
the sender has been attentive. -/
theorem drained_iff (T : Threads σ ε) (es : List (Event ε))
    (h : ((machine T).run es).joined = true) :
    Drained T es ↔ (machine T).Always (fun _ => Attentive T) es := by
  have hreturned := returned_of_joined T es h
  rw [← (attentive_iff T es).2 hreturned, Drained, ← accounted, hreturned]
  constructor
  · intro heq
    have hnil := List.append_right_eq_self.mp (heq.symm)
    simpa [UDPSendHandler.held] using hnil
  · intro hnil
    simp [UDPSendHandler.held, hnil]

end

-- ════════════════════════════════════════════════════════════════════════
-- The brokers
-- ════════════════════════════════════════════════════════════════════════

/-- gmlbroker without its sender. It has finished when the accept thread and the send handler
have been joined and the readers have left. -/
def gmlbroker (ids : ℕ → ℕ → Bytes) : Threads Gmlbroker Gmlbroker.Event where
  init := {}
  step s
    | .transmit => (s, [])
    | e => ((s.step ids e).1, (s.queued e).toList)
  finished s := s.acceptor = .accepting ∧ s.handler = .waiting ∧
    ∀ n < s.accepted, ∀ session ∈ s.sessions n, session.reader.closed = true ∧ session.pending = []

/-- gcdbroker without its sender. It has finished when the send handler has been joined and the
readers have left. -/
def gcdbroker : Threads Gcdbroker Gcdbroker.Event where
  init := {}
  step s
    | .transmit => (s, [])
    | e => ((s.step e).1, s.enqueued e)
  finished s := s.handler = .waiting ∧ ∀ k < s.dialed, (s.readers k).isNone

/-- In every run of a broker up to its end, the messages that were queued have been sent if and
only if the sender was attentive. -/
theorem brokers_drained_iff (ids : ℕ → ℕ → Bytes) :
    (∀ es, ((machine (gmlbroker ids)).run es).joined = true →
      (Drained (gmlbroker ids) es ↔
        (machine (gmlbroker ids)).Always (fun _ => Attentive (gmlbroker ids)) es)) ∧
    ∀ es, ((machine gcdbroker).run es).joined = true →
      (Drained gcdbroker es ↔ (machine gcdbroker).Always (fun _ => Attentive gcdbroker) es) :=
  ⟨drained_iff (gmlbroker ids), drained_iff gcdbroker⟩

/-- A browser connects, and its reader starts. -/
def opens : List (Event Gmlbroker.Event) :=
  [.thread .accept, .thread .register, .thread .register]

/-- A reader leaves its loop, gives its channel up and announces this. -/
def leaves (n : ℕ) : List (Event Gmlbroker.Event) :=
  .thread (.wake n .stop) :: List.replicate 5 (.thread (.perform n))

/-- The sender takes a message off the queue and sends it; then it finds `running` cleared. -/
def lastTurn : List (Event Gmlbroker.Event) := [.send, .send, .send]

/-- The sender waits for a message when the interrupt comes, and one session is live. -/
def oneSession : List (Event Gmlbroker.Event) :=
  opens ++ [.send, .interrupt] ++ leaves 0 ++ [.close] ++ lastTurn ++ [.join]

/-- The sender waits for a message when the interrupt comes, and two sessions are live. -/
def twoSessions : List (Event Gmlbroker.Event) :=
  opens ++ opens ++ [.send, .interrupt] ++ leaves 0 ++ leaves 1 ++ [.close] ++ lastTurn ++ [.join]

/-- The announcement of a single session is still sent. -/
theorem attentive_oneSession :
    (machine (gmlbroker fun _ _ => [])).Always (fun _ => Attentive (gmlbroker fun _ _ => []))
      oneSession :=
  ((brokers_drained_iff fun _ _ => []).1 oneSession (by decide +kernel)).mp
    (by unfold Drained; decide +kernel)

/-- Of two announcements the second one is lost. -/
theorem not_drained_twoSessions :
    ((machine (gmlbroker fun _ _ => [])).run twoSessions).joined = true ∧
      ¬Drained (gmlbroker fun _ _ => []) twoSessions :=
  ⟨by decide +kernel, by unfold Drained; decide +kernel⟩

end Shutdown

end GuacamoleDiode
