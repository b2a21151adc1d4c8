import GuacamoleDiode.Gcdbroker.Descriptors

/-!
# What one step does to the channels

Everything that one access of one thread can do to the channel table, to the readers and
to the send queue. How connections are torn down is decided by these three alone.

## Main definitions

- `enqueued`: the messages that a step adds to the send queue
- `Turn`: the cases of a step

## Main results

- `turn`: a step of the broker is one of the cases
-/

namespace GuacamoleDiode

open Wire

namespace Gcdbroker

/-- The messages that a step adds to the send queue. -/
def enqueued (s : Gcdbroker) : Event → List BridgeMessage
  | .handle =>
    match s.handler with
    | .relaying msg => [msg]
    | _ => []
  | .receive k data _ =>
    match s.readers k with
    | some r =>
      if r.stage = .receiving ∧ data.take Multiplexer.maxPayloadSize ≠ [] then
        [{ channel := r.channel, action := .none, payload := data.take Multiplexer.maxPayloadSize }]
      else []
    | none => []
  | .read k =>
    match s.readers k with
    | some r => if r.stage = .announcing then [{ channel := r.channel, action := .shutdownChannel }] else []
    | none => []
  | _ => []

/-- What a step leaves on the send queue of what is there: the sender takes a message off. -/
def unsent (s : Gcdbroker) : Event → List BridgeMessage
  | .transmit => s.sendQueue.tail
  | _ => s.sendQueue

theorem sendQueue_step (s : Gcdbroker) (e : Event) :
    (s.step e).1.sendQueue = s.unsent e ++ s.enqueued e := by
  have hnil : ∀ {q : List BridgeMessage}, q = q ++ [] := (List.append_nil _).symm
  cases e with
  | datagram data =>
    simp only [step, enqueued, unsent]
    split <;> exact hnil
  | handle =>
    cases hh : s.handler with
    | busy item stage =>
      simp only [step, handle, enqueued, unsent, hh, List.append_nil]
      cases stage with
      | fetched =>
        simp only [dispatch]
        repeat' split
        all_goals rfl
      | dialed fd k =>
        simp only [insert]
        split <;> rfl
      | routed fd => rfl
    | waiting =>
      simp only [step, handle, enqueued, unsent, hh]
      split <;> exact hnil
    | relaying msg => simp only [step, handle, enqueued, unsent, hh]
    | failed c =>
      simp only [step, handle, enqueued, unsent, hh]
      exact hnil
  | dial fd =>
    simp only [step, dial, enqueued, unsent]
    repeat' split
    all_goals exact hnil
  | send taken =>
    simp only [step, send, enqueued, unsent]
    repeat' split
    all_goals exact hnil
  | receive k data due =>
    simp only [step, receive, enqueued, unsent]
    cases s.readers k with
    | none => exact hnil
    | some r =>
      by_cases hstage : r.stage = .receiving
      · by_cases hdata : data.take Multiplexer.maxPayloadSize = []
        · simp [hstage, hdata]
        · simp [hstage, hdata]
      · simp [hstage]
  | timeout k due => exact hnil
  | read k =>
    simp only [step, read, enqueued, unsent]
    cases s.readers k with
    | none => exact hnil
    | some r => cases hstage : r.stage <;> simp [hstage]
  | transmit =>
    simp only [step, enqueued, unsent]
    split
    · next hq => simp [hq]
    · next hq => simp [hq]

/-- Everything that a step can do to the table, the readers and the send queue. -/
inductive Turn (s : Gcdbroker) (e : Event) (s' : Gcdbroker) : List BridgeMessage → Prop where
  /-- a step of the handler or of a thread without channels -/
  | other (table : s'.table = s.table) (readers : s'.readers = s.readers)
      (relaying : ∀ msg, s.handler ≠ .relaying msg ∨ s'.handler = s.handler)
      (routed : ∀ item fd, s'.handler = .busy item (.routed fd) →
        s'.handler = s.handler ∨ s.table item.msg.channel = some fd) : Turn s e s' []
  /-- a SHUTDOWN of the bridge removes its channel -/
  | shut (item : Item) (handler : s.handler = .busy item .fetched)
      (action : item.msg.action = .shutdownChannel)
      (table : s'.table = Function.update s.table item.msg.channel none)
      (readers : s'.readers = s.readers)
      (handler' : s'.handler =
        .relaying { channel := item.msg.channel, action := .shutdownChannel }) : Turn s e s' []
  /-- a connection is bound to its channel -/
  | bind (event : e = .handle) (item : Item) (fd k : ℕ)
      (handler : s.handler = .busy item (.dialed fd k))
      (unbound : s.table item.msg.channel = none)
      (table : s'.table = Function.update s.table item.msg.channel (some fd))
      (readers : s'.readers =
        Function.update s.readers k (some { channel := item.msg.channel, fd := fd }))
      (handler' : s'.handler = .relaying item.msg) : Turn s e s' []
  /-- the handler queues a message for the return path -/
  | relay (msg : BridgeMessage) (handler : s.handler = .relaying msg)
      (table : s'.table = s.table) (readers : s'.readers = s.readers)
      (handler' : s'.handler = .waiting) : Turn s e s' [msg]
  /-- a failed write removes its channel -/
  | fail (event : e = .handle) (c : UInt16) (handler : s.handler = .failed c)
      (table : s'.table = Function.update s.table c none) (readers : s'.readers = s.readers)
      (handler' : s'.handler = .waiting) : Turn s e s' []
  /-- a reader goes round its loop, or leaves it -/
  | work {msgs : List BridgeMessage} (k : ℕ) (r r' : Reader) (reader : s.readers k = some r) (table : s'.table = s.table)
      (readers : s'.readers = Function.update s.readers k (some r'))
      (same : r'.fd = r.fd ∧ r'.channel = r.channel) (listed : r.stage.Listed ∧ r'.stage.Listed)
      (handler : s'.handler = s.handler) : Turn s e s' msgs
  /-- a reader removes its channel -/
  | leave (k : ℕ) (r : Reader) (reader : s.readers k = some r) (stage : r.stage = .leaving)
      (table : s'.table = Function.update s.table r.channel none)
      (readers : s'.readers = Function.update s.readers k (some { r with
        stage := if (s.table r.channel).isSome then .announcing else .closing }))
      (handler : s'.handler = s.handler) : Turn s e s' []
  /-- a reader announces that it has removed the channel -/
  | announce (k : ℕ) (r : Reader) (reader : s.readers k = some r) (stage : r.stage = .announcing)
      (table : s'.table = s.table)
      (readers : s'.readers = Function.update s.readers k (some { r with stage := .closing }))
      (handler : s'.handler = s.handler) :
      Turn s e s' [{ channel := r.channel, action := .shutdownChannel }]
  /-- a reader closes its descriptor and is finished -/
  | close (k : ℕ) (event : e = .read k) (r : Reader) (reader : s.readers k = some r)
      (stage : r.stage = .closing) (table : s'.table = s.table)
      (readers : s'.readers = Function.update s.readers k none)
      (handler : s'.handler = s.handler) : Turn s e s' []

section

variable {s : Gcdbroker}

theorem turn_refl (e : Event) : Turn s e s [] :=
  .other rfl rfl (fun _ => .inr rfl) fun _ _ _ => .inl rfl

theorem turn_dispatch (e : Event) {item : Item} (hh : s.handler = .busy item .fetched) :
    Turn s e (s.dispatch item).1 [] := by
  unfold dispatch
  split
  · exact .other rfl rfl (by simp [hh]) (by simp)
  · split_ifs
    · exact turn_refl e
    · exact .other rfl rfl (by simp [hh]) (by simp)
  · next hact => exact .shut item hh hact rfl rfl rfl
  · split
    · exact .other rfl rfl (by simp [hh]) (by simp)
    · next fd hfd =>
      refine .other rfl rfl (by simp [hh]) fun item' fd' heq => .inr ?_
      cases heq
      exact hfd

theorem turn_handle : Turn s .handle s.handle.1 (s.enqueued .handle) := by
  cases hh : s.handler with
  | waiting =>
    simp only [handle, enqueued, hh]
    split
    · exact turn_refl _
    · exact .other rfl rfl (by simp [hh]) (by simp)
  | busy item stage =>
    cases stage with
    | fetched =>
      simp only [handle, enqueued, hh]
      exact turn_dispatch _ hh
    | dialed fd k =>
      simp only [handle, enqueued, hh, insert]
      split
      · next hnone => exact .bind rfl item fd k hh hnone rfl rfl rfl
      · exact .other rfl rfl (by simp [hh]) (by simp)
    | routed fd =>
      simp only [handle, enqueued, hh]
      exact turn_refl _
  | relaying msg =>
    simp only [handle, enqueued, hh]
    exact .relay msg hh rfl rfl rfl
  | failed c =>
    simp only [handle, enqueued, hh]
    exact .fail rfl c hh rfl rfl rfl

theorem turn_dial (fd : Option ℕ) : Turn s (.dial fd) (s.dial fd).1 [] := by
  unfold dial
  split
  · next hh =>
    split_ifs
    · split
      · exact .other rfl rfl (by simp [hh]) (by simp)
      · split_ifs
        · exact .other rfl rfl (by simp [hh]) (by simp)
        · exact turn_refl _
    · exact turn_refl _
  · exact turn_refl _

theorem turn_send (taken : ℕ) : Turn s (.send taken) (s.send taken).1 [] := by
  unfold send
  split
  · next hh =>
    split
    · refine .other rfl rfl (by simp [hh]) fun item fd heq => ?_
      dsimp only at heq
      split_ifs at heq
    · refine .other rfl rfl (by simp [hh]) fun item fd heq => ?_
      dsimp only at heq
      split_ifs at heq
  · exact turn_refl _

theorem turn_receive {k : ℕ} {r : Reader} (hr : s.readers k = some r) (data : Bytes) (due : Bool) :
    Turn s (.receive k data due) (s.receive k r data due).1 (s.enqueued (.receive k data due)) := by
  simp only [enqueued, hr]
  unfold receive
  by_cases hstage : r.stage = .receiving
  · rw [if_pos hstage]
    dsimp only
    by_cases hdata : data.take Multiplexer.maxPayloadSize = []
    · rw [if_pos hdata]
      exact .work k r _ hr rfl rfl ⟨rfl, rfl⟩ (by simp [hstage, ReaderStage.Listed]) rfl
    · rw [if_neg hdata]
      exact .work k r _ hr rfl rfl ⟨rfl, rfl⟩ (by simp [hstage, ReaderStage.Listed]) rfl
  · rw [if_neg hstage, if_neg fun h => hstage h.1]
    exact turn_refl _

theorem turn_read {k : ℕ} {r : Reader} (hr : s.readers k = some r) :
    Turn s (.read k) (s.read k r).1 (s.enqueued (.read k)) := by
  simp only [enqueued, hr]
  unfold read
  split
  · next hstage => simpa [hstage] using turn_refl (.read k)
  · next data due hstage =>
    obtain ⟨hfd, hchannel, hreceiving⟩ := r.feed_fd data due
    exact .work k r _ hr rfl rfl ⟨hfd, hchannel⟩
      (by simp [hstage, hreceiving, ReaderStage.Listed]) rfl
  · next hstage =>
    have hne : r.stage ≠ .announcing := by simp [hstage]
    rw [if_neg hne]
    exact .leave k r hr hstage rfl rfl rfl
  · next hstage =>
    rw [if_pos hstage]
    exact .announce k r hr hstage rfl rfl rfl
  · next hstage =>
    have hne : r.stage ≠ .announcing := by simp [hstage]
    rw [if_neg hne]
    exact .close k rfl r hr hstage rfl rfl rfl

/-- Every step is one of the cases. -/
theorem turn (s : Gcdbroker) (e : Event) : Turn s e (s.step e).1 (s.enqueued e) := by
  cases e with
  | datagram data =>
    simp only [step]
    split
    · exact turn_refl _
    · exact .other rfl rfl (fun _ => .inr rfl) fun _ _ _ => .inl rfl
  | handle => exact turn_handle
  | dial fd => exact turn_dial fd
  | send taken => exact turn_send taken
  | receive k data due =>
    simp only [step]
    split
    · next hr => simpa [enqueued, hr] using turn_refl (.receive k data due)
    · next hr => exact turn_receive hr data due
  | timeout k due => exact .other rfl rfl (fun _ => .inr rfl) fun _ _ _ => .inl rfl
  | read k =>
    simp only [step]
    split
    · next hr => simpa [enqueued, hr] using turn_refl (.read k)
    · next hr => exact turn_read hr
  | transmit =>
    simp only [step]
    split
    · exact turn_refl _
    · exact .other rfl rfl (fun _ => .inr rfl) fun _ _ _ => .inl rfl

/-- A connection is bound to a channel together with its reader. -/
theorem insert_step {e : Event} {k : ℕ} {item : Item} (h : .insert k item ∈ (s.step e).2) :
    ∃ fd, e = .handle ∧ s.handler = .busy item (.dialed fd k) ∧ s.table item.msg.channel = none ∧
      (s.step e).1.table item.msg.channel = some fd ∧
      (s.step e).1.readers k = some { channel := item.msg.channel, fd := fd } := by
  cases e with
  | datagram data =>
    simp only [step] at h
    split at h <;> simp at h
  | handle =>
    simp only [step, handle] at h ⊢
    split at h
    · split at h <;> simp at h
    · next item' _ =>
      simp only [dispatch] at h
      repeat' split at h
      all_goals simp at h
    · next item' fd k' hh =>
      simp only [insert] at h ⊢
      cases hnone : s.table item'.msg.channel with
      | none =>
        obtain ⟨rfl, rfl⟩ : k = k' ∧ item = item' := by simpa [hnone] using h
        exact ⟨fd, trivial, hh, hnone, by simp, by simp⟩
      | some fd' => simp [hnone] at h
    · simp at h
    · simp at h
    · simp at h
  | dial fd =>
    simp only [step, dial] at h
    repeat' split at h
    all_goals simp at h
  | send taken =>
    simp only [step, send] at h
    repeat' split at h
    all_goals simp at h
  | receive k' data due =>
    simp only [step, receive] at h
    repeat' split at h
    all_goals simp at h
  | timeout k' due => simp [step] at h
  | read k' =>
    simp only [step, read] at h
    repeat' split at h
    all_goals simp at h
  | transmit =>
    simp only [step] at h
    split at h <;> simp at h

end

end Gcdbroker

end GuacamoleDiode
