import GuacamoleDiode.Gcdbroker.Turns

/-!
# Verdicts and bindings

What a step does to the messages that have arrived and are not handled yet, and to the
bindings of the channels. An approval binds its channel or is relayed as a denial, and a
binding is given up for a SHUTDOWN of the bridge or of the own accord of the broker.

## Main definitions

- `unhandled`: the messages that have arrived and are not handled yet
- `drops`: the channel that a step gives up of its own accord
- `Binding`: the cases of a step

## Main results

- `binding_step`: a step of the broker is one of the cases
-/

namespace GuacamoleDiode

open Wire

namespace Gcdbroker

/-- The message that the handler has fetched and not decided yet. -/
def SendHandler.undecided : SendHandler → List BridgeMessage
  | .busy item .fetched => [item.msg]
  | .busy item (.dialed _ _) => [item.msg]
  | _ => []

/-- The messages that have arrived and are not handled yet. -/
def unhandled (s : Gcdbroker) : List BridgeMessage := s.handler.undecided ++ s.recvQueue.map Item.msg

/-- The channel that a step gives up of its own accord: its reader has seen the end of the
connection, or a write to it has failed. -/
def drops (s : Gcdbroker) : Event → Option UInt16
  | .handle =>
    match s.handler with
    | .failed c => if s.table c = none then none else some c
    | _ => none
  | .read k =>
    match s.readers k with
    | some r => if r.stage = .leaving ∧ s.table r.channel ≠ none then some r.channel else none
    | none => none
  | _ => none

/-- Everything that a step can do to the messages that are not handled yet, and to the table. -/
inductive Binding (s : Gcdbroker) (e : Event) (s' : Gcdbroker) : Prop where
  /-- messages arrive, and acks are queued -/
  | queue (msgs : List BridgeMessage) (unhandled : s'.unhandled = s.unhandled ++ msgs)
      (plain : ∀ msg ∈ msgs, arrival e = some msg ∨ msg.action = .none)
      (arrives : ∀ msg, arrival e = some msg → msgs = [msg]) (table : s'.table = s.table)
  /-- a channel is given up -/
  | drop (quiet : arrival e = none) (c : UInt16) (unhandled : s'.unhandled = s.unhandled)
      (table : s'.table = Function.update s.table c none)
      (given : s.drops e = some c ∨ s.table c = none)
  /-- payload is written, and a request is passed over -/
  | skip (quiet : arrival e = none) (msg : BridgeMessage)
      (unhandled : s.unhandled = msg :: s'.unhandled)
      (action : msg.action = .none ∨ msg.action = .createChannel) (table : s'.table = s.table)
  /-- a SHUTDOWN of the bridge -/
  | shut (quiet : arrival e = none) (msg : BridgeMessage)
      (unhandled : s.unhandled = msg :: s'.unhandled)
      (action : msg.action = .shutdownChannel)
      (table : s'.table = Function.update s.table msg.channel none)
  /-- a denial is relayed -/
  | deny (quiet : arrival e = none) (msg : BridgeMessage)
      (unhandled : s.unhandled = msg :: s'.unhandled)
      (action : msg.action = .approval) (verdict_ne : verdict msg ≠ approvalApprove)
      (table : s'.table = s.table)
  /-- an approval is relayed as a denial -/
  | refuse (quiet : arrival e = none) (msg : BridgeMessage)
      (unhandled : s.unhandled = msg :: s'.unhandled)
      (action : msg.action = .approval) (verdict_eq : verdict msg = approvalApprove)
      (handler : s'.handler = .relaying (downgrade msg)) (table : s'.table = s.table)
  /-- an approval binds its channel -/
  | bind (quiet : arrival e = none) (msg : BridgeMessage) (fd : ℕ)
      (unhandled : s.unhandled = msg :: s'.unhandled)
      (action : msg.action = .approval) (verdict_eq : verdict msg = approvalApprove)
      (table : s'.table = Function.update s.table msg.channel (some fd))

section

variable {s s' : Gcdbroker} {e : Event} {item : Item}

theorem binding_of_eq (he : arrival e = none) (hhandler : s'.handler.undecided = s.handler.undecided)
    (hqueue : s'.recvQueue = s.recvQueue) (htable : s'.table = s.table) : Binding s e s' := by
  refine .queue [] ?_ (by simp) (by simp [he]) htable
  rw [unhandled, unhandled, hhandler, hqueue, List.append_nil]

theorem binding_dispatch (h : s.handler = .busy item .fetched) :
    Binding s .handle (s.dispatch item).1 := by
  have hheld : s.unhandled = item.msg :: s.recvQueue.map Item.msg := by
    simp [unhandled, SendHandler.undecided, h]
  unfold dispatch
  split
  · next haction => exact .skip rfl item.msg hheld (.inr haction) rfl
  · next haction =>
    split_ifs with hverdict
    · exact binding_of_eq rfl rfl rfl rfl
    · exact .deny rfl item.msg hheld haction hverdict rfl
  · next haction => exact .shut rfl item.msg hheld haction rfl
  · next haction =>
    split
    · exact .skip rfl item.msg hheld (.inl haction) rfl
    · exact .skip rfl item.msg hheld (.inl haction) rfl

theorem binding_insert (hwf : Wf s) {fd k : ℕ} (h : s.handler = .busy item (.dialed fd k)) :
    Binding s .handle (s.insert item fd k).1 := by
  have hheld : s.unhandled = item.msg :: s.recvQueue.map Item.msg := by
    simp [unhandled, SendHandler.undecided, h]
  obtain ⟨⟨haction, hverdict⟩, -⟩ := hwf.fresh item fd k h
  unfold insert
  split
  · exact .bind rfl item.msg fd hheld haction hverdict rfl
  · exact .refuse rfl item.msg hheld haction hverdict rfl rfl

theorem binding_handle (hwf : Wf s) : Binding s .handle s.handle.1 := by
  unfold handle
  split
  · next hh =>
    split
    · exact binding_of_eq rfl rfl rfl rfl
    · next first rest hqueue =>
      refine .queue [] ?_ (by simp) (by simp [arrival]) rfl
      simp [unhandled, SendHandler.undecided, hh, hqueue]
  · next hh => exact binding_dispatch hh
  · next hh => exact binding_insert hwf hh
  · exact binding_of_eq rfl rfl rfl rfl
  · next hh => exact binding_of_eq rfl (by rw [hh]; rfl) rfl rfl
  · next c hh =>
    refine .drop rfl c (by simp [unhandled, SendHandler.undecided, hh]) rfl ?_
    by_cases hnone : s.table c = none
    · exact .inr hnone
    · exact .inl (by simp [drops, hh, hnone])

theorem binding_read {k : ℕ} {r : Reader} (hr : s.readers k = some r) :
    Binding s (.read k) (s.read k r).1 := by
  unfold read
  split
  · exact binding_of_eq rfl rfl rfl rfl
  · refine .queue ((s.ackOf (.read k)).toList.map Item.msg) (by simp [unhandled]) ?_ (by simp [arrival]) rfl
    intro msg hmsg
    obtain ⟨item, hitem, rfl⟩ := List.mem_map.mp hmsg
    refine .inr ?_
    simp only [ackOf, hr] at hitem
    split at hitem
    · obtain ⟨ack, -, rfl⟩ := Option.map_eq_some_iff.mp (Option.mem_toList.mp hitem)
      rfl
    · simp at hitem
  · next hstage =>
    refine .drop rfl r.channel rfl rfl ?_
    by_cases hnone : s.table r.channel = none
    · exact .inr hnone
    · exact .inl (by simp [drops, hr, hstage, hnone])
  · exact binding_of_eq rfl rfl rfl rfl
  · exact binding_of_eq rfl rfl rfl rfl

/-- A step is one of the cases. -/
theorem binding_step (hwf : Wf s) (e : Event) : Binding s e (s.step e).1 := by
  unfold step
  cases e with
  | datagram data =>
    dsimp only
    split
    · next hnone => exact binding_of_eq hnone rfl rfl rfl
    · next msg hmsg =>
      refine .queue [msg] (by simp [unhandled]) ?_ ?_ rfl
      · intro m hm
        rw [List.mem_singleton.mp hm]
        exact .inl hmsg
      · intro m hm
        rw [hmsg] at hm
        rw [Option.some.inj hm]
  | handle => exact binding_handle hwf
  | dial fd =>
    dsimp only [dial]
    split
    · next item hh =>
      have hheld : s.unhandled = item.msg :: s.recvQueue.map Item.msg := by
        simp [unhandled, SendHandler.undecided, hh]
      split_ifs with hverdict
      · cases fd with
        | none => exact .refuse rfl item.msg hheld hverdict.1 hverdict.2 rfl rfl
        | some fd =>
          dsimp only
          split_ifs
          · exact binding_of_eq rfl (by rw [hh]; rfl) rfl rfl
          · exact binding_of_eq rfl rfl rfl rfl
      · exact binding_of_eq rfl rfl rfl rfl
    · exact binding_of_eq rfl rfl rfl rfl
  | send taken =>
    dsimp only [send]
    split
    · next hh =>
      split
      · refine binding_of_eq rfl ?_ rfl rfl
        rw [hh]
        dsimp only
        split_ifs <;> rfl
      · refine binding_of_eq rfl ?_ rfl rfl
        rw [hh]
        dsimp only
        split_ifs <;> rfl
    · exact binding_of_eq rfl rfl rfl rfl
  | receive k data due =>
    dsimp only [receive]
    repeat' split
    all_goals exact binding_of_eq rfl rfl rfl rfl
  | timeout k due =>
    refine .queue ((s.ackOf (.timeout k due)).toList.map Item.msg) (by simp [unhandled]) ?_
      (by simp [arrival]) rfl
    intro msg hmsg
    obtain ⟨item, hitem, rfl⟩ := List.mem_map.mp hmsg
    refine .inr ?_
    simp only [ackOf] at hitem
    split at hitem
    · split_ifs at hitem
      · obtain ⟨ack, -, rfl⟩ := Option.map_eq_some_iff.mp (Option.mem_toList.mp hitem)
        rfl
      · simp at hitem
    · simp at hitem
  | read k =>
    dsimp only
    split
    · exact binding_of_eq rfl rfl rfl rfl
    · next hr => exact binding_read hr
  | transmit =>
    dsimp only
    split <;> exact binding_of_eq rfl rfl rfl rfl

/-- The handler queues what it is about to relay. -/
theorem relaying_step {msg : BridgeMessage} (h : s.handler = .relaying msg) (e : Event) :
    (s.step e).1.handler = .relaying msg ∨ msg ∈ s.enqueued e := by
  unfold step
  cases e with
  | handle => exact .inr (by simp [enqueued, h])
  | datagram data =>
    dsimp only
    split <;> exact .inl h
  | dial fd =>
    simp only [dial, h]
    exact .inl trivial
  | send taken =>
    simp only [send, h]
    exact .inl trivial
  | receive k data due =>
    dsimp only [receive]
    repeat' split
    all_goals exact .inl h
  | timeout k due => exact .inl h
  | read k =>
    dsimp only [read]
    repeat' split
    all_goals exact .inl h
  | transmit =>
    dsimp only
    split <;> exact .inl h

end

end Gcdbroker

end GuacamoleDiode
