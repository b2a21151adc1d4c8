import GuacamoleDiode.Gmlbroker.Requests

/-!
# Who may speak on a channel

A reader sends one request, and payload only after its session has been approved. As long as it
has either left to send, its session holds the channel. An id in the approval registry is one
that the reader of the session has put there.

## Main definitions

- `registrations`: the ids that the readers put into the approval registry in a run
- `Session.Speaks`: only an approved session has payload to send
- `Session.Spent`: the session has no request left to send, and never will again
- `inbox`: the messages that have arrived and have not been dealt with

## Main results

- `speaks_run`: every session of every reachable state `Speaks`
- `entries_run`: where the ids of the approval registry come from
-/

namespace GuacamoleDiode

open Wire

namespace ReadHandler

section

variable {ids : ℕ → Bytes} {channel : UInt16} {s : ReadHandler} {p : Poll}

/-- A reader that leaves its loop has no payload left to send. -/
theorem action_of_mem_farewell {announce : Bool} {msg : BridgeMessage}
    (h : .enqueue msg ∈ farewell channel announce) : msg.action = .shutdownChannel := by
  cases announce
  · simp [farewell] at h
  · obtain rfl : msg = { channel := channel, action := .shutdownChannel } := by
      simpa [farewell] using h
    rfl

theorem approved_of_maybeReplay (channel : UInt16) (h : s.replayed = true → s.approved = true) :
    ((maybeReplay channel s).1.replayed = true → s.approved = true) ∧
      ∀ e ∈ (maybeReplay channel s).2, s.approved = true := by
  unfold maybeReplay
  split_ifs with hready
  · exact ⟨fun _ => hready.2.2, fun _ _ => hready.2.2⟩
  · exact ⟨h, by simp⟩

theorem approved_of_established (channel : UInt16) (h : s.replayed = true → s.approved = true)
    (data : Bytes) :
    ((established channel data s).1.replayed = true → s.approved = true) ∧
      ∀ e ∈ (established channel data s).2, s.approved = true := by
  obtain ⟨hreplayed, heffects⟩ := approved_of_maybeReplay channel h
  unfold established
  dsimp only
  split_ifs with hnow
  · exact ⟨fun _ => hreplayed hnow, fun _ _ => hreplayed hnow⟩
  · exact ⟨hreplayed, heffects⟩

theorem replayed_feedForger (data requestId : Bytes) :
    (feedForger ids channel data requestId s).1.replayed = s.replayed := by
  simp only [feedForger]
  split_ifs <;> rfl

/-- The forger asks, and sends no payload. -/
theorem action_of_feedForger {data requestId : Bytes} {msg : BridgeMessage}
    (h : .enqueue msg ∈ (feedForger ids channel data requestId s).2) : msg.action ≠ .none := by
  have hreply : .enqueue msg ∉ (if (s.forger.feed ids data).1 ≠ [] then
      [Effect.send (s.forger.feed ids data).1] else []) := by
    split_ifs <;> simp
  simp only [feedForger] at h
  generalize (if (s.forger.feed ids data).1 ≠ [] then
    [Effect.send (s.forger.feed ids data).1] else []) = reply at hreply h
  split_ifs at h
  · rcases List.mem_append.mp h with h | h
    · exact absurd h hreply
    · have hlast : .enqueue msg ∈ farewell channel true := h
      rw [action_of_mem_farewell hlast]
      decide
  · rcases List.mem_append.mp h with h | h
    · exact absurd h hreply
    · obtain rfl : msg = { channel := channel, action := .createChannel, payload := requestId } := by
        simpa using h
      simp
  · exact absurd h hreply

/-- Payload is sent once the session has been approved. -/
theorem approved_of_turn (ids : ℕ → Bytes) (channel : UInt16) (h : s.replayed = true → s.approved = true) (p : Poll) :
    ((turn ids channel s p).1.replayed = true → s.approved = true) ∧
      ∀ msg, .enqueue msg ∈ (turn ids channel s p).2 → msg.action = .none → s.approved = true := by
  have hleave : ∀ announce, ∀ msg, .enqueue msg ∈ (leave channel announce s).2 →
      msg.action = .none → s.approved = true := by
    intro announce msg hmsg haction
    cases haction.symm.trans (action_of_mem_farewell hmsg)
  have hsent : ∀ (chunks : List Bytes) effects, (∀ msg, .enqueue msg ∈ effects →
      msg.action = .none → s.approved = true) → ∀ msg, .enqueue msg ∈ chunks.map Effect.send ++ effects →
        msg.action = .none → s.approved = true := by
    intro chunks effects heffects msg hmsg
    rcases List.mem_append.mp hmsg with hmsg | hmsg
    · simp at hmsg
    · exact heffects msg hmsg
  cases p with
  | heartbeat ms =>
    simp only [turn]
    split_ifs
    · exact ⟨h, by simp⟩
    · exact ⟨h, by simp⟩
  | timeout =>
    obtain ⟨hreplayed, heffects⟩ := approved_of_maybeReplay channel h
    exact ⟨hreplayed, fun msg hmsg _ => heffects _ hmsg⟩
  | read data requestId =>
    simp only [turn]
    split_ifs
    · exact ⟨h, hleave true⟩
    · obtain ⟨hreplayed, heffects⟩ := approved_of_established channel
        (s := { s with socket := s.socket ++ data }) h data
      exact ⟨hreplayed, fun msg hmsg _ => heffects _ hmsg⟩
    · refine ⟨fun hr => ?_, fun msg hmsg haction => absurd haction (action_of_feedForger hmsg)⟩
      rw [replayed_feedForger] at hr
      exact h hr
  | drain chunks failed teardown =>
    simp only [turn]
    split
    · next announce => exact ⟨h, hsent chunks _ (hleave announce)⟩
    · split_ifs
      · exact ⟨h, hsent chunks _ (hleave true)⟩
      · exact ⟨h, by simp⟩
  | stop => exact ⟨h, hleave true⟩

end

end ReadHandler

namespace Gmlbroker

/-- The id that a step puts into the approval registry, and the session of its reader. -/
def registers (s : Gmlbroker) : Event → Option (ℕ × Bytes)
  | .perform n =>
    match (s.sessions n).map Session.pending with
    | some (.setRequestId id :: _) => some (n, id)
    | _ => none
  | _ => none

/-- The ids that the readers put into the approval registry in a run. -/
def registrations (ids : ℕ → ℕ → Bytes) (es : List Event) : List (ℕ × Bytes) :=
  (machine ids).collect (fun s e => (s.registers e).toList) es

/-- Only an approved session has payload to send. -/
structure Session.Speaks (session : Session) : Prop where
  replayed : session.reader.replayed = true → session.reader.approved = true
  payload : ∀ msg, .enqueue msg ∈ session.pending → msg.action = .none →
    session.reader.approved = true

/-- The session has no request left to send, and never will again. -/
structure Session.Spent (session : Session) : Prop where
  settled : session.reader.closed = true ∨ session.reader.forger.hsState = .established
  pending : ∀ msg, .enqueue msg ∈ session.pending → msg.action ≠ .createChannel

section

variable {ids : ℕ → ℕ → Bytes} {s : Gmlbroker} {n : ℕ} {c : UInt16} {session session' : Session}
  {e : Event} {msg : BridgeMessage}

theorem Session.Speaks.evolves (h : session.Speaks) (hevolves : Evolves ids s e n session session') :
    session'.Speaks := by
  cases hevolves with
  | approved => exact ⟨fun _ => rfl, fun _ _ _ => rfl⟩
  | turned wake _ _ =>
    cases hclosed : session.reader.closed with
    | true =>
      have hsame : turn ids n session wake = { session with
          pending := [], mailbox := (poll session.mailbox wake).2 } := by
        simp only [turn, ReadHandler.step, hclosed, if_true]
      rw [hsame]
      exact ⟨h.replayed, by simp⟩
    | false =>
      have hnext := ReadHandler.approved_of_turn (ids n) session.channel h.replayed
        (poll session.mailbox wake).1
      have happroved : (turn ids n session wake).reader.approved = session.reader.approved := by
        simp only [turn, ReadHandler.step, hclosed, Bool.false_eq_true, if_false]
        exact ReadHandler.approved_turn _
      refine ⟨?_, ?_⟩
      · rw [happroved]
        simpa only [turn, ReadHandler.step, hclosed, Bool.false_eq_true, if_false] using hnext.1
      · rw [happroved]
        simpa only [turn, ReadHandler.step, hclosed, Bool.false_eq_true, if_false] using hnext.2
  | performed effect pending _ hpending =>
    refine ⟨h.replayed, fun msg hmsg => h.payload msg ?_⟩
    rw [hpending]
    exact List.mem_cons_of_mem _ hmsg
  | _ => exact ⟨h.replayed, h.payload⟩

theorem Session.Spent.evolves (h : session.Spent) (hevolves : Evolves ids s e n session session') :
    session'.Spent := by
  cases hevolves with
  | turned wake _ _ =>
    cases hclosed : session.reader.closed with
    | true =>
      have hsame : turn ids n session wake = { session with
          pending := [], mailbox := (poll session.mailbox wake).2 } := by
        simp only [turn, ReadHandler.step, hclosed, if_true]
      rw [hsame]
      exact ⟨.inl hclosed, by simp⟩
    | false =>
      have hestablished := h.settled.resolve_left (by simp [hclosed])
      have hcourse := course_of_turn ids n hclosed wake
      generalize hr : ((turn ids n session wake).reader, (turn ids n session wake).pending) = r
        at hcourse
      cases hcourse with
      | plain hplain _ hafter =>
        subst hr
        exact ⟨.inr (hafter hestablished), fun msg hmsg haction =>
          ne_create_of_plain (hplain _ hmsg) haction rfl⟩
      | request _ _ _ _ hbefore => exact absurd hestablished hbefore
      | farewell hplain announce hleft =>
        obtain ⟨hreader, hpending⟩ := Prod.mk.inj hr
        refine ⟨.inl (hreader ▸ hleft), fun msg hmsg haction => ?_⟩
        rw [hpending] at hmsg
        rcases List.mem_append.mp hmsg with hmsg | hmsg
        · exact ne_create_of_plain (hplain _ hmsg) haction rfl
        · exact create_not_mem_farewell haction _ announce hmsg
  | performed effect pending _ hpending =>
    refine ⟨h.settled, fun msg hmsg => h.pending msg ?_⟩
    rw [hpending]
    exact List.mem_cons_of_mem _ hmsg
  | _ => exact ⟨h.settled, h.pending⟩

/-- Every session only speaks once it has been approved. -/
theorem speaks_run (ids : ℕ → ℕ → Bytes) (es : List Event) :
    ∀ n session, ((machine ids).run es).sessions n = some session → session.Speaks := by
  refine Machine.invariant (M := machine ids)
    (P := fun _ s => ∀ n session, s.sessions n = some session → session.Speaks) ?_ ?_ es
  · intro n session hn
    cases hn
  · intro es e h n session' hn'
    cases hn : ((machine ids).run es).sessions n with
    | none =>
      obtain ⟨channel, rfl⟩ := sessions_of_new hn hn'
      exact ⟨nofun, by simp⟩
    | some session =>
      obtain ⟨session₁, hn₁, hevolves⟩ := evolves_step ids (wf_run ids es) hn e
      cases hn₁.symm.trans hn'
      exact (h n session hn).evolves hevolves

/-- A spent session is never lost, and stays spent. -/
theorem spent_step (ids : ℕ → ℕ → Bytes) (hwf : Wf s) (hn : s.sessions n = some session)
    (h : session.Spent) (e : Event) : ∃ session', (s.step ids e).1.sessions n = some session' ∧
      session'.channel = session.channel ∧ session'.Spent := by
  obtain ⟨session', hn', hevolves⟩ := evolves_step ids hwf hn e
  refine ⟨session', hn', ?_, h.evolves hevolves⟩
  cases hevolves <;> rfl

-- ════════════════════════════════════════════════════════════════════════
-- A message is queued
-- ════════════════════════════════════════════════════════════════════════

/-- Whoever has a message left to send has not given up the channel, unless it is a SHUTDOWN. -/
theorem keeps_of_enqueue (hwf : Wf s) (hn : s.sessions n = some session)
    {pending : List ReadHandler.Effect} (hpending : session.pending = .enqueue msg :: pending)
    (haction : msg.action ≠ .shutdownChannel) : session.holder.Keeps .removeChannel := by
  have htodo := hwf.todo n session.holder (holders_eq hn)
  have hholder : session.holder.pending = .enqueue msg :: pending := hpending
  rw [hholder] at htodo
  cases hclosed : session.holder.closed with
  | false => exact .inl hclosed
  | true =>
    rw [hclosed] at htodo
    refine .inr ?_
    rw [hholder]
    generalize heq : ReadHandler.Effect.enqueue msg :: pending = effects at htodo
    generalize hleft : true = left at htodo
    cases htodo with
    | whole hshape =>
      subst hleft
      exact hshape.leaves.2.2
    | create => cases hleft
    | gone announce done =>
      have hmem : .enqueue msg ∈ (ReadHandler.farewell session.holder.channel announce).drop done :=
        heq ▸ List.mem_cons_self
      exact absurd (ReadHandler.action_of_mem_farewell (List.mem_of_mem_drop hmem)) haction

/-- Every message of a reader is about its own channel. -/
theorem channel_of_enqueue (hwf : Wf s) (hn : s.sessions n = some session)
    (hmem : .enqueue msg ∈ session.pending) : msg.channel = session.channel := by
  have hplain : ∀ {effects : List ReadHandler.Effect}, (∀ e ∈ effects, e.Plain session.channel) →
      .enqueue msg ∈ effects → msg.channel = session.channel := fun h hm => (h _ hm).1
  have hfarewell : ∀ announce, .enqueue msg ∈ ReadHandler.farewell session.channel announce →
      msg.channel = session.channel := by
    intro announce hm
    cases announce
    · simp [ReadHandler.farewell] at hm
    · obtain rfl : msg = { channel := session.channel, action := .shutdownChannel } := by
        simpa [ReadHandler.farewell] using hm
      rfl
  have htodo : ReadHandler.Todo session.channel session.reader.closed session.pending :=
    hwf.todo n session.holder (holders_eq hn)
  by_cases haction : msg.action = .createChannel
  · exact (todo_of_create htodo hmem haction).2.2
  · generalize hleft : session.reader.closed = left at htodo
    generalize hall : session.pending = effects at htodo hmem
    cases htodo with
    | whole hshape =>
      cases hshape with
      | plain h => exact hplain h hmem
      | request h id =>
        rcases List.mem_append.mp hmem with hmem | hmem
        · exact hplain h hmem
        · obtain rfl : msg = { channel := session.channel, action := .createChannel, payload := id } := by
            simpa [ReadHandler.request] using hmem
          exact absurd rfl haction
      | farewell h announce =>
        rcases List.mem_append.mp hmem with hmem | hmem
        · exact hplain h hmem
        · exact hfarewell announce hmem
    | create id =>
      obtain rfl : msg = { channel := session.channel, action := .createChannel, payload := id } := by
        simpa using hmem
      exact absurd rfl haction
    | gone announce done => exact hfarewell announce (List.mem_of_mem_drop hmem)

/-- The request is the last thing that a reader has left to do, and its session is spent then. -/
theorem spent_of_create (h : Registered s) (hwf : Wf s) (hn : s.sessions n = some session)
    {pending : List ReadHandler.Effect} (hpending : session.pending = .enqueue msg :: pending)
    (haction : msg.action = .createChannel) : Session.Spent { session with pending } := by
  have hmem : .enqueue msg ∈ session.pending := hpending ▸ List.mem_cons_self
  obtain ⟨-, hshape, -⟩ := todo_of_create (hwf.todo n session.holder (holders_eq hn)) hmem haction
  obtain rfl : pending = [] := by
    rcases hshape with hone | ⟨before, hplain, hall⟩
    · exact (List.cons.inj (hpending.symm.trans hone)).2
    · cases before with
      | nil => cases (List.cons.inj (hpending.symm.trans hall)).1
      | cons b before =>
        have hb := (List.cons.inj (hpending.symm.trans hall)).1
        exact absurd hb.symm (ne_create_of_plain (hplain b List.mem_cons_self) haction)
  exact ⟨.inr (h n session msg hn hmem haction).1, by simp⟩

end

-- ════════════════════════════════════════════════════════════════════════
-- What arrives
-- ════════════════════════════════════════════════════════════════════════

/-- The message that the handler has fetched and not dealt with. -/
def SendHandler.fetched : SendHandler → List Item
  | .busy item => [item]
  | _ => []

/-- The messages that have arrived and have not been dealt with. -/
def inbox (s : Gmlbroker) : List Item := s.handler.fetched ++ s.recvQueue

section

variable {ids : ℕ → ℕ → Bytes} {s : Gmlbroker} {n : ℕ} {session session' : Session} {e : Event}
  {msg : BridgeMessage} {item : Item}

/-- What a reader sends to its own browser is payload. -/
theorem action_of_enqueueRecv (hwf : Wf s) (hn : s.sessions n = some session)
    (hmem : .enqueueRecv msg ∈ session.pending) : msg.action = .none := by
  have hplain : ∀ {effects : List ReadHandler.Effect}, (∀ e ∈ effects, e.Plain session.channel) →
      .enqueueRecv msg ∈ effects → msg.action = .none := fun h hm => (h _ hm).2
  have hfarewell : ∀ announce, .enqueueRecv msg ∉ ReadHandler.farewell session.channel announce := by
    intro announce hm
    cases announce <;> simp [ReadHandler.farewell] at hm
  have htodo : ReadHandler.Todo session.channel session.reader.closed session.pending :=
    hwf.todo n session.holder (holders_eq hn)
  generalize session.reader.closed = left at htodo
  generalize session.pending = effects at htodo hmem
  cases htodo with
  | whole hshape =>
    cases hshape with
    | plain h => exact hplain h hmem
    | request h id =>
      rcases List.mem_append.mp hmem with hmem | hmem
      · exact hplain h hmem
      · simp [ReadHandler.request] at hmem
    | farewell h announce =>
      rcases List.mem_append.mp hmem with hmem | hmem
      · exact hplain h hmem
      · exact absurd hmem (hfarewell announce)
  | create id => simp at hmem
  | gone announce done => exact absurd (List.mem_of_mem_drop hmem) (hfarewell announce)

theorem inbox_dispatch (s : Gmlbroker) (item : Item) : (s.dispatch item).1.inbox = s.recvQueue := by
  simp only [dispatch]
  repeat' split
  all_goals rfl

theorem mem_inbox_handle (h : item ∈ s.handle.1.inbox) : item ∈ s.inbox := by
  unfold handle at h
  split at h
  · split at h
    · exact h
    · next hqueue =>
      rw [inbox, hqueue]
      exact List.mem_append_right _ h
  · rw [inbox_dispatch] at h
    exact List.mem_append_right _ h
  · split at h <;> exact List.mem_append_right _ h
  · exact List.mem_append_right _ h
  · exact List.mem_append_right _ h

/-- Verdicts only come from the bridge. -/
theorem mem_inbox_step (ids : ℕ → ℕ → Bytes) (hwf : Wf s) (e : Event)
    (h : item ∈ (s.step ids e).1.inbox) :
    item ∈ s.inbox ∨ arrival e = some item.msg ∨ item.msg.action = .none := by
  cases e with
  | handle => exact .inl (mem_inbox_handle h)
  | datagram data =>
    simp only [step] at h
    split at h
    · exact .inl h
    · next msg hmsg =>
      simp only [inbox, ← List.append_assoc] at h
      rcases List.mem_append.mp h with h | h
      · exact .inl h
      · obtain rfl := List.mem_singleton.mp h
        exact .inr (.inl hmsg)
  | perform m =>
    simp only [step] at h
    split at h
    · exact .inl h
    · next session hm =>
      split at h
      · exact .inl h
      · next effect pending hpending =>
        cases effect with
        | enqueueRecv msg =>
          simp only [perform, inbox, ← List.append_assoc] at h
          rcases List.mem_append.mp h with h | h
          · exact .inl h
          · obtain rfl := List.mem_singleton.mp h
            refine .inr (.inr (action_of_enqueueRecv hwf hm ?_))
            rw [hpending]
            exact List.mem_cons_self
        | _ => exact .inl h
  | accept =>
    simp only [step, accept] at h
    repeat' split at h
    all_goals exact .inl h
  | register =>
    simp only [step, register] at h
    repeat' split at h
    all_goals exact .inl h
  | _ =>
    simp only [step] at h
    repeat' split at h
    all_goals exact .inl h

/-- A session is approved by a verdict that has been matched to its entry. -/
theorem exists_verdict_of_approved (hn : s.sessions n = some session)
    (hn' : (s.step ids e).1.sessions n = some session') (hbefore : session.reader.approved = false)
    (hafter : session'.reader.approved = true) :
    ∃ item ∈ s.inbox, item.msg.action = .approval ∧ verdict item.msg = approvalApprove ∧
      s.matching item.msg = some n := by
  have hnot : ¬Approved s n := by
    rintro ⟨session₀, hn₀, happ⟩
    cases hn.symm.trans hn₀
    cases hbefore.symm.trans happ
  obtain rfl : e = .handle := approved_step hnot ⟨session', hn', hafter⟩
  obtain ⟨item, hh, haction, hmatching⟩ := approved_handle hnot ⟨session', hn', hafter⟩
  refine ⟨item, by simp [inbox, hh, SendHandler.fetched], haction, ?_, hmatching⟩
  by_contra hverdict
  simp only [step, handle, hh, dispatch, haction, hmatching, if_neg hverdict] at hn'
  cases hn.symm.trans hn'
  cases hbefore.symm.trans hafter

end

-- ════════════════════════════════════════════════════════════════════════
-- Where the ids come from
-- ════════════════════════════════════════════════════════════════════════

/-- An id in the approval registry is one that the reader of the session has put there. -/
def Sourced (reg : List (ℕ × Bytes)) (s : Gmlbroker) : Prop :=
  ∀ c entry, s.approvals c = some entry → entry.requestId = [] ∨
    (entry.session, entry.requestId) ∈ reg

section

variable {ids : ℕ → ℕ → Bytes} {s : Gmlbroker} {e : Event} {reg : List (ℕ × Bytes)}

theorem Sourced.mono (h : Sourced reg s) {reg' : List (ℕ × Bytes)} (hreg : reg ⊆ reg') :
    Sourced reg' s :=
  fun c entry hc => (h c entry hc).imp_right fun hmem => hreg hmem

theorem Sourced.perform (h : Sourced reg s) (hwf : Wf s) {n : ℕ} {session : Session}
    (hn : s.sessions n = some session) {effect : ReadHandler.Effect}
    {pending : List ReadHandler.Effect} (hpending : session.pending = effect :: pending) :
    Sourced (reg ++ (s.registers (.perform n)).toList) (s.step ids (.perform n)).1 := by
  have hmono := h.mono (List.subset_append_left reg (s.registers (.perform n)).toList)
  rw [step_perform ids hn hpending]
  cases effect with
  | setRequestId id =>
    intro c entry hc
    obtain ⟨old, hold, ⟨rfl, rfl⟩ | ⟨-, rfl⟩⟩ := Table.of_update_map hc
    · -- the entry of the channel is that of the reader itself
      have htodo := hwf.todo n session.holder (holders_eq hn)
      have hholder : session.holder.pending = .setRequestId id :: pending := hpending
      rw [hholder] at htodo
      obtain rfl : n = old.session :=
        (hwf.entry_of_keeps hold hn (.inl htodo.setRequestId.1)).resolve_left fun hne => hne rfl
      refine .inr (List.mem_append_right _ ?_)
      simp [registers, hn, hpending]
    · exact hmono c old hold
  | removeApproval =>
    intro c entry hc
    exact hmono c entry (Table.of_update_none hc).2
  | _ => exact hmono

theorem Sourced.step (h : Sourced reg s) (ids : ℕ → ℕ → Bytes) (hwf : Wf s) (e : Event) :
    Sourced (reg ++ (s.registers e).toList) (s.step ids e).1 := by
  cases e with
  | perform n =>
    cases hn : s.sessions n with
    | none =>
      simp only [Gmlbroker.step, registers, hn, Option.map_none, Option.toList_none, List.append_nil]
      exact h
    | some session =>
      cases hpending : session.pending with
      | nil =>
        simp only [Gmlbroker.step, registers, hn, hpending, Option.map_some, Option.toList_none, List.append_nil]
        exact h
      | cons effect pending => exact h.perform hwf hn hpending
  | register =>
    simp only [registers, Option.toList_none, List.append_nil, Gmlbroker.step, Gmlbroker.register]
    split
    · exact h
    · intro c entry hc
      obtain ⟨-, rfl⟩ | ⟨-, hc⟩ := Table.of_update hc
      · exact .inl rfl
      · exact h c entry hc
    · exact h
  | accept =>
    simp only [registers, Option.toList_none, List.append_nil, Gmlbroker.step, Gmlbroker.accept]
    repeat' split
    all_goals exact h
  | handle =>
    simp only [registers, Option.toList_none, List.append_nil, Gmlbroker.step, Gmlbroker.handle, dispatch]
    repeat' split
    all_goals exact h
  | _ =>
    simp only [registers, Option.toList_none, List.append_nil, Gmlbroker.step]
    repeat' split
    all_goals exact h

theorem entries_run (ids : ℕ → ℕ → Bytes) (es : List Event) :
    Sourced (registrations ids es) ((machine ids).run es) := by
  refine Machine.invariant (M := machine ids)
    (P := fun es s => Sourced (registrations ids es) s) ?_ (fun es e h => ?_) es
  · intro c entry hc
    cases hc
  · rw [registrations, Machine.collect_snoc]
    exact h.step ids (wf_run ids es) e

end

end Gmlbroker

end GuacamoleDiode
