import GuacamoleDiode.Gmlbroker.Verdicts

/-!
# From the request to the end of a session

A session that has sent its request keeps its entry in the approval registry until its reader
leaves the loop. The reader announces that it leaves, unless the teardown has been requested
without. A denial of the request that has arrived ends in such a teardown.

## Main definitions

- `Asked`: a session has sent its request and has not left
- `Leaving`: a reader is about to announce that it leaves
- `Denied`: a denial is on its way from the receive queue to the mailbox of its session
- `drops`: a reader leaves without announcing it

## Main results

- `Asked.step`, `Leaving.step`, `Denied.step`
-/

namespace GuacamoleDiode

open Wire

namespace Gmlbroker

/-- The message that a step queues for the bridge. -/
def queued (s : Gmlbroker) : Event → Option BridgeMessage
  | .perform n =>
    match (s.sessions n).map Session.pending with
    | some (.enqueue msg :: _) => some msg
    | _ => none
  | _ => none

/-- The channel whose request a step queues. -/
def requests (s : Gmlbroker) (e : Event) : Option UInt16 :=
  (s.queued e).bind fun msg => if msg.action = .createChannel then some msg.channel else none

/-- The channel that a reader gives up without announcing it. -/
def drops (s : Gmlbroker) : Event → Option UInt16
  | .wake n (.drain _) =>
    match s.sessions n with
    | some session =>
      if session.started = true ∧ session.pending = [] ∧ session.reader.closed = false ∧
          session.mailbox.teardown = true ∧ session.mailbox.announce = false then
        some session.channel
      else none
    | none => none
  | _ => none

/-- Everything that a step can do to a session. -/
inductive Evolves (ids : ℕ → ℕ → Bytes) (s : Gmlbroker) (e : Event) (n : ℕ) (session : Session) :
    Session → Prop where
  | same : Evolves ids s e n session session
  | started : Evolves ids s e n session { session with started := true }
  | approved : Evolves ids s e n session
      { session with reader := { session.reader with approved := true } }
  | mailed (item : Item) (mail : Mail) (mails : List Mail) (event : e = .handle)
      (handler : s.handler = .holding item n (mail :: mails)) :
      Evolves ids s e n session { session with mailbox := session.mailbox.deliver mail }
  | turned (wake : Wake) (event : e = .wake n wake)
      (ready : session.started = true ∧ session.pending = []) :
      Evolves ids s e n session (turn ids n session wake)
  | performed (effect : ReadHandler.Effect) (pending : List ReadHandler.Effect)
      (event : e = .perform n) (eq : session.pending = effect :: pending) :
      Evolves ids s e n session { session with pending }

section

variable {ids : ℕ → ℕ → Bytes} {s : Gmlbroker} {n m : ℕ} {c : UInt16} {session : Session} {e : Event}

theorem sessions_perform (s : Gmlbroker) (n : ℕ) (c : UInt16) (effect : ReadHandler.Effect) :
    (perform s n c effect).sessions = s.sessions := by
  cases effect <;> rfl

theorem evolves_map {sessions : ℕ → Option Session} {f : Session → Session}
    (hn : sessions n = some session) (h : n = m → Evolves ids s e n session (f session)) :
    ∃ session', Function.update sessions m ((sessions m).map f) n = some session' ∧
      Evolves ids s e n session session' := by
  obtain ⟨session', hsession', ⟨hnm, rfl⟩ | ⟨-, rfl⟩⟩ := Table.exists_update_map hn
  · exact ⟨_, hsession', h hnm⟩
  · exact ⟨_, hsession', .same⟩

theorem evolves_dispatch (hn : s.sessions n = some session) (item : Item) :
    ∃ session', (s.dispatch item).1.sessions n = some session' ∧ Evolves ids s e n session session' := by
  unfold dispatch
  split
  · dsimp only
    split <;> exact ⟨session, hn, .same⟩
  · exact ⟨session, hn, .same⟩
  · split
    · exact ⟨session, hn, .same⟩
    · split_ifs
      · apply evolves_map hn
        exact fun _ => .approved
      · exact ⟨session, hn, .same⟩
  · split
    · exact ⟨session, hn, .same⟩
    · dsimp only
      split_ifs <;> exact ⟨session, hn, .same⟩

theorem evolves_handle (hn : s.sessions n = some session) :
    ∃ session', s.handle.1.sessions n = some session' ∧
      Evolves ids s .handle n session session' := by
  unfold handle
  split
  · split <;> exact ⟨session, hn, .same⟩
  · exact evolves_dispatch hn _
  · split <;> exact ⟨session, hn, .same⟩
  · exact ⟨session, hn, .same⟩
  · next item m mail mails hhandler =>
    apply evolves_map hn
    rintro rfl
    exact .mailed item mail mails rfl hhandler

/-- A session goes on in one of the listed ways. -/
theorem evolves_step (ids : ℕ → ℕ → Bytes) (hwf : Wf s) (hn : s.sessions n = some session) (e : Event) :
    ∃ session', (s.step ids e).1.sessions n = some session' ∧ Evolves ids s e n session session' := by
  unfold step
  cases e with
  | datagram data =>
    dsimp only
    split <;> exact ⟨session, hn, .same⟩
  | accept =>
    have hne : n ≠ s.accepted := (hwf.number n _ (holders_eq hn)).ne
    refine ⟨session, ?_, .same⟩
    dsimp only [accept]
    split_ifs
    · split
      · exact hn
      · exact (Function.update_of_ne hne ..).trans hn
    · exact hn
  | register =>
    dsimp only [register]
    split
    · exact ⟨session, hn, .same⟩
    · exact ⟨session, hn, .same⟩
    · apply evolves_map hn
      exact fun _ => .started
  | handle => exact evolves_handle hn
  | wake m wake =>
    by_cases hmn : n = m
    · subst hmn
      dsimp only
      rw [hn]
      dsimp only
      split_ifs with hready
      · exact ⟨_, Function.update_self .., .turned wake rfl hready⟩
      · exact ⟨session, hn, .same⟩
    · refine ⟨session, ?_, .same⟩
      dsimp only
      split
      · exact hn
      · split_ifs
        · exact (Function.update_of_ne hmn ..).trans hn
        · exact hn
  | perform m =>
    by_cases hmn : n = m
    · subst hmn
      dsimp only
      rw [hn]
      dsimp only
      split
      · exact ⟨session, hn, .same⟩
      · next effect pending hpending =>
        refine ⟨_, ?_, .performed effect pending rfl hpending⟩
        rw [sessions_perform]
        exact Function.update_self ..
    · refine ⟨session, ?_, .same⟩
      dsimp only
      split
      · exact hn
      · split
        · exact hn
        · rw [sessions_perform]
          exact (Function.update_of_ne hmn ..).trans hn
  | transmit =>
    dsimp only
    split <;> exact ⟨session, hn, .same⟩

/-- Nobody but the accept thread makes a session. -/
theorem sessions_of_new {session' : Session} (hn : s.sessions n = none)
    (h : (s.step ids e).1.sessions n = some session') : ∃ channel, session' = { channel := channel } := by
  have hmap : ∀ m (f : Session → Session),
      Function.update s.sessions m ((s.sessions m).map f) n = none := by
    intro m f
    by_cases hnm : n = m
    · subst hnm
      rw [Function.update_self, hn]
      rfl
    · rw [Function.update_of_ne hnm, hn]
  have hset : ∀ m session₀ session₁, s.sessions m = some session₀ →
      Function.update s.sessions m (some session₁) n = none := by
    intro m session₀ session₁ hm
    have hnm : n ≠ m := by
      rintro rfl
      cases hn.symm.trans hm
    rw [Function.update_of_ne hnm, hn]
  unfold step at h
  cases e with
  | datagram data =>
    dsimp only at h
    split at h <;> cases hn.symm.trans h
  | accept =>
    dsimp only [accept] at h
    split_ifs at h
    · split at h
      · cases hn.symm.trans h
      · dsimp only at h
        obtain ⟨rfl, rfl⟩ | ⟨hnm, h⟩ := Table.of_update h
        · exact ⟨_, rfl⟩
        · cases hn.symm.trans h
    · cases hn.symm.trans h
  | register =>
    dsimp only [register] at h
    split at h
    · cases hn.symm.trans h
    · cases hn.symm.trans h
    · cases (hmap _ _).symm.trans h
  | handle =>
    dsimp only [handle, dispatch] at h
    repeat' split at h
    all_goals first
      | cases hn.symm.trans h
      | cases (hmap _ _).symm.trans h
  | wake m wake =>
    dsimp only at h
    split at h
    · cases hn.symm.trans h
    · next hm =>
      split_ifs at h
      · cases (hset m _ _ hm).symm.trans h
      · cases hn.symm.trans h
  | perform m =>
    dsimp only at h
    split at h
    · cases hn.symm.trans h
    · next hm =>
      split at h
      · cases hn.symm.trans h
      · rw [sessions_perform] at h
        cases (hset m _ _ hm).symm.trans h
  | transmit =>
    dsimp only at h
    split at h <;> cases hn.symm.trans h

/-- A session that has not given up its channel holds it. -/
theorem Wf.table_of_keeps (hwf : Wf s) (hn : s.sessions n = some session)
    (hkeeps : session.holder.Keeps .removeChannel) : s.table session.channel = some n :=
  (hwf.bound session.channel n).mpr ⟨session.holder, holders_eq hn, rfl, hkeeps⟩

/-- The channel of an entry is not registered a second time. -/
theorem Wf.registering_ne (hwf : Wf s) {entry : Entry} {m : ℕ} {channel : UInt16}
    (hc : s.approvals c = some entry) (hacc : s.acceptor = .allocated m channel) : c ≠ channel := by
  rintro rfl
  obtain ⟨h, hm, hchannel, hstarted⟩ := hwf.registering m c (.inl hacc)
  have hbound := (hwf.bound c m).mpr ⟨h, hm, hchannel, .inl (hwf.waiting m h hm hstarted).1⟩
  obtain rfl : m = entry.session := Option.some.inj (hbound.symm.trans (hwf.table_of_entry hc))
  have hentry : s.entries c = some entry.session := by simp [entries, hc]
  obtain ⟨h', hm', -, hcreated, -⟩ := (hwf.approval c _).mp hentry
  cases hm.symm.trans hm'
  rcases hcreated with hcreated | hcreated
  · cases hstarted.symm.trans hcreated
  · cases hacc.symm.trans hcreated

/-- A session that holds its channel changes no entry but its own. -/
theorem Wf.entry_of_keeps (hwf : Wf s) {entry : Entry} {m : ℕ}
    (hc : s.approvals c = some entry) (hm : s.sessions m = some session)
    (hkeeps : session.holder.Keeps .removeChannel) : c ≠ session.channel ∨ m = entry.session := by
  by_cases hcc : c = session.channel
  · subst hcc
    exact .inr (Option.some.inj ((hwf.table_of_keeps hm hkeeps).symm.trans (hwf.table_of_entry hc)))
  · exact .inl hcc

/-- An entry of the approval registry is only changed by the reader of its session. -/
theorem approvals_step (ids : ℕ → ℕ → Bytes) (hwf : Wf s) {entry : Entry}
    (hc : s.approvals c = some entry) (e : Event) :
    (s.step ids e).1.approvals c = some entry ∨ ∃ session effect pending,
      e = .perform entry.session ∧ s.sessions entry.session = some session ∧
        session.pending = effect :: pending ∧ ¬effect.Plain session.channel := by
  unfold step
  cases e with
  | datagram data =>
    dsimp only
    split <;> exact .inl hc
  | accept =>
    dsimp only [accept]
    split_ifs
    · split <;> exact .inl hc
    · exact .inl hc
  | register =>
    refine .inl ?_
    dsimp only [register]
    split
    · exact hc
    · next m channel hacc =>
      -- the session of the entry has been registered before
      have hne := hwf.registering_ne hc hacc
      exact (Function.update_of_ne hne ..).trans hc
    · exact hc
  | handle =>
    dsimp only [handle, dispatch]
    repeat' split
    all_goals exact .inl hc
  | wake m wake =>
    dsimp only
    repeat' split
    all_goals exact .inl hc
  | perform m =>
    dsimp only
    split
    · exact .inl hc
    · next session hm =>
      split
      · exact .inl hc
      · next effect pending hpending =>
        have htodo := hwf.todo m session.holder (holders_eq hm)
        have hpending' : session.holder.pending = effect :: pending := hpending
        rw [hpending'] at htodo
        cases effect with
        | setRequestId id =>
          rcases hwf.entry_of_keeps hc hm (.inl htodo.setRequestId.1) with hne | rfl
          · exact .inl ((Function.update_of_ne hne ..).trans hc)
          · exact .inr ⟨session, _, pending, rfl, hm, hpending, fun h => h⟩
        | removeApproval =>
          have hkeeps : session.holder.Keeps .removeApproval := by
            refine .inr ?_
            rw [hpending']
            exact List.mem_cons_self
          have hchannel := hwf.keeps_channel (holders_eq hm) (hwf.keeps_mailbox (holders_eq hm) hkeeps)
          rcases hwf.entry_of_keeps hc hm hchannel with hne | rfl
          · exact .inl ((Function.update_of_ne hne ..).trans hc)
          · exact .inr ⟨session, _, pending, rfl, hm, hpending, fun h => h⟩
        | _ => exact .inl hc
  | transmit =>
    dsimp only
    split <;> exact .inl hc

end

/-- The session has sent its request and has not left its loop. -/
structure Session.Committed (session : Session) (c : UInt16) : Prop where
  channel : session.channel = c
  started : session.started = true
  running : session.reader.closed = false
  established : session.reader.forger.hsState = .established
  pending : ∀ e ∈ session.pending, e.Plain c

/-- A session has sent its request and has not left its loop, and its entry is registered. -/
structure Asked (s : Gmlbroker) (c : UInt16) (n : ℕ) (id : Bytes) : Prop where
  entry : s.approvals c = some { session := n, requestId := id }
  session : ∃ session, s.sessions n = some session ∧ session.Committed c

/-- A SHUTDOWN of a channel. -/
def shutdown (c : UInt16) : BridgeMessage := { channel := c, action := .shutdownChannel }

/-- A reader is about to announce that it leaves. -/
def Leaving (s : Gmlbroker) (c : UInt16) : Prop :=
  ∃ n session, s.sessions n = some session ∧ .enqueue (shutdown c) ∈ session.pending

/-- A message that readers may send which draw ids of a kind. -/
structure Sound (valid : Bytes → Prop) (msg : BridgeMessage) : Prop where
  approval : msg.action ≠ .approval
  create : msg.action = .createChannel → valid msg.payload
  shutdown : msg.action = .shutdownChannel → msg.payload = []

/-- The readers only have sound messages left to send. -/
def PendingSound (valid : Bytes → Prop) (s : Gmlbroker) : Prop :=
  ∀ n session, s.sessions n = some session → ∀ msg, .enqueue msg ∈ session.pending → Sound valid msg

section

variable {ids : ℕ → ℕ → Bytes} {s : Gmlbroker} {n : ℕ} {c : UInt16} {id : Bytes}
  {session : Session} {e : Event} {valid : Bytes → Prop}

/-- A turn of a reader that has not left its loop. -/
theorem course_of_turn (ids : ℕ → ℕ → Bytes) (n : ℕ) (h : session.reader.closed = false) (wake : Wake) :
    ReadHandler.Course session.channel session.reader.forger.hsState false
      (poll session.mailbox wake).1
      ((turn ids n session wake).reader, (turn ids n session wake).pending) := by
  have hcourse : ReadHandler.Course session.channel session.reader.forger.hsState
      session.reader.closed (poll session.mailbox wake).1
      (ReadHandler.turn (ids n) session.channel session.reader (poll session.mailbox wake).1) :=
    ReadHandler.course_turn _
  rw [h] at hcourse
  simpa only [turn, ReadHandler.step, h, Bool.false_eq_true, if_false] using hcourse

/-- A reader that leaves without announcing it has been asked to. -/
theorem drops_of_drained (hn : s.sessions n = some session) (hc : session.Committed c)
    (hpending : session.pending = []) {wake : Wake} {chunks : List Bytes} {failed : Bool}
    (h : (poll session.mailbox wake).1 = .drain chunks failed (some false)) :
    s.drops (.wake n wake) = some c := by
  cases wake with
  | drain fails =>
    have hteardown : session.mailbox.teardown = true ∧ session.mailbox.announce = false := by
      simp only [poll] at h
      cases ht : session.mailbox.teardown with
      | false =>
        rw [ht] at h
        split at h <;> simp at h
      | true =>
        rw [ht] at h
        split at h <;> simp_all
    simp only [drops, hn]
    rw [if_pos ⟨hc.started, hpending, hc.running, hteardown⟩, hc.channel]
  | _ => cases h

theorem Asked.step (hwf : Wf s) (h : Asked s c n id) (e : Event) :
    Asked (s.step ids e).1 c n id ∨ Leaving (s.step ids e).1 c ∨ s.drops e = some c := by
  obtain ⟨hentry, session, hn, hc⟩ := h
  obtain ⟨session', hn', hevolves⟩ := evolves_step ids hwf hn e
  rcases approvals_step ids hwf hentry e with hentry' | hown
  · cases hevolves with
    | turned wake he hready =>
      have hcourse := course_of_turn ids n hc.running wake
      generalize hr : ((turn ids n session wake).reader, (turn ids n session wake).pending) = r at hcourse
      cases hcourse with
      | plain hplain hclosed hestablished =>
        subst hr
        rw [hc.channel] at hplain
        exact .inl ⟨hentry', _, hn', hc.channel, hc.started, hclosed, hestablished hc.established, hplain⟩
      | request _ _ _ _ hbefore => exact absurd hc.established hbefore
      | farewell _ announce _ hdrained =>
        cases announce with
        | true =>
          refine .inr (.inl ⟨n, _, hn', ?_⟩)
          rw [(Prod.mk.inj hr).2, hc.channel]
          simp [ReadHandler.farewell, shutdown]
        | false =>
          obtain ⟨chunks, failed, hpoll⟩ := hdrained rfl
          subst he
          exact .inr (.inr (drops_of_drained hn hc hready.2 hpoll))
    | performed effect pending he hpending =>
      refine .inl ⟨hentry', _, hn', hc.channel, hc.started, hc.running, hc.established, ?_⟩
      intro e' he'
      refine hc.pending e' ?_
      rw [hpending]
      exact List.mem_cons_of_mem _ he'
    | started =>
      exact .inl ⟨hentry', _, hn', hc.channel, rfl, hc.running, hc.established, hc.pending⟩
    | _ => exact .inl ⟨hentry', _, hn', hc.channel, hc.started, hc.running, hc.established, hc.pending⟩
  · -- a reader that has sent its request does not touch its entry
    obtain ⟨session₀, effect, pending, -, hn₀, hpending, hplain⟩ := hown
    cases hn.symm.trans hn₀
    refine absurd (hc.pending effect ?_) (hc.channel ▸ hplain)
    rw [hpending]
    exact List.mem_cons_self

theorem Leaving.step (hwf : Wf s) (h : Leaving s c) (e : Event) :
    Leaving (s.step ids e).1 c ∨ s.queued e = some (shutdown c) := by
  obtain ⟨n, session, hn, hmem⟩ := h
  obtain ⟨session', hn', hevolves⟩ := evolves_step ids hwf hn e
  cases hevolves with
  | turned wake _ hready =>
    rw [hready.2] at hmem
    cases hmem
  | performed effect pending he hpending =>
    rw [hpending] at hmem
    rcases List.mem_cons.mp hmem with rfl | hmem
    · subst he
      exact .inr (by simp [queued, hn, hpending])
    · exact .inl ⟨n, _, hn', hmem⟩
  | _ => exact .inl ⟨n, _, hn', hmem⟩

/-- The request id of an event is of a kind. -/
def Draws (valid : Bytes → Prop) : Event → Prop
  | .wake _ (.read _ requestId) => valid requestId
  | _ => True

theorem Draws.of_read {wake : Wake} (h : Draws valid (.wake n wake)) {mailbox : Mailbox} {data : Bytes}
    (hread : (poll mailbox wake).1 = .read data id) : valid id := by
  cases wake with
  | read data' id' =>
    cases hread
    exact h
  | drain failed =>
    simp only [poll] at hread
    split at hread <;> cases hread
  | _ => cases hread

theorem sound_of_plain {effect : ReadHandler.Effect} (h : effect.Plain c) {msg : BridgeMessage}
    (heq : effect = .enqueue msg) : Sound valid msg := by
  subst heq
  have haction : msg.action = .none := h.2
  exact ⟨by simp [haction], by simp [haction], by simp [haction]⟩

theorem sound_of_turn (h : session.reader.closed = false) {wake : Wake}
    (hdraws : Draws valid (.wake n wake)) {msg : BridgeMessage}
    (hmsg : .enqueue msg ∈ (turn ids n session wake).pending) : Sound valid msg := by
  have hcourse := course_of_turn ids n h wake
  generalize hr : ((turn ids n session wake).reader, (turn ids n session wake).pending) = r at hcourse
  cases hcourse with
  | plain hplain =>
    subst hr
    exact sound_of_plain (hplain _ hmsg) rfl
  | request hplain data id hread =>
    rw [(Prod.mk.inj hr).2] at hmsg
    rcases List.mem_append.mp hmsg with hmsg | hmsg
    · exact sound_of_plain (hplain _ hmsg) rfl
    · obtain rfl : msg = { channel := session.channel, action := .createChannel, payload := id } := by
        simpa [ReadHandler.request] using hmsg
      exact ⟨by simp, fun _ => hdraws.of_read hread, by simp⟩
  | farewell hplain announce =>
    rw [(Prod.mk.inj hr).2] at hmsg
    rcases List.mem_append.mp hmsg with hmsg | hmsg
    · exact sound_of_plain (hplain _ hmsg) rfl
    · obtain rfl : msg = shutdown session.channel := by
        cases announce
        · simp [ReadHandler.farewell] at hmsg
        · simpa [ReadHandler.farewell, shutdown] using hmsg
      exact ⟨by simp [shutdown], by simp [shutdown], fun _ => rfl⟩

/-- What readers have left to send stays of a kind if every turn adds messages of that kind only. -/
theorem pending_step {P : BridgeMessage → Prop} (hwf : Wf s)
    (h : ∀ n session, s.sessions n = some session → ∀ msg, .enqueue msg ∈ session.pending → P msg)
    (hturn : ∀ n session wake, e = .wake n wake → session.reader.closed = false →
      ∀ msg, .enqueue msg ∈ (turn ids n session wake).pending → P msg) :
    ∀ n session, (s.step ids e).1.sessions n = some session →
      ∀ msg, .enqueue msg ∈ session.pending → P msg := by
  intro n session' hn' msg hmsg
  cases hn : s.sessions n with
  | none =>
    obtain ⟨channel, rfl⟩ := sessions_of_new hn hn'
    cases hmsg
  | some session =>
    have hold := h n session hn
    obtain ⟨session₁, hn₁, hevolves⟩ := evolves_step ids hwf hn e
    cases hn₁.symm.trans hn'
    cases hevolves with
    | turned wake he hready =>
      cases hclosed : session.reader.closed with
      | false => exact hturn n session wake he hclosed msg hmsg
      | true =>
        simp only [turn, ReadHandler.step, hclosed, if_true] at hmsg
        cases hmsg
    | performed effect pending _ hpending =>
      refine hold msg ?_
      rw [hpending]
      exact List.mem_cons_of_mem _ hmsg
    | _ => exact hold msg hmsg

theorem PendingSound.step (h : PendingSound valid s) (hwf : Wf s) (hdraws : Draws valid e) :
    PendingSound valid (s.step ids e).1 := by
  refine pending_step hwf h fun n session wake he hclosed msg hmsg => ?_
  subst he
  exact sound_of_turn hclosed hdraws hmsg

/-- What a step leaves on the send queue of what is there. -/
def unsent (s : Gmlbroker) : Event → List BridgeMessage
  | .transmit => s.sendQueue.tail
  | _ => s.sendQueue

theorem sendQueue_step (ids : ℕ → ℕ → Bytes) (s : Gmlbroker) (e : Event) :
    (s.step ids e).1.sendQueue = s.unsent e ++ (s.queued e).toList := by
  have hnil : ∀ {q : List BridgeMessage}, q = q ++ [] := (List.append_nil _).symm
  unfold step
  cases e with
  | perform n =>
    dsimp only [queued, unsent]
    cases hn : s.sessions n with
    | none => exact hnil
    | some session =>
      rw [Option.map_some]
      dsimp only
      cases session.pending with
      | nil => exact hnil
      | cons effect pending =>
        cases effect with
        | enqueue msg => rfl
        | _ => exact hnil
  | accept =>
    dsimp only [accept, queued, unsent]
    repeat' split
    all_goals exact hnil
  | register =>
    dsimp only [register, queued, unsent]
    split <;> exact hnil
  | handle =>
    dsimp only [handle, dispatch, queued, unsent]
    repeat' split
    all_goals exact hnil
  | transmit =>
    dsimp only [queued, unsent]
    split
    · next hq => simp [hq]
    · next hq => simp [hq]
  | _ =>
    dsimp only [queued, unsent]
    repeat' split
    all_goals exact hnil

theorem exists_enqueue_of_queued {msg : BridgeMessage} (h : s.queued e = some msg) :
    ∃ n session pending, e = .perform n ∧ s.sessions n = some session ∧
      session.pending = .enqueue msg :: pending := by
  unfold queued at h
  split at h
  · next n =>
    split at h
    · next hpending =>
      cases h
      obtain ⟨session, hn, hsession⟩ := Option.map_eq_some_iff.mp hpending
      exact ⟨n, session, _, rfl, hn, hsession⟩
    · cases h
  · cases h

theorem PendingSound.queued (h : PendingSound valid s) {msg : BridgeMessage}
    (hmsg : s.queued e = some msg) : Sound valid msg := by
  obtain ⟨n, session, pending, -, hn, hpending⟩ := exists_enqueue_of_queued hmsg
  refine h n session hn msg ?_
  rw [hpending]
  exact List.mem_cons_self

end

/-- A reader that has its request left to send has completed the handshake, and has registered
the id if nothing else comes before. -/
def Registered (s : Gmlbroker) : Prop :=
  ∀ n session msg, s.sessions n = some session → .enqueue msg ∈ session.pending →
    msg.action = .createChannel → session.reader.forger.hsState = .established ∧
      ∀ rest, session.pending = .enqueue msg :: rest →
        s.approvals session.channel = some { session := n, requestId := msg.payload }

section

variable {ids : ℕ → ℕ → Bytes} {s : Gmlbroker} {n : ℕ} {session : Session} {e : Event}
  {msg : BridgeMessage}

theorem ne_create_of_plain {effect : ReadHandler.Effect} {channel : UInt16}
    (h : effect.Plain channel) (haction : msg.action = .createChannel) : effect ≠ .enqueue msg := by
  rintro rfl
  cases haction.symm.trans h.2

theorem create_not_mem_farewell (haction : msg.action = .createChannel) (channel : UInt16)
    (announce : Bool) : .enqueue msg ∉ ReadHandler.farewell channel announce := by
  intro hmem
  obtain rfl : msg = shutdown channel := by
    cases announce
    · simp [ReadHandler.farewell] at hmem
    · simpa [ReadHandler.farewell, shutdown] using hmem
  cases haction

/-- A turn that leaves a request to send completes the handshake, and registers the id first. -/
theorem registered_of_turn (h : session.reader.closed = false) {wake : Wake}
    (hmsg : .enqueue msg ∈ (turn ids n session wake).pending) (haction : msg.action = .createChannel) :
    (turn ids n session wake).reader.forger.hsState = .established ∧
      ∀ rest, (turn ids n session wake).pending ≠ .enqueue msg :: rest := by
  have hcourse := course_of_turn ids n h wake
  generalize hr : ((turn ids n session wake).reader, (turn ids n session wake).pending) = r at hcourse
  cases hcourse with
  | plain hplain =>
    subst hr
    exact absurd rfl (ne_create_of_plain (hplain _ hmsg) haction)
  | @request _ effects hplain data id _ _ hestablished =>
    obtain ⟨hreader, hpending⟩ := Prod.mk.inj hr
    refine ⟨hreader ▸ hestablished, fun rest heq => ?_⟩
    rw [hpending] at heq
    cases effects with
    | nil => cases heq
    | cons effect effects =>
      exact ne_create_of_plain (hplain _ List.mem_cons_self) haction (List.cons.inj heq).1
  | farewell hplain announce =>
    rw [(Prod.mk.inj hr).2] at hmsg
    rcases List.mem_append.mp hmsg with hmsg | hmsg
    · exact absurd rfl (ne_create_of_plain (hplain _ hmsg) haction)
    · exact absurd hmsg (create_not_mem_farewell haction _ announce)

/-- Where a request is left to send, the reader has not left its loop. -/
theorem todo_of_create {channel : UInt16} {closed : Bool} {effects : List ReadHandler.Effect}
    (h : ReadHandler.Todo channel closed effects) (hmsg : .enqueue msg ∈ effects)
    (haction : msg.action = .createChannel) : closed = false ∧
      (effects = [.enqueue msg] ∨ ∃ before, (∀ e ∈ before, e.Plain channel) ∧
        effects = before ++ ReadHandler.request channel msg.payload) ∧ msg.channel = channel := by
  cases h with
  | whole hshape =>
    cases hshape with
    | plain hplain => exact absurd rfl (ne_create_of_plain (hplain _ hmsg) haction)
    | @request before hplain id =>
      rcases List.mem_append.mp hmsg with hmsg | hmsg
      · exact absurd rfl (ne_create_of_plain (hplain _ hmsg) haction)
      · obtain rfl : msg = { channel := channel, action := .createChannel, payload := id } := by
          simpa [ReadHandler.request] using hmsg
        exact ⟨rfl, .inr ⟨before, hplain, rfl⟩, rfl⟩
    | @farewell before hplain announce =>
      rcases List.mem_append.mp hmsg with hmsg | hmsg
      · exact absurd rfl (ne_create_of_plain (hplain _ hmsg) haction)
      · exact absurd hmsg (create_not_mem_farewell haction channel announce)
  | create id =>
    obtain rfl : msg = { channel := channel, action := .createChannel, payload := id } := by
      simpa using hmsg
    exact ⟨rfl, .inl rfl, rfl⟩
  | gone announce done =>
    exact absurd (List.mem_of_mem_drop hmsg) (create_not_mem_farewell haction channel announce)

/-- The reader goes on with what it has left to do. -/
theorem step_perform (ids : ℕ → ℕ → Bytes) (hn : s.sessions n = some session)
    {effect : ReadHandler.Effect} {pending : List ReadHandler.Effect}
    (hpending : session.pending = effect :: pending) :
    (s.step ids (.perform n)).1 = perform { s with
      sessions := Function.update s.sessions n (some { session with pending }) } n session.channel
      effect := by
  simp only [step, hn, hpending]

/-- The reader of a session that has not left registers the id of its request. -/
theorem Registered.perform (h : Registered s) (ids : ℕ → ℕ → Bytes) (hwf : Wf s)
    (hn : s.sessions n = some session) {effect : ReadHandler.Effect}
    {pending : List ReadHandler.Effect} (hpending : session.pending = effect :: pending)
    (hmsg : .enqueue msg ∈ pending) (haction : msg.action = .createChannel) :
    session.reader.forger.hsState = .established ∧ ∀ rest, pending = .enqueue msg :: rest →
      (s.step ids (.perform n)).1.approvals session.channel =
        some { session := n, requestId := msg.payload } := by
  have hmem : .enqueue msg ∈ session.pending := by
    rw [hpending]
    exact List.mem_cons_of_mem _ hmsg
  refine ⟨(h n session msg hn hmem haction).1, ?_⟩
  rintro rest rfl
  obtain ⟨hopen, hshape, -⟩ :=
    todo_of_create (hwf.todo n session.holder (holders_eq hn)) hmem haction
  -- the id is what comes in front of the request
  obtain rfl : effect = .setRequestId msg.payload := by
    rcases hshape with hone | ⟨before, hplain, hall⟩
    · cases hpending.symm.trans hone
    · rcases before with _ | ⟨b, _ | ⟨b', before⟩⟩
      · exact (List.cons.inj (hpending.symm.trans hall)).1
      · cases (List.cons.inj (List.cons.inj (hpending.symm.trans hall)).2).1
      · have hb' := (List.cons.inj (List.cons.inj (hpending.symm.trans hall)).2).1
        exact absurd hb'.symm (ne_create_of_plain (hplain b' (by simp)) haction)
  have hstarted := hwf.started_of_pending hn (hpending ▸ List.cons_ne_nil _ _)
  have hentry : s.entries session.channel = some n :=
    (hwf.approval _ n).mpr ⟨session.holder, holders_eq hn, rfl, .inl hstarted, .inl hopen⟩
  obtain ⟨entry, happ, rfl⟩ := Option.map_eq_some_iff.mp hentry
  rw [step_perform ids hn hpending]
  show Function.update s.approvals session.channel _ session.channel = _
  rw [Function.update_self, happ]
  rfl

theorem Registered.step (h : Registered s) (ids : ℕ → ℕ → Bytes) (hwf : Wf s) (e : Event) :
    Registered (s.step ids e).1 := by
  intro n session' msg hn' hmsg haction
  cases hn : s.sessions n with
  | none =>
    obtain ⟨channel, rfl⟩ := sessions_of_new hn hn'
    cases hmsg
  | some session =>
    by_cases hown : ∃ effect pending, e = .perform n ∧ session.pending = effect :: pending
    · obtain ⟨effect, pending, rfl, hpending⟩ := hown
      have hsession' : (s.step ids (.perform n)).1.sessions n = some { session with pending } := by
        rw [step_perform ids hn hpending, sessions_perform]
        exact Function.update_self ..
      cases hsession'.symm.trans hn'
      exact h.perform ids hwf hn hpending hmsg haction
    · -- the entry stays as it is unless the reader itself goes on
      have hkept : .enqueue msg ∈ session.pending → session.reader.forger.hsState = .established ∧
          ∀ rest, session.pending = .enqueue msg :: rest → (s.step ids e).1.approvals session.channel =
            some { session := n, requestId := msg.payload } := by
        intro hmem
        obtain ⟨hestablished, hentry⟩ := h n session msg hn hmem haction
        refine ⟨hestablished, fun rest hrest => ?_⟩
        rcases approvals_step ids hwf (hentry rest hrest) e with hsame |
          ⟨session₀, effect, pending, he, hn₀, hp, -⟩
        · exact hsame
        · cases hn.symm.trans hn₀
          exact absurd ⟨effect, pending, he, hp⟩ hown
      obtain ⟨session₁, hn₁, hevolves⟩ := evolves_step ids hwf hn e
      cases hn₁.symm.trans hn'
      cases hevolves with
      | turned wake he hready =>
        cases hclosed : session.reader.closed with
        | false =>
          obtain ⟨hestablished, hnext⟩ := registered_of_turn hclosed hmsg haction
          exact ⟨hestablished, fun rest hrest => absurd hrest (hnext rest)⟩
        | true =>
          simp only [turn, ReadHandler.step, hclosed, if_true] at hmsg
          cases hmsg
      | performed effect pending he hpending => exact absurd ⟨effect, pending, he, hpending⟩ hown
      | _ => exact hkept hmsg

/-- Whoever queues a request has asked. -/
theorem asked_of_queued (h : Registered s) (ids : ℕ → ℕ → Bytes) (hwf : Wf s)
    (hmsg : s.queued e = some msg) (haction : msg.action = .createChannel) :
    ∃ n, Asked (s.step ids e).1 msg.channel n msg.payload := by
  obtain ⟨n, session, pending, rfl, hn, hpending⟩ := exists_enqueue_of_queued hmsg
  have hmem : .enqueue msg ∈ session.pending := by
    rw [hpending]
    exact List.mem_cons_self
  obtain ⟨hestablished, hentry⟩ := h n session msg hn hmem haction
  obtain ⟨hopen, hshape, hchannel⟩ :=
    todo_of_create (hwf.todo n session.holder (holders_eq hn)) hmem haction
  obtain rfl : pending = [] := by
    rcases hshape with hone | ⟨before, hplain, hall⟩
    · exact (List.cons.inj (hpending.symm.trans hone)).2
    · cases before with
      | nil => cases (List.cons.inj (hpending.symm.trans hall)).1
      | cons b before =>
        have hb := (List.cons.inj (hpending.symm.trans hall)).1
        exact absurd hb.symm (ne_create_of_plain (hplain b List.mem_cons_self) haction)
  have hstarted := hwf.started_of_pending hn (hpending ▸ List.cons_ne_nil _ _)
  have hsame : session.channel = msg.channel := hchannel.symm
  rw [← hsame]
  refine ⟨n, ?_, ?_⟩
  · rw [step_perform ids hn hpending]
    exact hentry [] hpending
  · refine ⟨{ session with pending := [] }, ?_, rfl, hstarted, hopen, hestablished, by simp⟩
    rw [step_perform ids hn hpending, sessions_perform]
    exact Function.update_self ..

end

/-- A denial of a request. -/
structure Denies (c : UInt16) (id : Bytes) (msg : BridgeMessage) : Prop where
  channel : msg.channel = c
  action : msg.action = .approval
  denies : verdict msg ≠ approvalApprove
  id : verdictId msg = id

/-- A denial is on its way from the receive queue to the mailbox of its session. -/
inductive Denied (s : Gmlbroker) (c : UInt16) (n : ℕ) (id : Bytes) : Prop where
  | received (item : Item) (mem : item ∈ s.recvQueue) (denies : Denies c id item.msg)
  | busy (item : Item) (handler : s.handler = .busy item) (denies : Denies c id item.msg)
  | matched (item : Item) (handler : s.handler = .matched item) (channel : item.msg.channel = c)
  | holding (item : Item) (mails : List Mail) (handler : s.handler = .holding item n mails)
      (mem : .requestTeardown true ∈ mails)
  | torn (session : Session) (mem : s.sessions n = some session)
      (teardown : session.mailbox.teardown = true)

section

variable {ids : ℕ → ℕ → Bytes} {s : Gmlbroker} {n : ℕ} {c : UInt16} {id : Bytes} {session : Session}
  {e : Event}

/-- The other threads leave the handler alone, and what is on the receive queue. -/
theorem handler_step (ids : ℕ → ℕ → Bytes) (s : Gmlbroker) (he : e ≠ .handle) :
    (s.step ids e).1.handler = s.handler ∧ s.recvQueue ⊆ (s.step ids e).1.recvQueue := by
  unfold step
  cases e with
  | handle => exact absurd rfl he
  | accept =>
    dsimp only [accept]
    repeat' split
    all_goals exact ⟨rfl, List.Subset.refl _⟩
  | register =>
    dsimp only [register]
    split <;> exact ⟨rfl, List.Subset.refl _⟩
  | datagram data =>
    dsimp only
    split
    · exact ⟨rfl, List.Subset.refl _⟩
    · exact ⟨rfl, List.subset_append_left _ _⟩
  | perform m =>
    dsimp only
    split
    · exact ⟨rfl, List.Subset.refl _⟩
    · split
      · exact ⟨rfl, List.Subset.refl _⟩
      · next effect _ _ =>
        cases effect with
        | enqueueRecv msg => exact ⟨rfl, List.subset_append_left _ _⟩
        | _ => exact ⟨rfl, List.Subset.refl _⟩
  | _ =>
    dsimp only
    repeat' split
    all_goals exact ⟨rfl, List.Subset.refl _⟩

theorem teardown_deliver {mailbox : Mailbox} (h : mailbox.teardown = true) (mail : Mail) :
    (mailbox.deliver mail).teardown = true := by
  cases mail
  · exact h
  · rfl

/-- A teardown that has been requested is never taken back. -/
theorem torn_step (ids : ℕ → ℕ → Bytes) (hwf : Wf s) (hn : s.sessions n = some session)
    (h : session.mailbox.teardown = true) (e : Event) : Denied (s.step ids e).1 c n id := by
  obtain ⟨session', hn', hevolves⟩ := evolves_step ids hwf hn e
  refine .torn session' hn' ?_
  cases hevolves with
  | mailed item mail => exact teardown_deliver h mail
  | turned wake =>
    show (poll session.mailbox wake).2.teardown = true
    cases wake <;> exact h
  | _ => exact h

/-- The handler goes on with a denial. -/
theorem Denied.handle (hwf : Wf s) (hasked : Asked s c n id) (h : Denied s c n id) :
    Denied s.handle.1 c n id := by
  obtain ⟨hentry, session, hn, hc⟩ := hasked
  have htorn : session.mailbox.teardown = true → Denied s.handle.1 c n id :=
    fun hteardown => torn_step (fun _ _ => []) hwf hn hteardown .handle
  cases h with
  | received item hmem hdenies =>
    unfold Gmlbroker.handle
    split
    · split
      · next hqueue =>
        rw [hqueue] at hmem
        cases hmem
      · next first rest hqueue =>
        rw [hqueue] at hmem
        rcases List.mem_cons.mp hmem with rfl | hmem
        · exact .busy item rfl hdenies
        · exact .received item hmem hdenies
    · refine .received item ?_ hdenies
      dsimp only [dispatch]
      repeat' split
      all_goals exact hmem
    · split <;> exact .received item hmem hdenies
    · exact .received item hmem hdenies
    · exact .received item hmem hdenies
  | busy item hh hdenies =>
    have hmatching : s.matching item.msg = some n := by
      simp only [matching, hdenies.channel, hentry, hdenies.id, if_true]
    refine .matched item ?_ hdenies.channel
    simp only [Gmlbroker.handle, hh, dispatch, hdenies.action, hmatching, if_neg hdenies.denies]
  | matched item hh hchannel =>
    have hmailbox : s.mailboxes c = some n := by
      refine (hwf.mailbox c n).mpr ⟨session.holder, holders_eq hn, hc.channel, hc.started, .inl hc.running⟩
    refine .holding item [.post HandshakeForger.deniedScreen, .requestTeardown true] ?_ (by simp)
    simp only [Gmlbroker.handle, hh, hchannel, hmailbox]
  | holding item mails hh hmem =>
    cases mails with
    | nil => cases hmem
    | cons mail mails =>
      have hhandle : s.handle.1 = { s with
          sessions := s.deliver n mail, handler := .holding item n mails } := by
        simp only [Gmlbroker.handle, hh]
      rw [hhandle]
      rcases List.mem_cons.mp hmem with rfl | hmem
      · refine .torn { session with mailbox := session.mailbox.deliver (.requestTeardown true) } ?_ rfl
        simp [deliver, hn]
      · exact .holding item mails rfl hmem
  | torn session₀ hn₀ hteardown =>
    cases hn.symm.trans hn₀
    exact htorn hteardown

theorem Denied.step (hwf : Wf s) (hasked : Asked s c n id) (h : Denied s c n id) (e : Event) :
    Denied (s.step ids e).1 c n id := by
  by_cases he : e = .handle
  · subst he
    exact h.handle hwf hasked
  · obtain ⟨hhandler, hqueue⟩ := handler_step ids s he
    cases h with
    | received item hmem hdenies => exact .received item (hqueue hmem) hdenies
    | busy item hh hdenies => exact .busy item (hhandler.trans hh) hdenies
    | matched item hh hchannel => exact .matched item (hhandler.trans hh) hchannel
    | holding item mails hh hmem => exact .holding item mails (hhandler.trans hh) hmem
    | torn session hn hteardown => exact torn_step ids hwf hn hteardown e

/-- A session that has asked holds its channel. -/
theorem Asked.table (hwf : Wf s) (h : Asked s c n id) : s.table c = some n :=
  hwf.table_of_entry h.entry

end

end Gmlbroker

end GuacamoleDiode
