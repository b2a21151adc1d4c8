import GuacamoleDiode.Gcdbroker.Reads
import GuacamoleDiode.Gmlbroker.Delivery
import GuacamoleDiode.Gmlbroker.Senders

/-!
# What the handler takes up for a session

The handler takes up the messages of the bridge in the order in which they arrive, and payload
goes to the session whose mailbox is registered for the channel. If no channel is given out twice,
a session hears all the payload on its channel until its reader removes the mailbox.

## Main definitions

- `landed`: the messages of the bridge that have arrived and have not been dealt with
- `hears`: the payload of the bridge that is taken up for a session
- `Fresh`: no channel has been given out twice

## Main results

- `landed_step`: what becomes of the messages that have arrived
- `hears_eq`: a session hears the payload on its channel while its mailbox is registered
- `fresh_of_accepted`: the first 65536 sessions have channels of their own
-/

namespace GuacamoleDiode

open Wire

namespace Gmlbroker

/-- The messages of the bridge that have arrived and have not been dealt with. -/
def landed (s : Gmlbroker) : List BridgeMessage :=
  (s.inbox.filter fun item => item.origin = .bridge).map Item.msg

/-- The message of the bridge that the handler takes up in a step. -/
def taking (s : Gmlbroker) (e : Event) : List BridgeMessage :=
  ((s.takenUp e).toList.filter fun item => item.origin = .bridge).map Item.msg

/-- The payload of the bridge that the handler takes up for a session in a step. -/
def hears (n : ℕ) (s : Gmlbroker) (e : Event) : List Bytes :=
  (s.taking e).filterMap fun msg =>
    if msg.action = .none ∧ s.mailboxes msg.channel = some n then some msg.payload else none

/-- The channels of the sessions. -/
def channels (s : Gmlbroker) : ℕ → Option UInt16 := Option.map Session.channel ∘ s.sessions

/-- No channel has been given out twice. -/
def Fresh (s : Gmlbroker) : Prop := ∀ n m c, s.channels n = some c → s.channels m = some c → n = m

section

variable {ids : ℕ → ℕ → Bytes} {s : Gmlbroker} {n m : ℕ} {c : UInt16} {session : Session} {e : Event}

-- ════════════════════════════════════════════════════════════════════════
-- The inbox
-- ════════════════════════════════════════════════════════════════════════

theorem landed_of_inbox {s' : Gmlbroker} (h : s'.inbox = s.inbox) : s'.landed = s.landed := by
  rw [landed, h, landed]

theorem landed_handle (s : Gmlbroker) : s.landed = s.taking .handle ++ s.handle.1.landed := by
  cases hh : s.handler with
  | busy item =>
    have hinbox : s.inbox = item :: s.recvQueue := by simp [inbox, hh, SendHandler.fetched]
    have htaking : s.taking .handle = ([item].filter fun item => item.origin = .bridge).map Item.msg := by
      simp [taking, takenUp, hh]
    have hstep : s.handle.1.inbox = s.recvQueue := by
      simp only [handle, hh]
      exact inbox_dispatch s item
    rw [landed, hinbox, htaking, landed, hstep, ← List.map_append, ← List.filter_append,
      List.singleton_append]
  | waiting =>
    have htaking : s.taking .handle = [] := by simp [taking, takenUp, hh]
    rw [htaking, List.nil_append]
    refine (landed_of_inbox ?_).symm
    simp only [handle, hh]
    split
    · rfl
    · next hq => simp [inbox, hh, hq, SendHandler.fetched]
  | matched item =>
    have htaking : s.taking .handle = [] := by simp [taking, takenUp, hh]
    rw [htaking, List.nil_append]
    refine (landed_of_inbox ?_).symm
    simp only [handle, hh]
    split <;> simp [inbox, hh, SendHandler.fetched]
  | holding item m mails =>
    have htaking : s.taking .handle = [] := by simp [taking, takenUp, hh]
    rw [htaking, List.nil_append]
    refine (landed_of_inbox ?_).symm
    cases mails <;> simp [handle, inbox, hh, SendHandler.fetched]

/-- The messages of the bridge are taken up in the order in which they arrive. -/
theorem landed_step (ids : ℕ → ℕ → Bytes) (s : Gmlbroker) (e : Event) :
    s.landed ++ (arrival e).toList = s.taking e ++ (s.step ids e).1.landed := by
  cases e with
  | handle =>
    rw [show arrival .handle = none from rfl, Option.toList_none, List.append_nil]
    exact landed_handle s
  | datagram data =>
    have htaking : s.taking (.datagram data) = [] := rfl
    rw [htaking, List.nil_append]
    simp only [step]
    cases harrival : arrival (.datagram data) with
    | none => simp
    | some msg => simp [landed, inbox, List.filter_append]
  | perform m =>
    have htaking : s.taking (.perform m) = [] := rfl
    rw [htaking, List.nil_append, show arrival (.perform m) = none from rfl, Option.toList_none,
      List.append_nil]
    simp only [step]
    split
    · rfl
    · split
      · rfl
      · next effect _ _ =>
        cases effect with
        | enqueueRecv msg => simp [perform, landed, inbox, List.filter_append]
        | _ => rfl
  | accept =>
    have htaking : s.taking .accept = [] := rfl
    rw [htaking, List.nil_append, show arrival .accept = none from rfl, Option.toList_none, List.append_nil]
    simp only [step, accept]
    repeat' split
    all_goals rfl
  | register =>
    have htaking : s.taking .register = [] := rfl
    rw [htaking, List.nil_append, show arrival .register = none from rfl, Option.toList_none,
      List.append_nil]
    simp only [step, register]
    repeat' split
    all_goals rfl
  | wake m wake =>
    have htaking : s.taking (.wake m wake) = [] := rfl
    rw [htaking, List.nil_append, show arrival (.wake m wake) = none from rfl, Option.toList_none,
      List.append_nil]
    simp only [step]
    repeat' split
    all_goals rfl
  | transmit =>
    have htaking : s.taking .transmit = [] := rfl
    rw [htaking, List.nil_append, show arrival .transmit = none from rfl, Option.toList_none,
      List.append_nil]
    simp only [step]
    split <;> rfl

-- ════════════════════════════════════════════════════════════════════════
-- The sessions
-- ════════════════════════════════════════════════════════════════════════

theorem Evolves.channel {session' : Session} (h : Evolves ids s e n session session') :
    session'.channel = session.channel := by
  cases h <;> rfl

theorem channels_eq (hn : s.sessions n = some session) : s.channels n = some session.channel := by
  rw [channels, Function.comp_apply, hn, Option.map_some]

/-- A session keeps its channel. -/
theorem channels_step (ids : ℕ → ℕ → Bytes) (hwf : Wf s) (h : s.channels n = some c) (e : Event) :
    (s.step ids e).1.channels n = some c := by
  obtain ⟨session, hn, rfl⟩ := Option.map_eq_some_iff.mp h
  obtain ⟨session', hn', hevolves⟩ := evolves_step ids hwf hn e
  rw [channels_eq hn', hevolves.channel]

theorem Fresh.of_step (hwf : Wf s) (h : Fresh (s.step ids e).1) : Fresh s :=
  fun n m c hn hm => h n m c (channels_step ids hwf hn e) (channels_step ids hwf hm e)

theorem channel_of_mailbox (hwf : Wf s) (h : s.mailboxes c = some n) : s.channels n = some c :=
  channel_of_table hwf (hwf.table_of_mailbox h)

/-- A session hears the payload on its channel, as long as its mailbox is registered. -/
theorem hears_eq (hwf : Wf s) (hn : s.channels n = some c) (e : Event) :
    s.hears n e = if s.mailboxes c = some n then payloadsOn c (s.taking e) else [] := by
  have hchannel : ∀ {d}, s.mailboxes d = some n → d = c := fun hd =>
    Option.some.inj ((channel_of_mailbox hwf hd).symm.trans hn)
  unfold hears payloadsOn
  split_ifs with hmailbox
  · refine List.filterMap_congr fun msg _ => ?_
    by_cases hc : msg.channel = c
    · simp [hc, hmailbox]
    · rw [if_neg fun h => hc (hchannel h.2), if_neg fun h => hc h.1]
  · refine List.filterMap_eq_nil_iff.mpr fun msg _ => if_neg fun h => hmailbox ?_
    rw [← hchannel h.2]
    exact h.2

/-- Nobody hears anything before it has been accepted. -/
theorem hears_of_new (hwf : Wf s) (hn : s.channels n = none) (e : Event) : s.hears n e = [] := by
  refine List.filterMap_eq_nil_iff.mpr fun msg _ => if_neg fun h => ?_
  rw [channel_of_mailbox hwf h.2] at hn
  cases hn

-- ════════════════════════════════════════════════════════════════════════
-- The first channels
-- ════════════════════════════════════════════════════════════════════════

theorem channels_map {sessions : ℕ → Option Session} (f : Session → Session)
    (hf : ∀ session, (f session).channel = session.channel) (m : ℕ) :
    Option.map Session.channel ∘ Function.update sessions m ((sessions m).map f) =
      Option.map Session.channel ∘ sessions := by
  have hsame : Session.channel ∘ f = Session.channel := funext hf
  rw [Function.comp_update, Option.map_map, hsame]
  exact Function.update_eq_self m (Option.map Session.channel ∘ sessions)

theorem channels_update {sessions : ℕ → Option Session} {session' : Session}
    (hm : sessions m = some session) (hchannel : session'.channel = session.channel) :
    Option.map Session.channel ∘ Function.update sessions m (some session') =
      Option.map Session.channel ∘ sessions := by
  rw [Function.comp_update, Option.map_some, hchannel, ← Option.map_some, ← hm]
  exact Function.update_eq_self m (Option.map Session.channel ∘ sessions)

theorem channels_setFlag (s : Gmlbroker) (n : ℕ) : Option.map Session.channel ∘ s.setFlag n = s.channels := by
  rw [setFlag, channels_map]
  · rfl
  · exact fun _ => rfl

theorem channels_start (s : Gmlbroker) (n : ℕ) : Option.map Session.channel ∘ s.start n = s.channels := by
  rw [start, channels_map]
  · rfl
  · exact fun _ => rfl

theorem channels_deliver (s : Gmlbroker) (n : ℕ) (mail : Mail) :
    Option.map Session.channel ∘ s.deliver n mail = s.channels := by
  rw [deliver, channels_map]
  · rfl
  · exact fun _ => rfl

theorem channels_dispatch (s : Gmlbroker) (item : Item) : (s.dispatch item).1.channels = s.channels ∧
    (s.dispatch item).1.nextChannel = s.nextChannel ∧ (s.dispatch item).1.accepted = s.accepted := by
  simp only [dispatch]
  repeat' split
  all_goals first
    | exact ⟨rfl, rfl, rfl⟩
    | exact ⟨channels_setFlag s _, rfl, rfl⟩

/-- Channels are given out by the accept thread. -/
theorem channels_of_ne_accept (ids : ℕ → ℕ → Bytes) (s : Gmlbroker) (he : e ≠ .accept) :
    (s.step ids e).1.channels = s.channels ∧ (s.step ids e).1.nextChannel = s.nextChannel ∧
      (s.step ids e).1.accepted = s.accepted := by
  cases e with
  | accept => exact absurd rfl he
  | register =>
    simp only [step, register]
    split
    · exact ⟨rfl, rfl, rfl⟩
    · exact ⟨rfl, rfl, rfl⟩
    · exact ⟨channels_start s _, rfl, rfl⟩
  | handle =>
    simp only [step, handle]
    split
    · split <;> exact ⟨rfl, rfl, rfl⟩
    · exact channels_dispatch s _
    · split <;> exact ⟨rfl, rfl, rfl⟩
    · exact ⟨rfl, rfl, rfl⟩
    · exact ⟨channels_deliver s _ _, rfl, rfl⟩
  | wake m wake =>
    simp only [step]
    split
    · exact ⟨rfl, rfl, rfl⟩
    · next session hm =>
      split_ifs
      · exact ⟨channels_update hm rfl, rfl, rfl⟩
      · exact ⟨rfl, rfl, rfl⟩
  | perform m =>
    simp only [step]
    split
    · exact ⟨rfl, rfl, rfl⟩
    · next session hm =>
      split
      · exact ⟨rfl, rfl, rfl⟩
      · next effect pending hpending =>
        refine ⟨?_, by cases effect <;> rfl, by cases effect <;> rfl⟩
        rw [channels, sessions_perform]
        exact channels_update hm rfl
  | _ =>
    simp only [step]
    split <;> exact ⟨rfl, rfl, rfl⟩

/-- The channels are given out one after another. -/
structure Numbered (s : Gmlbroker) : Prop where
  next : s.nextChannel = UInt16.ofNat s.accepted
  channel : ∀ n c, s.channels n = some c → c = UInt16.ofNat n

theorem accepted_step (ids : ℕ → ℕ → Bytes) (s : Gmlbroker) (e : Event) :
    s.accepted ≤ (s.step ids e).1.accepted := by
  by_cases he : e = .accept
  · subst he
    simp only [step, accept]
    repeat' split
    all_goals simp
  · rw [(channels_of_ne_accept ids s he).2.2]

theorem ofNat_inj (hn : n < 65536) (hm : m < 65536) (h : UInt16.ofNat n = UInt16.ofNat m) : n = m := by
  have htoNat := congrArg UInt16.toNat h
  rwa [UInt16.toNat_ofNat_of_lt' hn, UInt16.toNat_ofNat_of_lt' hm] at htoNat

/-- The next channel has not been given out before. -/
theorem Numbered.accept (h : Numbered s) (hwf : Wf s) (haccepted : s.accept.1.accepted ≤ 65536) :
    Numbered s.accept.1 := by
  unfold Gmlbroker.accept at haccepted ⊢
  split_ifs at haccepted ⊢
  · have hfree (hlt : s.accepted < 65536) : s.table s.nextChannel = none := by
      cases htable : s.table s.nextChannel with
      | none => rfl
      | some n =>
        have hchannel := channel_of_table hwf htable
        obtain ⟨session, hn, -⟩ := Option.map_eq_some_iff.mp hchannel
        have hnumber := hwf.number n _ (holders_eq hn)
        have heq := (h.channel n _ hchannel).symm.trans h.next
        exact absurd (ofNat_inj (hnumber.trans hlt) hlt heq) hnumber.ne
    cases hallocate : ChannelTable.allocate s.table s.nextChannel with
    | none => exact h
    | some channel =>
      simp only [hallocate] at haccepted
      have hlt : s.accepted < 65536 := haccepted
      obtain rfl : s.nextChannel = channel := by
        rw [ChannelTable.allocate, ChannelTable.allocate.scan, if_pos (hfree hlt)] at hallocate
        exact Option.some.inj hallocate
      constructor
      · show s.nextChannel + 1 = UInt16.ofNat (s.accepted + 1)
        rw [h.next, UInt16.ofNat_add]
        rfl
      · intro n c hn
        rw [channels, Function.comp_update] at hn
        obtain ⟨rfl, hc⟩ | ⟨-, hn⟩ := Table.of_update hn
        · rw [← h.next]
          exact hc.symm
        · exact h.channel n c hn
  · exact h

/-- The first 65536 sessions have channels of their own. -/
theorem fresh_of_accepted (ids : ℕ → ℕ → Bytes) (es : List Event)
    (haccepted : ((machine ids).run es).accepted ≤ 65536) : Fresh ((machine ids).run es) := by
  have hnumbered : Numbered ((machine ids).run es) := by
    induction es using List.reverseRecOn with
    | nil => exact ⟨rfl, fun n c hn => by cases hn⟩
    | append_singleton es e ih =>
      rw [Machine.run_snoc] at haccepted ⊢
      have hbefore := ih ((accepted_step ids _ e).trans haccepted)
      by_cases he : e = .accept
      · subst he
        exact hbefore.accept (wf_run ids es) haccepted
      · obtain ⟨hchannels, hnext, hcount⟩ := channels_of_ne_accept ids ((machine ids).run es) he
        constructor
        · exact (hnext.trans hbefore.next).trans (congrArg UInt16.ofNat hcount.symm)
        · intro n c hn
          exact hbefore.channel n c (hchannels ▸ hn)
  have hnumber : ∀ {n c}, ((machine ids).run es).channels n = some c → n < 65536 := by
    intro n c hn
    obtain ⟨session, hn, -⟩ := Option.map_eq_some_iff.mp hn
    exact ((wf_run ids es).number n _ (holders_eq hn)).trans_le haccepted
  intro n m c hn hm
  exact ofNat_inj (hnumber hn) (hnumber hm)
    ((hnumbered.channel n c hn).symm.trans (hnumbered.channel m c hm))

-- ════════════════════════════════════════════════════════════════════════
-- The mailboxes
-- ════════════════════════════════════════════════════════════════════════

/-- A mailbox is registered before the reader of its session starts. -/
theorem mailboxes_step (h : (s.step ids e).1.mailboxes c = some n) :
    s.mailboxes c = some n ∨ s.acceptor = .created n c := by
  cases e with
  | register =>
    simp only [step, register] at h
    split at h
    · exact .inl h
    · exact .inl h
    · next m channel hacceptor =>
      obtain ⟨rfl, hm⟩ | ⟨-, hold⟩ := Table.of_update h
      · exact .inr (by rw [hacceptor, hm])
      · exact .inl hold
  | accept =>
    simp only [step, accept] at h
    repeat' split at h
    all_goals exact .inl h
  | handle =>
    simp only [step, handle, dispatch] at h
    repeat' split at h
    all_goals exact .inl h
  | perform m =>
    simp only [step] at h
    split at h
    · exact .inl h
    · split at h
      · exact .inl h
      · next effect _ _ =>
        cases effect with
        | removeMailbox => exact .inl (Table.of_update_none h).2
        | _ => exact .inl h
  | _ =>
    simp only [step] at h
    repeat' split at h
    all_goals exact .inl h

/-- The reader of a session that has not been started has not begun. -/
theorem unstarted_run (ids : ℕ → ℕ → Bytes) (es : List Event) :
    ∀ n session, ((machine ids).run es).sessions n = some session → session.started = false →
      session.reader.forger.hsState = .unestablished := by
  refine Machine.invariant (M := machine ids) (P := fun _ s => ∀ n session,
    s.sessions n = some session → session.started = false →
      session.reader.forger.hsState = .unestablished) ?_ ?_ es
  · intro n session hn
    cases hn
  · intro es e ih n session' hn' hstarted
    cases hn : ((machine ids).run es).sessions n with
    | none =>
      obtain ⟨channel, rfl⟩ := sessions_of_new hn hn'
      rfl
    | some session =>
      obtain ⟨session₁, hn₁, hevolves⟩ := evolves_step ids (wf_run ids es) hn e
      cases hn₁.symm.trans hn'
      cases hevolves with
      | same => exact ih n _ hn hstarted
      | started => cases hstarted
      | turned wake _ hready =>
        have hsame : session.started = false := hstarted
        rw [hready.1] at hsame
        cases hsame
      | _ => exact ih n session hn hstarted

/-- A session that has sent its request has been started. -/
theorem started_of_spent (ids : ℕ → ℕ → Bytes) (es : List Event)
    (hn : ((machine ids).run es).sessions n = some session) (hspent : session.Spent) :
    session.started = true := by
  cases hstarted : session.started with
  | true => rfl
  | false =>
    have hclosed := ((wf_run ids es).waiting n _ (holders_eq hn) hstarted).1
    rcases hspent.settled with hsettled | hsettled
    · cases hclosed.symm.trans hsettled
    · cases (unstarted_run ids es n session hn hstarted).symm.trans hsettled

/-- The mailbox of a session that has been started is not registered once more. -/
theorem mailbox_of_started (hwf : Wf s) (hn : s.sessions n = some session) (hstarted : session.started = true)
    (h : (s.step ids e).1.mailboxes c = some n) : s.mailboxes c = some n := by
  rcases mailboxes_step h with h | hcreated
  · exact h
  · obtain ⟨holder, hholder, -, hnot⟩ := hwf.registering n c (.inr hcreated)
    rw [holders_eq hn] at hholder
    cases hholder
    cases hstarted.symm.trans hnot

-- ════════════════════════════════════════════════════════════════════════
-- The observer of a session
-- ════════════════════════════════════════════════════════════════════════

/-- The payload that a session hears with a message. -/
theorem hears_of_takenUp {item : Item} (h : s.takenUp e = some item) :
    s.hears n e = if item.msg.action = .none ∧ s.mailboxes item.msg.channel = some n then
      writesOf .bridge [item.write] else [] := by
  have htaking : s.taking e = if item.origin = .bridge then [item.msg] else [] := by
    rw [taking, h]
    by_cases horigin : item.origin = .bridge <;> simp [horigin]
  rw [hears, htaking]
  by_cases horigin : item.origin = .bridge
  · rw [if_pos horigin, Item.write, horigin, writesOf_cons_self]
    by_cases hboth : item.msg.action = .none ∧ s.mailboxes item.msg.channel = some n <;> simp [hboth]
  · rw [if_neg horigin, Item.write, writesOf_cons_of_ne horigin]
    simp

/-- What an observer notes of the bridge is what the session has heard since its approval. -/
theorem noted_of_hears (ids : ℕ → ℕ → Bytes) (n : ℕ) (es : List Event) :
    ∀ items, (returned ids n es).items = some items → ∃ before,
      (machine ids).collect (hears n) es = before ++ writesOf .bridge (items.map Item.write) := by
  induction es using List.reverseRecOn with
  | nil =>
    intro items hitems
    cases hitems
  | append_singleton es e ih =>
    intro items hitems
    rw [returned, Machine.observe_snoc, ← returned, Return.note] at hitems
    rw [Machine.collect_snoc]
    cases htaken : ((machine ids).run es).takenUp e with
    | none =>
      have hnil : ((machine ids).run es).hears n e = [] := by simp [hears, taking, htaken]
      rw [htaken] at hitems
      rw [hnil, List.append_nil]
      exact ih items hitems
    | some item =>
      rw [htaken] at hitems
      have hheard := hears_of_takenUp (n := n) htaken
      have hkeeps (hsame : (returned ids n es).items = some items)
          (hother : ¬(item.msg.action = .none ∧
            ((machine ids).run es).mailboxes item.msg.channel = some n)) :
          ∃ before, (machine ids).collect (hears n) es ++ ((machine ids).run es).hears n e =
            before ++ writesOf .bridge (items.map Item.write) := by
        rw [hheard, if_neg hother, List.append_nil]
        exact ih items hsame
      cases haction : item.msg.action with
      | none =>
        simp only [haction] at hitems
        split_ifs at hitems with hmailbox
        · obtain ⟨items', hitems', rfl⟩ := Option.map_eq_some_iff.mp hitems
          obtain ⟨before, hbefore⟩ := ih items' hitems'
          refine ⟨before, ?_⟩
          rw [hbefore, hheard, if_pos ⟨haction, hmailbox⟩, List.map_append, List.map_singleton, writesOf_append,
            List.append_assoc]
        · exact hkeeps hitems fun hboth => hmailbox hboth.2
      | createChannel =>
        simp only [haction] at hitems
        exact hkeeps hitems (by simp [haction])
      | shutdownChannel =>
        simp only [haction] at hitems
        split_ifs at hitems
        exact hkeeps hitems (by simp [haction])
      | approval =>
        simp only [haction] at hitems
        split_ifs at hitems
        · -- the observer begins anew
          cases hitems
          exact ⟨_, (List.append_nil _).symm⟩
        · exact hkeeps hitems (by simp [haction])

end

end Gmlbroker

end GuacamoleDiode
