import GuacamoleDiode.System.Trail

/-!
# One user for each connection

In a run of the whole system, everything that a connection of gcdbroker receives from the bridge
has been queued by the reader of one session of gmlbroker, which is also the one whose request
has been approved. No other connection receives anything of this session. A channel may be given
to a new session while messages of its last one are still on their way, and while gcdbroker is
still connected for it. The only condition is that no two sessions draw the same request id.

## Main definitions

- `returning`: the messages on their way back to gmlbroker
- `Tenanted`: what holds of the messages on their way and of the connections

## Main results

- `one_user`
-/

namespace GuacamoleDiode

open Wire

namespace Gcdbroker

/-- The message that the handler is about to queue. -/
def SendHandler.relayed : SendHandler → List BridgeMessage
  | .relaying msg => [msg]
  | _ => []

section

variable {s : Gcdbroker} {e : Event} {msg : BridgeMessage}

theorem not_approves_downgrade (msg : BridgeMessage) : ¬Approves (downgrade msg) := by
  rintro ⟨-, hverdict⟩
  have hne : approvalDeny ≠ approvalApprove := by decide
  cases hpayload : msg.payload with
  | nil => exact hne (by simpa [verdict, downgrade, hpayload] using hverdict)
  | cons v id => exact hne (by simpa [verdict, downgrade, hpayload] using hverdict)

theorem not_approves_shutdown (c : UInt16) : ¬Approves { channel := c, action := .shutdownChannel } :=
  fun h => nomatch h.1

theorem relays_handle (h : s.handle.1.handler = .relaying msg) (happroves : Approves msg) :
    s.handler = .relaying msg ∨ ∃ k item, .insert k item ∈ s.handle.2 ∧ item.msg = msg := by
  unfold handle at h ⊢
  cases hh : s.handler with
  | waiting =>
    simp only [hh] at h
    split at h
    · cases hh.symm.trans h
    · cases h
  | busy item stage =>
    cases stage with
    | fetched =>
      simp only [hh, dispatch] at h
      split at h
      · cases h
      · split_ifs at h with hverdict
        · cases hh.symm.trans h
        · cases h
          exact absurd happroves.2 hverdict
      · cases h
        exact absurd happroves (not_approves_shutdown _)
      · split at h <;> cases h
    | dialed fd k =>
      simp only [hh, insert] at h ⊢
      split at h
      · cases h
        exact .inr ⟨k, item, List.mem_singleton_self _, rfl⟩
      · cases h
        exact absurd happroves (not_approves_downgrade _)
    | routed fd =>
      simp only [hh] at h
      cases h
  | relaying m => simp [hh] at h
  | failed c => simp [hh] at h

/-- An approval is about to be relayed once its connection has been bound. -/
theorem relays_step (h : (s.step e).1.handler = .relaying msg) (happroves : Approves msg) :
    s.handler = .relaying msg ∨ ∃ k item, .insert k item ∈ (s.step e).2 ∧ item.msg = msg := by
  cases e with
  | handle => exact relays_handle h happroves
  | dial fd =>
    simp only [step, dial] at h
    split at h
    · split_ifs at h
      · split at h
        · cases h
          exact absurd happroves (not_approves_downgrade _)
        · split_ifs at h
          exact .inl h
      · exact .inl h
    · exact .inl h
  | send taken =>
    simp only [step, send] at h
    split at h
    · split at h
      · dsimp only at h
        split_ifs at h
      · dsimp only at h
        split_ifs at h
    · exact .inl h
  | _ =>
    simp only [step, receive, read] at h
    repeat' split at h
    all_goals exact .inl h

/-- The messages that a step queues are no approvals, except for the one that is relayed. -/
theorem relaying_of_enqueued (h : msg ∈ s.enqueued e) (happroves : Approves msg) :
    s.handler = .relaying msg := by
  unfold enqueued at h
  split at h
  · split at h
    · next hh =>
      obtain rfl := List.mem_singleton.mp h
      exact hh
    · cases h
  · split at h
    · split_ifs at h
      · obtain rfl := List.mem_singleton.mp h
        cases happroves.1
      · cases h
    · cases h
  · split at h
    · split_ifs at h
      · obtain rfl := List.mem_singleton.mp h
        exact absurd happroves (not_approves_shutdown _)
      · cases h
    · cases h
  · cases h

/-- The message that the sender takes off the send queue. -/
def sending (s : Gcdbroker) : Event → List BridgeMessage
  | .transmit => s.sendQueue.take 1
  | _ => []

theorem sending_subset (s : Gcdbroker) (e : Event) : s.sending e ⊆ s.sendQueue := by
  cases e with
  | transmit => exact List.take_subset 1 s.sendQueue
  | _ => exact List.nil_subset _

theorem transmitted_step (s : Gcdbroker) (e : Event) :
    transmitted (s.step e).2 = (s.sending e).map Multiplexer.serialize := by
  have hshutdown : ∀ fd : Option ℕ, transmitted (fd.toList.map Effect.shutdown) = [] := by
    intro fd
    cases fd <;> rfl
  cases e with
  | transmit =>
    simp only [step, sending]
    split
    · next hq => simp [hq, transmitted]
    · next hq => simp [hq, transmitted]
  | _ =>
    simp only [step, sending, handle, dispatch, insert, dial, send, receive, read]
    repeat' split
    all_goals first
      | rfl
      | exact hshutdown _

end

end Gcdbroker

namespace Diode

open ForwardPath (Frame frameOf frameOf_fst linkFrames heard trim heard_serialize approves_trim
  getElem?_of_frameOf)
open Gcdbroker (Approves Routed Ledger Move IsAck)

/-- The messages on their way back to gmlbroker, from the handler of gcdbroker to that of
gmlbroker. -/
def returning (s : Diode) : List BridgeMessage :=
  s.gcd.handler.relayed ++ s.gcd.sendQueue ++ s.toGml.filterMap heard ++
    s.gml.inbox.map Gmlbroker.Item.msg

/-- No two sessions have registered the same request id. -/
def Distinct (reg : List (ℕ × Bytes)) : Prop :=
  ∀ n m id, (n, id) ∈ reg → (m, id) ∈ reg → n = m

/-- The messages on their way and the connections belong to the sessions that they should. -/
structure Tenanted (s : Diode) (t : Trail) (ms : List BridgeMessage) (out : List Routed)
    (user : ℕ → ℕ) (reg : List (ℕ × Bytes)) : Prop where
  queue : t.queue.map Prod.fst = s.gml.sendQueue
  toGuard : t.toGuard.map Prod.fst = s.toGuard
  toGcd : t.toGcd.map Prod.fst = s.toGcd
  length : t.authors.length = ms.length
  opened : ∀ k item n, .opened k item ∈ out → item.origin = .bridge n → t.authors[n]? = some (user k)
  wrote : ∀ k item data n, .wrote k item data ∈ out → item.origin = .bridge n →
    t.authors[n]? = some (user k)
  lease : ∀ c, (t.lease s.gcd out user c).Wf
  /-- nobody on a channel is later than its holder -/
  holder : ∀ c n, s.gml.table c = some n → ∀ m ∈ (t.lease s.gcd out user c).known, m ≤ n
  spent : ∀ c, ∀ m ∈ (t.lease s.gcd out user c).known,
    ∃ session, s.gml.sessions m = some session ∧ session.channel = c ∧ session.Spent
  asked : ∀ f ∈ t.asked, Creates f.1 → (f.2, f.1.payload) ∈ reg
  answered : ∀ f ∈ t.answered s.gcd, Approves f.1 →
    Drawn f.1.payload.tail ∧ (f.2, f.1.payload.tail) ∈ reg
  /-- an approved session has got its connection -/
  approved : ∀ n session, s.gml.sessions n = some session → session.reader.approved = true →
    n ∈ (t.lease s.gcd out user session.channel).opened
  returning : ∀ msg ∈ s.returning, Approves msg → Drawn msg.payload.tail ∧
    ∃ m ∈ (t.lease s.gcd out user msg.channel).opened, (m, msg.payload.tail) ∈ reg

section

variable {s : Diode} {t : Trail} {ms : List BridgeMessage} {out : List Routed} {user : ℕ → ℕ}
  {reg : List (ℕ × Bytes)} {c : UInt16} {msg : BridgeMessage}

/-- An approval fits into a datagram. -/
theorem trim_of_drawn_tail (h : Drawn msg.payload.tail) : trim msg = msg := by
  refine trim_of_length ?_
  have hlen := length_of_drawn h
  rw [List.length_tail] at hlen
  have hmax : Multiplexer.maxPayloadSize = 1200 := rfl
  omega

theorem Tenanted.mono (h : Tenanted s t ms out user reg) {reg' : List (ℕ × Bytes)} (hreg : reg ⊆ reg') :
    Tenanted s t ms out user reg' :=
  { h with
    asked := fun f hf hcreates => hreg (h.asked f hf hcreates)
    answered := fun f hf happroves => (h.answered f hf happroves).imp_right fun hmem => hreg hmem
    returning := fun msg hmsg happroves =>
      (h.returning msg hmsg happroves).imp_right fun ⟨m, hm, hmem⟩ => ⟨m, hm, hreg hmem⟩ }

-- ════════════════════════════════════════════════════════════════════════
-- gmlbroker moves
-- ════════════════════════════════════════════════════════════════════════

theorem lease_stepGml (t : Trail) (s : Diode) (e : Gmlbroker.Event) (out : List Routed) (user : ℕ → ℕ)
    (c : UInt16) :
    (t.stepGml s.gml e).lease s.gcd out user c = { t.lease s.gcd out user c with
      queue := (t.lease s.gcd out user c).queue ++
        letters Creates c ((s.gml.queued e).toList.map fun msg => (msg, speaker e)) } := by
  simp only [Trail.lease, letters_stepGml, ← List.append_assoc]
  rfl

/-- What a message that is queued means to its channel. -/
theorem letters_queued {n : ℕ} (h : msg.action = .none ∨ Creates msg) :
    letters Creates msg.channel [(msg, n)] =
      [if msg.action = .none then .payload n else .request n] := by
  rcases h with h | h
  · simp [letters, letter, h]
  · have haction : msg.action = .createChannel := h
    simp [letters, letter, haction, Creates]

/-- The reader of the session that holds the channel speaks. -/
theorem Tenanted.step_of_queued (h : Tenanted s t ms out user reg) (hs : Honest s)
    (hspeaks : ∀ n session, s.gml.sessions n = some session → session.Speaks) {n : ℕ}
    {session : Gmlbroker.Session} {pending : List ReadHandler.Effect}
    (hn : s.gml.sessions n = some session) (hpending : session.pending = .enqueue msg :: pending)
    (haction : msg.action = .none ∨ Creates msg) :
    Lease.Step (t.lease s.gcd out user msg.channel) { t.lease s.gcd out user msg.channel with
      queue := (t.lease s.gcd out user msg.channel).queue ++ letters Creates msg.channel [(msg, n)] } := by
  have hmem : .enqueue msg ∈ session.pending := hpending ▸ List.mem_cons_self
  have hchannel := Gmlbroker.channel_of_enqueue hs.gml hn hmem
  have hkeeps : session.holder.Keeps .removeChannel := by
    refine Gmlbroker.keeps_of_enqueue hs.gml hn hpending ?_
    rcases haction with haction | haction
    · rw [haction]
      exact nofun
    · rw [show msg.action = .createChannel from haction]
      exact nofun
  have htable := hs.gml.table_of_keeps hn hkeeps
  rw [← hchannel] at htable
  have hlatest := h.holder msg.channel n htable
  rw [letters_queued haction]
  rcases haction with haction | hcreates
  · rw [if_pos haction]
    have happroved := (hspeaks n session hn).payload msg hmem haction
    have hopened := h.approved n session hn happroved
    rw [← hchannel] at hopened
    exact .post n hopened hlatest rfl rfl rfl
  · have haction : msg.action = .createChannel := hcreates
    rw [if_neg (by simp [haction])]
    refine .ask n (fun m hm => lt_of_le_of_ne (hlatest m hm) ?_) rfl rfl rfl
    rintro rfl
    -- whoever is known has no request left to send
    obtain ⟨session', hn', -, hspent⟩ := h.spent msg.channel m hm
    cases hn.symm.trans hn'
    exact hspent.pending msg hmem haction

/-- Nobody becomes known on a channel but the reader that asks for it. -/
theorem Tenanted.known_stepGml (h : Tenanted s t ms out user reg) (hs : Honest s)
    (hspeaks : ∀ n session, s.gml.sessions n = some session → session.Speaks)
    {e : Gmlbroker.Event} {m : ℕ}
    (hm : m ∈ ((t.stepGml s.gml e).lease s.gcd out user c).known) :
    m ∈ (t.lease s.gcd out user c).known ∨ ∃ session msg pending, e = .perform m ∧
      s.gml.sessions m = some session ∧ session.pending = .enqueue msg :: pending ∧ Creates msg ∧
        session.channel = c := by
  rw [lease_stepGml, Lease.known, List.map_append, ← List.append_assoc] at hm
  rcases List.mem_append.mp hm with hm | hm
  · exact .inl hm
  · obtain ⟨l, hl, rfl⟩ := List.mem_map.mp hm
    obtain ⟨f, hf, hletter⟩ := List.mem_filterMap.mp hl
    obtain ⟨msg, hmsg, rfl⟩ := List.mem_map.mp hf
    obtain ⟨n, session, pending, rfl, hn, hpending⟩ :=
      Gmlbroker.exists_enqueue_of_queued (Option.mem_toList.mp hmsg)
    have hmem : .enqueue msg ∈ session.pending := hpending ▸ List.mem_cons_self
    have hchannel := Gmlbroker.channel_of_enqueue hs.gml hn hmem
    unfold letter at hletter
    split_ifs at hletter with hc haction hcreates
    · obtain rfl := Option.some.inj hletter
      have happroved := (hspeaks n session hn).payload msg hmem haction
      refine .inl (List.mem_append_left _ ?_)
      rw [← hc, hchannel]
      exact h.approved n session hn happroved
    · obtain rfl := Option.some.inj hletter
      exact .inr ⟨session, msg, pending, rfl, hn, hpending, hcreates, hchannel.symm.trans hc⟩

theorem Tenanted.lease_stepGml (h : Tenanted s t ms out user reg) (hs : Honest s)
    (hspeaks : ∀ n session, s.gml.sessions n = some session → session.Speaks) (e : Gmlbroker.Event)
    (c : UInt16) : ((t.stepGml s.gml e).lease s.gcd out user c).Wf := by
  rw [Diode.lease_stepGml]
  cases hq : s.gml.queued e with
  | none =>
    show Lease.Wf { t.lease s.gcd out user c with queue := (t.lease s.gcd out user c).queue ++ [] }
    rw [List.append_nil]
    exact h.lease c
  | some msg =>
    obtain ⟨n, session, pending, rfl, hn, hpending⟩ := Gmlbroker.exists_enqueue_of_queued hq
    have hsound := hs.pending.queued hq
    by_cases hc : msg.channel = c ∧ (msg.action = .none ∨ Creates msg)
    · obtain ⟨rfl, haction⟩ := hc
      exact (h.lease msg.channel).step (h.step_of_queued hs hspeaks hn hpending haction)
    · have hnil : letters Creates c [(msg, n)] = [] := by
        simp only [not_and, not_or] at hc
        by_cases hchannel : msg.channel = c
        · exact letters_eq_nil (by simpa using hc hchannel)
        · simp [letters, letter, hchannel]
      show Lease.Wf { t.lease s.gcd out user c with
        queue := (t.lease s.gcd out user c).queue ++ letters Creates c [(msg, n)] }
      rw [hnil, List.append_nil]
      exact h.lease c

/-- A channel is given to the session that is accepted last. -/
theorem table_stepGml (ids : ℕ → ℕ → Bytes) {g : Gmlbroker} {e : Gmlbroker.Event} {n : ℕ}
    (h : (g.step ids e).1.table c = some n) : g.table c = some n ∨ n = g.accepted := by
  cases e with
  | accept =>
    simp only [Gmlbroker.step, Gmlbroker.accept] at h
    split_ifs at h
    · split at h
      · exact .inl h
      · obtain ⟨rfl, rfl⟩ | ⟨-, h⟩ := Table.of_update h
        · exact .inr rfl
        · exact .inl h
    · exact .inl h
  | perform m =>
    simp only [Gmlbroker.step] at h
    split at h
    · exact .inl h
    · split at h
      · exact .inl h
      · next effect _ _ =>
        cases effect with
        | removeChannel => exact .inl (Table.of_update_none h).2
        | _ => exact .inl h
  | _ =>
    simp only [Gmlbroker.step, Gmlbroker.register, Gmlbroker.handle, Gmlbroker.dispatch] at h
    repeat' split at h
    all_goals exact .inl h

theorem Tenanted.holder_stepGml (h : Tenanted s t ms out user reg) (hs : Honest s)
    (hspeaks : ∀ n session, s.gml.sessions n = some session → session.Speaks)
    (ids : ℕ → ℕ → Bytes) {e : Gmlbroker.Event} {n m : ℕ} (hn : (s.gml.step ids e).1.table c = some n)
    (hm : m ∈ ((t.stepGml s.gml e).lease s.gcd out user c).known) : m ≤ n := by
  rcases table_stepGml ids hn with hn | rfl
  · rcases h.known_stepGml hs hspeaks hm with hm | ⟨session, msg, pending, -, hsession, hpending, hcreates, rfl⟩
    · exact h.holder c n hn m hm
    · have hkeeps : session.holder.Keeps .removeChannel := by
        refine Gmlbroker.keeps_of_enqueue hs.gml hsession hpending ?_
        rw [show msg.action = .createChannel from hcreates]
        exact nofun
      have htable := hs.gml.table_of_keeps hsession hkeeps
      exact (Option.some.inj (htable.symm.trans hn)).le
  · -- whoever is known has been accepted before
    have hknown : ∃ session, s.gml.sessions m = some session := by
      rcases h.known_stepGml hs hspeaks hm with hm | ⟨session, -, -, -, hsession, -⟩
      · obtain ⟨session, hsession, -⟩ := h.spent c m hm
        exact ⟨session, hsession⟩
      · exact ⟨session, hsession⟩
    obtain ⟨session, hsession⟩ := hknown
    exact (hs.gml.number m _ (Gmlbroker.holders_eq hsession)).le

theorem Tenanted.spent_stepGml (h : Tenanted s t ms out user reg) (hs : Honest s)
    (hspeaks : ∀ n session, s.gml.sessions n = some session → session.Speaks)
    (ids : ℕ → ℕ → Bytes) {e : Gmlbroker.Event} {m : ℕ}
    (hm : m ∈ ((t.stepGml s.gml e).lease s.gcd out user c).known) :
    ∃ session, (s.gml.step ids e).1.sessions m = some session ∧ session.channel = c ∧ session.Spent := by
  rcases h.known_stepGml hs hspeaks hm with hm | ⟨session, msg, pending, rfl, hn, hpending, hcreates, hc⟩
  · obtain ⟨session, hn, rfl, hspent⟩ := h.spent c m hm
    exact Gmlbroker.spent_step ids hs.gml hn hspent e
  · refine ⟨{ session with pending }, ?_, hc,
      Gmlbroker.spent_of_create hs.registered hs.gml hn hpending hcreates⟩
    rw [Gmlbroker.step_perform ids hn hpending, Gmlbroker.sessions_perform]
    exact Function.update_self ..

/-- A request that is queued has the id that its reader has registered. -/
theorem mem_of_queued (hs : Honest s) (hsourced : Gmlbroker.Sourced reg s.gml) {e : Gmlbroker.Event}
    (hq : s.gml.queued e = some msg) (hcreates : Creates msg) : (speaker e, msg.payload) ∈ reg := by
  obtain ⟨n, session, pending, rfl, hn, hpending⟩ := Gmlbroker.exists_enqueue_of_queued hq
  have hmem : .enqueue msg ∈ session.pending := hpending ▸ List.mem_cons_self
  have hentry := (hs.registered n session msg hn hmem hcreates).2 pending hpending
  refine (hsourced _ _ hentry).resolve_left fun hnil => ?_
  have hlen := length_of_drawn ((hs.pending.queued hq).create hcreates)
  rw [show msg.payload = [] from hnil] at hlen
  cases hlen

theorem Tenanted.mem_queue (h : Tenanted s t ms out user reg) {f : Frame} (hf : f ∈ t.queue) :
    f.1 ∈ s.ahead := by
  refine List.mem_append_right _ ?_
  rw [← h.queue]
  exact List.mem_map_of_mem hf

theorem Tenanted.asked_stepGml (h : Tenanted s t ms out user reg) (hs : Honest s)
    (hsourced : Gmlbroker.Sourced reg s.gml) {e : Gmlbroker.Event} {f : Frame}
    (hf : f ∈ (t.stepGml s.gml e).asked) (hcreates : Creates f.1) : (f.2, f.1.payload) ∈ reg := by
  have hsplit := t.sending_append_unsent e
  rw [Diode.asked_stepGml] at hf
  rcases List.mem_append.mp hf with hf | hf
  · rcases List.mem_append.mp hf with hf | hf
    · exact h.asked f (List.mem_append_left _ hf) hcreates
    · obtain ⟨sent, hsent, rfl⟩ := List.mem_map.mp hf
      have hqueue : sent ∈ t.queue := hsplit ▸ List.mem_append_left _ hsent
      have hdrawn := (hs.ahead sent.1 (h.mem_queue hqueue)).create hcreates
      have htrim : trim sent.1 = sent.1 := by
        refine trim_of_length ?_
        rw [length_of_drawn hdrawn]
        decide
      simp only [htrim]
      exact h.asked sent (List.mem_append_right _ hqueue) hcreates
  · rcases List.mem_append.mp hf with hf | hf
    · exact h.asked f (List.mem_append_right _ (hsplit ▸ List.mem_append_right _ hf)) hcreates
    · obtain ⟨msg, hmsg, rfl⟩ := List.mem_map.mp hf
      exact mem_of_queued hs hsourced (Option.mem_toList.mp hmsg) hcreates

/-- A session that becomes approved has got its connection: nobody else has its request id. -/
theorem Tenanted.approved_stepGml (h : Tenanted s t ms out user reg) (hs : Honest s)
    (hsourced : Gmlbroker.Sourced reg s.gml) (hdistinct : Distinct reg) (ids : ℕ → ℕ → Bytes)
    {e : Gmlbroker.Event} {n : ℕ} {session' : Gmlbroker.Session}
    (hn' : (s.gml.step ids e).1.sessions n = some session') (happroved : session'.reader.approved = true) :
    n ∈ (t.lease s.gcd out user session'.channel).opened := by
  cases hn : s.gml.sessions n with
  | none =>
    obtain ⟨channel, rfl⟩ := Gmlbroker.sessions_of_new hn hn'
    cases happroved
  | some session =>
    obtain ⟨session₁, hn₁, hevolves⟩ := Gmlbroker.evolves_step ids hs.gml hn e
    cases hn₁.symm.trans hn'
    have hchannel : session'.channel = session.channel := by cases hevolves <;> rfl
    rw [hchannel]
    cases hbefore : session.reader.approved with
    | true => exact h.approved n session hn hbefore
    | false =>
      obtain ⟨item, hitem, haction, hverdict, hmatching⟩ :=
        Gmlbroker.exists_verdict_of_approved hn hn' hbefore happroved
      have hreturning : item.msg ∈ s.returning := List.mem_append_right _ (List.mem_map_of_mem hitem)
      obtain ⟨hdrawn, m, hm, hreg⟩ := h.returning item.msg hreturning ⟨haction, hverdict⟩
      -- the id of the verdict is that of the session
      unfold Gmlbroker.matching at hmatching
      split at hmatching
      · cases hmatching
      · next entry hentry =>
        split_ifs at hmatching with hid
        obtain rfl := Option.some.inj hmatching
        have hmine : (entry.session, item.msg.payload.tail) ∈ reg := by
          have hsource := hsourced _ entry hentry
          rw [hid] at hsource
          refine hsource.resolve_left fun hnil => ?_
          have hlen := length_of_drawn hdrawn
          rw [show item.msg.payload.tail = [] from hnil] at hlen
          cases hlen
        obtain rfl := hdistinct _ _ _ hreg hmine
        obtain ⟨session₂, hn₂, hc, -⟩ := h.spent _ _ (List.mem_append_left _ hm)
        cases hn.symm.trans hn₂
        rw [hc]
        exact hm

/-- Verdicts reach gmlbroker from its link only. -/
theorem returning_stepGml (hs : Honest s) (ids : ℕ → ℕ → Bytes) {e : Gmlbroker.Event}
    (happlies : s.applies (.gml e) = true) (h : msg ∈ (s.stepGml ids e).returning)
    (happroves : Approves msg) : msg ∈ s.returning := by
  rcases List.mem_append.mp h with h | h
  · rcases List.mem_append.mp h with h | h
    · exact List.mem_append_left _ (List.mem_append_left _ h)
    · refine List.mem_append_left _ (List.mem_append_right _ ?_)
      cases e with
      | datagram data =>
        refine ((List.tail_sublist _).filterMap _).subset ?_
        exact h
      | _ => exact h
  · obtain ⟨item, hitem, rfl⟩ := List.mem_map.mp h
    rcases Gmlbroker.mem_inbox_step ids hs.gml e hitem with hitem | harrival | haction
    · exact List.mem_append_right _ (List.mem_map_of_mem hitem)
    · refine List.mem_append_left _ (List.mem_append_right _ ?_)
      cases e with
      | datagram data =>
        simp only [applies, beq_iff_eq] at happlies
        exact List.mem_filterMap.mpr ⟨data, List.mem_of_head? happlies, harrival⟩
      | _ => cases harrival
    · cases haction.symm.trans happroves.1

theorem Tenanted.stepGml (h : Tenanted s t ms out user reg) (hs : Honest s)
    (hspeaks : ∀ n session, s.gml.sessions n = some session → session.Speaks)
    (hsourced : Gmlbroker.Sourced reg s.gml) (hdistinct : Distinct reg) (ids : ℕ → ℕ → Bytes)
    {e : Gmlbroker.Event} (happlies : s.applies (.gml e) = true) {reg' : List (ℕ × Bytes)}
    (hreg : reg ⊆ reg') : Tenanted (s.stepGml ids e) (t.stepGml s.gml e) ms out user reg' where
  queue := by
    have hunsent : (t.unsent e).map Prod.fst = s.gml.unsent e := by
      cases e <;> simp [Trail.unsent, Gmlbroker.unsent, ← h.queue, List.map_tail]
    simp only [Trail.stepGml, Diode.stepGml, Gmlbroker.sendQueue_step, List.map_append, hunsent,
      List.map_map, Function.comp_def, List.map_id']
  toGuard := by
    have hsending : (t.sending e).map Prod.fst = s.gml.sending e := by
      cases e <;> simp [Trail.sending, Gmlbroker.sending, ← h.queue, List.map_take]
    simp only [Trail.stepGml, Diode.stepGml, Gmlbroker.transmitted_step, List.map_append, h.toGuard,
      ← hsending, List.map_map, Function.comp_def]
  toGcd := h.toGcd
  length := h.length
  opened := h.opened
  wrote := h.wrote
  lease := h.lease_stepGml hs hspeaks e
  holder _ _ hn _ hm := h.holder_stepGml hs hspeaks ids hn hm
  spent _ _ hm := h.spent_stepGml hs hspeaks ids hm
  asked _ hf hcreates := hreg (h.asked_stepGml hs hsourced hf hcreates)
  answered f hf happroves := (h.answered f hf happroves).imp_right fun hmem => hreg hmem
  approved _ _ hn happroved := h.approved_stepGml hs hsourced hdistinct ids hn happroved
  returning msg hmsg happroves := by
    obtain ⟨hdrawn, m, hm, hmem⟩ :=
      h.returning msg (returning_stepGml hs ids happlies hmsg happroves) happroves
    exact ⟨hdrawn, m, hm, hreg hmem⟩

-- ════════════════════════════════════════════════════════════════════════
-- The guard moves
-- ════════════════════════════════════════════════════════════════════════

/-- What the guard receives has been sent by a reader. -/
theorem sound_received (hs : Honest s) {e : Guard.Event} (happlies : s.applies (.guard e) = true)
    (hreceived : s.guard.received e = some msg) : Gmlbroker.Sound Drawn msg := by
  refine hs.ahead msg ?_
  rw [ahead_stepGuard happlies, hreceived]
  exact List.mem_append_left _ (by simp)

/-- A step of the guard loses letters at most. -/
theorem Tenanted.lose_stepGuard (h : Tenanted s t ms out user reg) {e : Guard.Event}
    (happlies : s.applies (.guard e) = true) {msgs : List BridgeMessage}
    (hout : (s.guard.step e).2 = msgs.map Multiplexer.serialize) (hanswer : Answer s.guard e msgs)
    (c : UInt16) : Lease.Step (t.lease s.gcd out user c)
      ((t.stepGuard s.guard e).lease s.gcd out user c) ∧
    ((t.stepGuard s.guard e).lease s.gcd out user c).queue.length ≤ (t.lease s.gcd out user c).queue.length := by
  have htrim : letters Approves c (msgs.map fun m => (trim m, t.author e)) =
      letters Approves c (msgs.map fun m => (m, t.author e)) := by
    have hframes : letters Approves c ((msgs.map fun m => (m, t.author e)).map fun f => (trim f.1, f.2)) =
        letters Approves c (msgs.map fun m => (m, t.author e)) := letters_trim fun _ _ => approves_trim
    simpa only [List.map_map, Function.comp_def] using hframes
  have hsub : ((t.stepGuard s.guard e).lease s.gcd out user c).queue.Sublist
      (t.lease s.gcd out user c).queue := by
    simp only [Trail.lease, answered_stepGuard hout, asked_stepGuard h.toGuard happlies, letters_append,
      htrim, List.append_assoc]
    exact (List.Sublist.refl _).append ((hanswer.letters (t.author e) c).append (.refl _))
  exact ⟨.lose hsub rfl fun _ hm => hm, hsub.length_le⟩

/-- An approval of the guard has the id of the request, and belongs to its session. -/
theorem Tenanted.answered_stepGuard (h : Tenanted s t ms out user reg)
    {e : Guard.Event} (happlies : s.applies (.guard e) = true) {msgs : List BridgeMessage}
    (hout : (s.guard.step e).2 = msgs.map Multiplexer.serialize) (hanswer : Answer s.guard e msgs)
    {f : Frame} (hf : f ∈ (t.stepGuard s.guard e).answered s.gcd) (happroves : Approves f.1) :
    Drawn f.1.payload.tail ∧ (f.2, f.1.payload.tail) ∈ reg := by
  rw [Diode.answered_stepGuard hout] at hf
  rcases List.mem_append.mp hf with hf | hf
  · exact h.answered f hf happroves
  · obtain ⟨m, hm, rfl⟩ := List.mem_map.mp hf
    have hm' : Approves m := approves_trim.mp happroves
    cases hanswer with
    | control _ hactions => exact absurd hm' (hactions m hm).2
    | approval msg hreceived hcreates hvalid =>
      rcases List.mem_pair.mp hm with rfl | rfl
      · cases hm'.1.symm.trans hcreates
      · have hdrawn : Drawn (approvalOf msg).payload.tail := hvalid
        have hasked : (msg, t.author e) ∈ t.asked := by
          rw [asked_stepGuard h.toGuard happlies, hreceived]
          exact List.mem_append_left _ (by simp)
        simp only [trim_of_drawn_tail hdrawn]
        exact ⟨hdrawn, h.asked _ hasked hcreates⟩
    | payload msg payload hreceived haction =>
      obtain rfl := List.mem_singleton.mp hm
      cases haction.symm.trans hm'.1

theorem Tenanted.stepGuard (h : Tenanted s t ms out user reg) (hs : Honest s) {e : Guard.Event}
    (happlies : s.applies (.guard e) = true) :
    Tenanted (s.stepGuard e) (t.stepGuard s.guard e) ms out user reg := by
  obtain ⟨msgs, hout, hanswer⟩ := answer_of_outcome (Guard.outcome s.guard e) fun msg hmsg =>
    (sound_received hs happlies hmsg).approval
  have hknown : ∀ c, ((t.stepGuard s.guard e).lease s.gcd out user c).known ⊆
      (t.lease s.gcd out user c).known := by
    intro c
    obtain ⟨hstep, hlength⟩ := h.lose_stepGuard happlies hout hanswer c
    exact hstep.known_subset hlength
  exact {
    queue := h.queue
    toGuard := by
      cases e <;> simp [Trail.stepGuard, Diode.stepGuard, Guard.undelivered, ← h.toGuard, List.map_tail]
    toGcd := by
      simp [Trail.stepGuard, Diode.stepGuard, h.toGcd, Function.comp_def]
    length := h.length
    opened := h.opened
    wrote := h.wrote
    lease := fun c => (h.lease c).step (h.lose_stepGuard happlies hout hanswer c).1
    holder := fun c n hn m hm => h.holder c n hn m (hknown c hm)
    spent := fun c m hm => h.spent c m (hknown c hm)
    asked := fun f hf hcreates => by
      refine h.asked f ?_ hcreates
      rw [asked_stepGuard h.toGuard happlies]
      exact List.mem_append_right _ hf
    answered := fun f hf happroves => h.answered_stepGuard happlies hout hanswer hf happroves
    approved := h.approved
    returning := h.returning }

-- ════════════════════════════════════════════════════════════════════════
-- gcdbroker moves
-- ════════════════════════════════════════════════════════════════════════

/-- What a step of gcdbroker sends back was on its way, or has just opened a connection. -/
theorem returning_stepGcd {e : Gcdbroker.Event} (h : msg ∈ (s.stepGcd e).returning)
    (happroves : Approves msg) : (∃ m ∈ s.returning, Approves m ∧ (msg = m ∨ msg = trim m)) ∨
      ∃ k item, .opened k item ∈ Gcdbroker.routes (s.gcd.step e).2 ∧ item.msg = msg := by
  have hqueued : ∀ m ∈ s.gcd.sendQueue, m ∈ s.returning := by
    intro m hm
    exact List.mem_append_left _ (List.mem_append_left _ (List.mem_append_right _ hm))
  have hrelaying : s.gcd.handler = .relaying msg → msg ∈ s.returning := by
    intro hh
    refine List.mem_append_left _ (List.mem_append_left _ (List.mem_append_left _ ?_))
    rw [hh]
    exact List.mem_singleton_self _
  rcases List.mem_append.mp h with h | h
  · rcases List.mem_append.mp h with h | h
    · rcases List.mem_append.mp h with h | h
      · have hh : (s.gcd.step e).1.handler = .relaying msg := by
          change msg ∈ (s.gcd.step e).1.handler.relayed at h
          cases hh : (s.gcd.step e).1.handler with
          | relaying m =>
            rw [hh] at h
            rw [List.mem_singleton.mp h]
          | _ =>
            rw [hh] at h
            cases h
        rcases Gcdbroker.relays_step hh happroves with hh | ⟨k, item, hitem, heq⟩
        · exact .inl ⟨msg, hrelaying hh, happroves, .inl rfl⟩
        · exact .inr ⟨k, item, List.mem_filterMap.mpr ⟨_, hitem, rfl⟩, heq⟩
      · change msg ∈ (s.gcd.step e).1.sendQueue at h
        rw [Gcdbroker.sendQueue_step] at h
        rcases List.mem_append.mp h with h | h
        · refine .inl ⟨msg, hqueued msg ?_, happroves, .inl rfl⟩
          cases e with
          | transmit => exact List.mem_of_mem_tail h
          | _ => exact h
        · exact .inl ⟨msg, hrelaying (Gcdbroker.relaying_of_enqueued h happroves), happroves, .inl rfl⟩
    · simp only [Diode.stepGcd, List.filterMap_append, Gcdbroker.transmitted_step,
        filterMap_heard_serialize] at h
      rcases List.mem_append.mp h with h | h
      · exact .inl ⟨msg, List.mem_append_left _ (List.mem_append_right _ h), happroves, .inl rfl⟩
      · obtain ⟨m, hm, rfl⟩ := List.mem_map.mp h
        exact .inl ⟨m, hqueued m (Gcdbroker.sending_subset _ _ hm), approves_trim.mp happroves, .inr rfl⟩
  · exact .inl ⟨msg, List.mem_append_right _ h, happroves, .inl rfl⟩

/-- A step of gcdbroker takes letters off the queue. -/
theorem length_leaseOf {r r' : Gcdbroker.Router} {refused : Prop} {pushed : List Gcdbroker.Item}
    {out' : List Routed} {user' : ℕ → ℕ} (hmove : Move refused r r' pushed out')
    (F : Gcdbroker.Item → Frame) (rest : List (Lease.Letter ℕ)) :
    (leaseOf F r'.pending rest r'.bound (out ++ out') user' c).queue.length ≤
      (leaseOf F (r.pending ++ pushed) rest r.bound out user c).queue.length := by
  obtain ⟨popped, hpopped⟩ := hmove.pending_eq
  simp only [leaseOf, hpopped, Gcdbroker.bridgeOf_append, List.map_append, letters_append,
    List.length_append]
  omega

theorem Tenanted.stepGcd (h : Tenanted s t ms out user reg) (hledger : Ledger ms out s.gcd.router)
    {e : Gcdbroker.Event} (happlies : s.applies (.gcd e) = true) {refused : Prop}
    {ack : Option Gcdbroker.Item} (hack : ∀ item ∈ ack, IsAck item)
    (hmove : Move refused s.gcd.router (s.gcd.step e).1.router
      (Gcdbroker.additions ms (Gcdbroker.arrival e) ack) (Gcdbroker.routes (s.gcd.step e).2)) :
    ∃ user', Tenanted (s.stepGcd e) (t.stepGcd e) (ms ++ (Gcdbroker.arrival e).toList)
      (out ++ Gcdbroker.routes (s.gcd.step e).2) user' reg := by
  obtain ⟨g, hlink, hauthors, hqueue, htoGuard, hrest⟩ := stepGcd_eq h.toGcd happlies
  have hasked : (t.stepGcd e).asked = t.asked := by rw [Trail.asked, Trail.asked, hqueue, htoGuard]
  have hanswered := answered_arrive hledger h.length hack hlink
  rw [← hauthors] at hanswered
  have hold : ∀ c, t.lease s.gcd out user c = leaseOf (frameOf (t.stepGcd e).authors)
      (s.gcd.router.pending ++ Gcdbroker.additions ms (Gcdbroker.arrival e) ack)
      (letters Approves c (linkFrames (t.stepGcd e).toGcd) ++ letters Creates c (t.stepGcd e).asked)
      s.gcd.router.bound out user c := by
    intro c
    rw [Trail.lease, Trail.answered, hanswered, hasked]
    simp only [leaseOf, letters_append, List.append_assoc]
  obtain ⟨user', hsame, hstep, hnew⟩ := lease_move hmove hledger (frameOf_fst (t.stepGcd e).authors) user
  have hleases : ∀ c, Lease.Step (t.lease s.gcd out user c) ((t.stepGcd e).lease (s.stepGcd e).gcd
      (out ++ Gcdbroker.routes (s.gcd.step e).2) user' c) := by
    intro c
    rw [hold, lease_eq]
    exact hstep c _
  have hknown : ∀ c, ((t.stepGcd e).lease (s.stepGcd e).gcd (out ++ Gcdbroker.routes (s.gcd.step e).2)
      user' c).known ⊆ (t.lease s.gcd out user c).known := by
    intro c
    refine (hleases c).known_subset ?_
    rw [hold, lease_eq]
    exact length_leaseOf hmove _ _
  -- labels of messages that have arrived before
  have hkeep : ∀ {n x : ℕ}, t.authors[n]? = some x → (t.stepGcd e).authors[n]? = some x := by
    intro n x hx
    rw [hauthors, List.getElem?_append_left (List.getElem?_eq_some_iff.mp hx).1]
    exact hx
  have hfront : ∀ {item rest n}, s.gcd.router.pending = item :: rest → item.origin = .bridge n →
      n < (t.stepGcd e).authors.length := by
    intro item rest n hp hn
    have hlen := (hledger.split (l := []) hp hn).2.2
    rw [hauthors, List.length_append, h.length]
    omega
  -- the session of a connection that is opened now has registered the id of the approval
  have hopening : ∀ k item, .opened k item ∈ Gcdbroker.routes (s.gcd.step e).2 →
      Drawn item.msg.payload.tail ∧ (user' k, item.msg.payload.tail) ∈ reg := by
    intro k item hk
    obtain ⟨-, -, hp, happroves, -⟩ := hmove.opened hk
    obtain ⟨n, horigin⟩ := hledger.origin_of_approves hp happroves
    have hframe : frameOf (t.stepGcd e).authors item ∈ t.answered s.gcd := by
      rw [Trail.answered, hanswered, hp, List.cons_append, Gcdbroker.bridgeOf_cons_bridge horigin]
      exact List.mem_cons_self
    have hanswer := h.answered _ hframe
    rw [frameOf_fst, ← hnew k item hk] at hanswer
    exact hanswer happroves
  refine ⟨user', h.queue ▸ congrArg (List.map Prod.fst) hqueue, htoGuard ▸ h.toGuard, hrest, ?_, ?_, ?_,
    fun c => (h.lease c).step (hleases c), fun c n hn m hm => h.holder c n hn m (hknown c hm),
    fun c m hm => h.spent c m (hknown c hm), ?_, ?_, ?_, ?_⟩
  · rw [hauthors, List.length_append, List.length_append, h.length]
    cases Gcdbroker.arrival e <;> rfl
  · intro k item n hk hn
    rcases List.mem_append.mp hk with hk | hk
    · rw [hsame k (hledger.numbers k item hk)]
      exact hkeep (h.opened k item n hk hn)
    · exact getElem?_of_frameOf hn (hfront (hmove.opened hk).2.2.1 hn) (hnew k item hk).symm
  · intro k item data n hk hn
    rcases List.mem_append.mp hk with hk | hk
    · obtain ⟨item', hitem'⟩ := hledger.wrote k item data hk
      rw [hsame k (hledger.numbers k item' hitem')]
      exact hkeep (h.wrote k item data n hk hn)
    · obtain ⟨hbound, hp⟩ := hmove.wrote hk
      obtain ⟨item', hitem', -⟩ := hledger.bound _ k hbound
      have hlease := h.lease item.msg.channel
      rw [hold] at hlease
      have huser := user_of_wrote hmove (frameOf_fst _) hlease hk hn
      rw [hsame k (hledger.numbers k item' hitem')]
      exact getElem?_of_frameOf hn (hfront hp hn) huser.symm
  · rw [hasked]
    exact h.asked
  · intro f hf happroves
    refine h.answered f ?_ happroves
    rw [Trail.answered, hanswered]
    rcases List.mem_append.mp hf with hf | hf
    · obtain ⟨popped, hpopped⟩ := hmove.pending_eq
      rw [hpopped, Gcdbroker.bridgeOf_append, List.map_append]
      exact List.mem_append_left _ (List.mem_append_right _ hf)
    · exact List.mem_append_right _ hf
  · intro n session hn happroved
    exact (hleases session.channel).opened_subset (h.approved n session hn happroved)
  · intro msg hmsg happroves
    rcases returning_stepGcd hmsg happroves with ⟨m, hm, hm', heq⟩ | ⟨k, item, hk, rfl⟩
    · obtain ⟨hdrawn, x, hx, hmem⟩ := h.returning m hm hm'
      obtain rfl : msg = m := by
        rcases heq with heq | heq
        · exact heq
        · rw [heq, trim_of_drawn_tail hdrawn]
      exact ⟨hdrawn, x, (hleases msg.channel).opened_subset hx, hmem⟩
    · obtain ⟨hdrawn, hmem⟩ := hopening k item hk
      refine ⟨hdrawn, user' k, ?_, hmem⟩
      exact List.mem_map_of_mem (mem_opens.mpr ⟨item, List.mem_append_right _ hk, rfl⟩)

end

-- ════════════════════════════════════════════════════════════════════════
-- Whole runs
-- ════════════════════════════════════════════════════════════════════════

/-- The request ids that the readers register in a run. -/
def registered (ids : ℕ → ℕ → Bytes) (es : List Event) : List (ℕ × Bytes) :=
  Gmlbroker.registrations ids (gmlEvents ids es)

section

variable {ids : ℕ → ℕ → Bytes} {es : List Event} {e : Event}

theorem gmlEvents_snoc (ids : ℕ → ℕ → Bytes) (es : List Event) (e : Event) :
    gmlEvents ids (es ++ [e]) = gmlEvents ids es ++ (((machine ids).run es).gmlEvent e).toList := by
  rw [gmlEvents, Machine.collect_snoc]
  rfl

theorem gcdEvents_snoc (ids : ℕ → ℕ → Bytes) (es : List Event) (e : Event) :
    gcdEvents ids (es ++ [e]) = gcdEvents ids es ++ (((machine ids).run es).gcdEvent e).toList := by
  rw [gcdEvents, Machine.collect_snoc]
  rfl

theorem registered_subset (ids : ℕ → ℕ → Bytes) (es : List Event) (e : Event) :
    registered ids es ⊆ registered ids (es ++ [e]) := by
  rw [registered, registered, gmlEvents_snoc, Gmlbroker.registrations, Gmlbroker.registrations,
    Machine.collect_append_toList]
  exact List.subset_append_left _ _

theorem tenanted_init : Tenanted {} {} [] [] (fun _ => 0) [] := by
  have hlease : ∀ c, (({} : Trail).lease ({} : Diode).gcd [] (fun _ => 0) c) = {} := by
    intro c
    simp [Trail.lease, Trail.answered, Trail.asked, letters, linkFrames, opens, Gcdbroker.router,
      Gcdbroker.SendHandler.held, Gcdbroker.bound, Gcdbroker.lookup, Gcdbroker.bridgeOf]
  have hknown : ∀ c, (({} : Trail).lease ({} : Diode).gcd [] (fun _ => 0) c).known = [] := by
    intro c
    rw [hlease]
    rfl
  refine ⟨rfl, rfl, rfl, rfl, by simp, by simp, fun c => hlease c ▸ Lease.wf_init, ?_, ?_, ?_, ?_, ?_, ?_⟩
  · intro c n hn
    cases hn
  · intro c m hm
    rw [hknown] at hm
    cases hm
  · intro f hf
    cases hf
  · intro f hf
    cases hf
  · intro n session hn
    cases hn
  · intro msg hmsg
    cases hmsg

/-- What gcdbroker has done in a run of the system, and what it does next. -/
theorem move_gcd (ids : ℕ → ℕ → Bytes) (es : List Event) (e : Gcdbroker.Event) :
    Ledger (Gcdbroker.delivered (gcdEvents ids es)) (Gcdbroker.routed (gcdEvents ids es))
      ((machine ids).run es).gcd.router ∧
    (∀ item ∈ ((machine ids).run es).gcd.ackOf e, IsAck item) ∧
    Move (((machine ids).run es).gcd.refuses e = true) ((machine ids).run es).gcd.router
      (((machine ids).run es).gcd.step e).1.router
      (Gcdbroker.additions (Gcdbroker.delivered (gcdEvents ids es)) (Gcdbroker.arrival e)
        (((machine ids).run es).gcd.ackOf e))
      (Gcdbroker.routes (((machine ids).run es).gcd.step e).2) := by
  have hledger := Gcdbroker.ledger_run (gcdEvents ids es)
  have hmove := Gcdbroker.move_run (gcdEvents ids es) e
  have hacking := Gcdbroker.acking_run (gcdEvents ids es)
  rw [Machine.run_snoc] at hmove
  rw [← gcd_run] at hledger hmove hacking
  exact ⟨hledger, fun item hitem => hacking.ackOf hitem, hmove⟩

/-- What gcdbroker receives and does in a step of the system. -/
theorem tenanted_gcd {user : ℕ → ℕ} {reg : List (ℕ × Bytes)} {e : Gcdbroker.Event}
    (h : Tenanted ((machine ids).run es) (trail ids es) (Gcdbroker.delivered (gcdEvents ids es))
      (Gcdbroker.routed (gcdEvents ids es)) user reg)
    (happlies : ((machine ids).run es).applies (.gcd e) = true) :
    ∃ user', Tenanted (((machine ids).run es).stepGcd e) ((trail ids es).stepGcd e)
      (Gcdbroker.delivered (gcdEvents ids es ++ [e])) (Gcdbroker.routed (gcdEvents ids es ++ [e]))
      user' reg := by
  obtain ⟨hledger, hack, hmove⟩ := move_gcd ids es e
  rw [Gcdbroker.delivered_snoc, Gcdbroker.routed_snoc, ← gcd_run]
  exact h.stepGcd hledger happlies hack hmove

theorem run_snoc (ids : ℕ → ℕ → Bytes) (es : List Event) (e : Event) :
    (machine ids).run (es ++ [e]) = (step ids ((machine ids).run es) e).1 :=
  Machine.run_snoc ..

theorem trail_snoc (ids : ℕ → ℕ → Bytes) (es : List Event) (e : Event) :
    trail ids (es ++ [e]) = (trail ids es).step ((machine ids).run es) e :=
  Machine.observe_snoc ..

/-- What a step that is possible does to a run. -/
theorem run_gml {e : Gmlbroker.Event} (happlies : ((machine ids).run es).applies (.gml e) = true) :
    (machine ids).run (es ++ [.gml e]) = ((machine ids).run es).stepGml ids e ∧
      trail ids (es ++ [.gml e]) = (trail ids es).stepGml ((machine ids).run es).gml e ∧
      gcdEvents ids (es ++ [.gml e]) = gcdEvents ids es := by
  rw [run_snoc, trail_snoc, gcdEvents_snoc]
  simp only [step, Trail.step, gcdEvent, if_pos happlies, Option.toList_none, List.append_nil,
    and_self]

@[inherit_doc run_gml]
theorem run_guard {e : Guard.Event} (happlies : ((machine ids).run es).applies (.guard e) = true) :
    (machine ids).run (es ++ [.guard e]) = ((machine ids).run es).stepGuard e ∧
      trail ids (es ++ [.guard e]) = (trail ids es).stepGuard ((machine ids).run es).guard e ∧
      gcdEvents ids (es ++ [.guard e]) = gcdEvents ids es := by
  rw [run_snoc, trail_snoc, gcdEvents_snoc]
  simp only [step, Trail.step, gcdEvent, if_pos happlies, Option.toList_none, List.append_nil,
    and_self]

@[inherit_doc run_gml]
theorem run_gcd {e : Gcdbroker.Event} (happlies : ((machine ids).run es).applies (.gcd e) = true) :
    (machine ids).run (es ++ [.gcd e]) = ((machine ids).run es).stepGcd e ∧
      trail ids (es ++ [.gcd e]) = (trail ids es).stepGcd e ∧
      gcdEvents ids (es ++ [.gcd e]) = gcdEvents ids es ++ [e] := by
  rw [run_snoc, trail_snoc, gcdEvents_snoc]
  simp only [step, Trail.step, gcdEvent, if_pos happlies, Option.toList_some, and_self]

/-- A step that is not possible does nothing. -/
theorem run_idle (happlies : ((machine ids).run es).applies e = false) :
    (machine ids).run (es ++ [e]) = (machine ids).run es ∧ trail ids (es ++ [e]) = trail ids es ∧
      gcdEvents ids (es ++ [e]) = gcdEvents ids es := by
  rw [run_snoc, trail_snoc, gcdEvents_snoc]
  simp only [step, Trail.step, gcdEvent, happlies, Bool.false_eq_true, if_false,
    Option.toList_none, List.append_nil, and_self]

/-- The messages and the connections of a run belong to the sessions that they should. -/
def TenantedRun (ids : ℕ → ℕ → Bytes) (es : List Event) (user : ℕ → ℕ) : Prop :=
  Tenanted ((machine ids).run es) (trail ids es) (Gcdbroker.delivered (gcdEvents ids es))
    (Gcdbroker.routed (gcdEvents ids es)) user (registered ids es)

/-- What the steps preserve of a run and the sessions of its connections. A step of gcdbroker may
add a connection. -/
theorem tenanted_rule {P : List Event → (ℕ → ℕ) → Prop} (h₀ : P [] fun _ => 0)
    (hgml : ∀ es e user, ((machine ids).run es).applies (.gml e) = true → TenantedRun ids es user →
      P es user → P (es ++ [.gml e]) user)
    (hguard : ∀ es e user, ((machine ids).run es).applies (.guard e) = true → TenantedRun ids es user →
      P es user → P (es ++ [.guard e]) user)
    (hgcd : ∀ es e user user', ((machine ids).run es).applies (.gcd e) = true → TenantedRun ids es user →
      TenantedRun ids (es ++ [.gcd e]) user' → P es user → P (es ++ [.gcd e]) user')
    (hidle : ∀ es e user, ((machine ids).run es).applies e = false → P es user → P (es ++ [e]) user)
    {es : List Event} (hdistinct : Distinct (registered ids es)) :
    ∃ user, TenantedRun ids es user ∧ P es user := by
  induction es using List.reverseRecOn with
  | nil => exact ⟨fun _ => 0, tenanted_init, h₀⟩
  | append_singleton es e ih =>
    have hsub := registered_subset ids es e
    have hbefore : Distinct (registered ids es) :=
      fun n m id hn hm => hdistinct n m id (hsub hn) (hsub hm)
    obtain ⟨user, h, hP⟩ := ih hbefore
    have hs := honest_run ids es
    cases happlies : ((machine ids).run es).applies e with
    | false =>
      obtain ⟨hrun, htrail, hevents⟩ := run_idle happlies
      refine ⟨user, ?_, hidle es e user happlies hP⟩
      rw [TenantedRun, hrun, htrail, hevents]
      exact Tenanted.mono h hsub
    | true =>
      cases e with
      | gml e =>
        obtain ⟨hrun, htrail, hevents⟩ := run_gml happlies
        have hspeaks := Gmlbroker.speaks_run ids (gmlEvents ids es)
        have hsourced := Gmlbroker.entries_run ids (gmlEvents ids es)
        rw [← gml_run] at hspeaks hsourced
        refine ⟨user, ?_, hgml es e user happlies h hP⟩
        rw [TenantedRun, hrun, htrail, hevents]
        exact Tenanted.stepGml h hs hspeaks hsourced hbefore ids happlies hsub
      | guard e =>
        obtain ⟨hrun, htrail, hevents⟩ := run_guard happlies
        refine ⟨user, ?_, hguard es e user happlies h hP⟩
        rw [TenantedRun, hrun, htrail, hevents]
        exact (Tenanted.stepGuard h hs happlies).mono hsub
      | gcd e =>
        obtain ⟨hrun, htrail, hevents⟩ := run_gcd happlies
        obtain ⟨user', h'⟩ := tenanted_gcd h happlies
        have hnext : TenantedRun ids (es ++ [.gcd e]) user' := by
          rw [TenantedRun, hrun, htrail, hevents]
          exact h'.mono hsub
        exact ⟨user', hnext, hgcd es e user user' happlies h hnext hP⟩

/-- The session of a connection has the channel of the connection, and has sent its request. -/
theorem TenantedRun.session_of_opened (h : TenantedRun ids es user) {k : ℕ} {item : Gcdbroker.Item}
    (hk : .opened k item ∈ Gcdbroker.routed (gcdEvents ids es)) :
    ∃ session, ((machine ids).run es).gml.sessions (user k) = some session ∧
      session.channel = item.msg.channel ∧ session.Spent :=
  h.spent item.msg.channel (user k) (List.mem_append_left _
    (List.mem_map_of_mem (mem_opens.mpr ⟨item, hk, rfl⟩)))

/-- No two connections belong to the same session: it has one channel, and asks for it once. -/
theorem TenantedRun.user_inj (h : TenantedRun ids es user) {k k' : ℕ} {item item' : Gcdbroker.Item}
    (hk : .opened k item ∈ Gcdbroker.routed (gcdEvents ids es))
    (hk' : .opened k' item' ∈ Gcdbroker.routed (gcdEvents ids es)) (heq : user k = user k') : k = k' := by
  obtain ⟨session, hn, hc, -⟩ := h.session_of_opened hk
  obtain ⟨session', hn', hc', -⟩ := h.session_of_opened hk'
  rw [← heq] at hn'
  cases hn.symm.trans hn'
  have hchannel : item'.msg.channel = item.msg.channel := hc'.symm.trans hc
  have hnodup := (h.lease item.msg.channel).ascending.imp fun hlt => hlt.ne
  exact List.inj_on_of_nodup_map hnodup (mem_opens.mpr ⟨item, hk, rfl⟩)
    (mem_opens.mpr ⟨item', hk', hchannel⟩) heq

theorem tenanted_run (ids : ℕ → ℕ → Bytes) {es : List Event} (hdistinct : Distinct (registered ids es)) :
    ∃ user, TenantedRun ids es user := by
  obtain ⟨user, h, -⟩ := tenanted_rule (P := fun _ _ => True) trivial (fun _ _ _ _ _ _ => trivial)
    (fun _ _ _ _ _ _ => trivial) (fun _ _ _ _ _ _ _ _ => trivial) (fun _ _ _ _ _ => trivial) hdistinct
  exact ⟨user, h⟩

end

/-- In every run in which no two sessions register the same request id, everything that
gcdbroker writes from the bridge to a connection has been queued by the reader of one session,
whose request has opened the connection. No two connections belong to the same session. -/
theorem one_user (ids : ℕ → ℕ → Bytes) (es : List Event) (hdistinct : Distinct (registered ids es)) :
    ∃ user : ℕ → ℕ,
      (∀ k item n, .insert k item ∈ Gcdbroker.machine.emitted (gcdEvents ids es) →
        item.origin = .bridge n → (trail ids es).authors[n]? = some (user k)) ∧
      (∀ k item data n, .write k item data ∈ Gcdbroker.machine.emitted (gcdEvents ids es) →
        item.origin = .bridge n → (trail ids es).authors[n]? = some (user k)) ∧
      ∀ k k' item item', .insert k item ∈ Gcdbroker.machine.emitted (gcdEvents ids es) →
        .insert k' item' ∈ Gcdbroker.machine.emitted (gcdEvents ids es) → user k = user k' → k = k' := by
  obtain ⟨user, h⟩ := tenanted_run ids hdistinct
  refine ⟨user, ?_, ?_, ?_⟩
  · intro k item n hk hn
    exact h.opened k item n (ForwardPath.mem_routed_insert.mpr hk) hn
  · intro k item data n hk hn
    exact h.wrote k item data n (List.mem_filterMap.mpr ⟨_, hk, rfl⟩) hn
  · intro k k' item item' hk hk'
    exact h.user_inj (ForwardPath.mem_routed_insert.mpr hk) (ForwardPath.mem_routed_insert.mpr hk')

/-- The request of the second session. -/
def secondRequest : BridgeMessage := { channel := 1, action := .createChannel, payload := firstId }

/-- The handshake of the second session. -/
def secondHandshake : BridgeMessage :=
  { channel := 1, action := .none, payload := ascii "7.connect,2.vm;" }

/-- The second session asks, is approved and sends its handshake. -/
def servedRun : List Diode.Event :=
  [.gml .accept, .gml .register, .gml .register, .gml .accept, .gml .register, .gml .register,
    .gml (.wake 1 (.read (ascii "7.connect,2.vm;") firstId)), .gml (.perform 1), .gml (.perform 1),
    .gml (.perform 1), .gml .transmit, .guard (.poll []),
    .guard (.datagram (Multiplexer.serialize secondRequest)),
    .gcd (.datagram (Multiplexer.serialize secondRequest)),
    .gcd (.datagram (Multiplexer.serialize (approvalOf secondRequest))), .gcd .handle, .gcd .handle,
    .gcd .handle, .gcd (.dial (some 5)), .gcd .handle, .gcd .handle, .gcd .transmit,
    .gml (.datagram (Multiplexer.serialize (approvalOf secondRequest))), .gml .handle, .gml .handle,
    .gml (.wake 1 .timeout), .gml (.perform 1), .gml .transmit, .guard (.poll []),
    .guard (.datagram (Multiplexer.serialize secondHandshake)),
    .gcd (.datagram (Multiplexer.serialize secondHandshake)), .gcd .handle, .gcd .handle,
    .gcd (.send 15)]

/-- One session has the request id. -/
theorem distinct_servedRun : Distinct (registered (fun _ _ => []) servedRun) := by
  have hregistered : registered (fun _ _ => []) servedRun = [(1, firstId)] := by decide +kernel
  rw [hregistered]
  intro n m id hn hm
  rw [(Prod.mk.inj (List.mem_singleton.mp hn)).1, (Prod.mk.inj (List.mem_singleton.mp hm)).1]

/-- The handshake of the second session is written to the connection of its request. -/
theorem one_user_servedRun :
    .write 0 ⟨.bridge 2, secondHandshake⟩ secondHandshake.payload ∈
        Gcdbroker.machine.emitted (gcdEvents (fun _ _ => []) servedRun) ∧
      ∃ user : ℕ → ℕ, user 0 = 1 ∧ (trail (fun _ _ => []) servedRun).authors[2]? = some (user 0) := by
  have hwrite : .write 0 ⟨.bridge 2, secondHandshake⟩ secondHandshake.payload ∈
      Gcdbroker.machine.emitted (gcdEvents (fun _ _ => []) servedRun) := by decide +kernel
  have hinsert : .insert 0 ⟨.bridge 1, approvalOf secondRequest⟩ ∈
      Gcdbroker.machine.emitted (gcdEvents (fun _ _ => []) servedRun) := by decide +kernel
  have hauthors : (trail (fun _ _ => []) servedRun).authors = [1, 1, 1] := by decide +kernel
  obtain ⟨user, hinserted, hwritten, -⟩ := one_user (fun _ _ => []) servedRun distinct_servedRun
  have huser := hinserted 0 _ 1 hinsert rfl
  rw [hauthors] at huser
  exact ⟨hwrite, user, (Option.some.inj huser).symm, hwritten 0 _ _ 2 hwrite rfl⟩

end Diode

end GuacamoleDiode
