import GuacamoleDiode.Gmlbroker.Requests

/-!
# Who announces a SHUTDOWN, and why

Only the reader of a session announces that its channel is closed, once, when it leaves its
loop. It does so for reasons of its own, or at the wish of a denial. The SHUTDOWN of the peer
asks the reader to leave without a word, and the last request counts.

## Main definitions

- `announcer`: the session whose reader queues a SHUTDOWN in a step
- `lastRequest`: what the last teardown request of a session was made for

## Main results

- `announcers_nodup`: no session announces twice
- `cause_of_announcement`: no SHUTDOWN is announced because of a SHUTDOWN
-/

namespace GuacamoleDiode

open Wire

namespace ReadHandler

/-- The effect queues a SHUTDOWN. -/
def Effect.announces : Effect → Bool
  | .enqueue msg => msg.isShutdown
  | _ => false

/-- How many SHUTDOWNs are still to be queued. -/
def announcements (effects : List Effect) : ℕ := effects.countP Effect.announces

section

variable {channel : UInt16} {effects : List Effect}

theorem announcements_of_plain (h : ∀ e ∈ effects, e.Plain channel) : announcements effects = 0 := by
  rw [announcements, List.countP_eq_zero]
  intro e he hannounces
  have hplain := h e he
  cases e with
  | enqueue msg =>
    have haction : msg.action = .none := hplain.2
    simp [Effect.announces, BridgeMessage.isShutdown, haction] at hannounces
  | _ => cases hannounces

theorem announcements_append (a b : List Effect) :
    announcements (a ++ b) = announcements a + announcements b :=
  List.countP_append

theorem announcements_farewell (announce : Bool) :
    announcements (farewell channel announce) = if announce then 1 else 0 := by
  cases announce <;> rfl

end

end ReadHandler

namespace Gmlbroker

open ReadHandler (announcements announcements_append announcements_farewell announcements_of_plain)

/-- The session whose reader queues a SHUTDOWN in a step. -/
def announcer (s : Gmlbroker) (e : Event) : Option ℕ :=
  match e with
  | .perform n => if (s.queued e).any BridgeMessage.isShutdown then some n else none
  | _ => none

/-- A reader has a SHUTDOWN to queue only once it has left its loop, and one at most. -/
def Session.Once (session : Session) : Prop :=
  announcements session.pending ≤ 1 ∧
    (session.reader.closed = false → announcements session.pending = 0)

/-- A reader that has left its loop, and has nothing left to announce. -/
def Session.Silent (session : Session) : Prop :=
  session.reader.closed = true ∧ announcements session.pending = 0

section

variable {ids : ℕ → ℕ → Bytes} {s : Gmlbroker} {n : ℕ} {session session' : Session} {e : Event}

/-- A turn behind the loop does nothing. -/
theorem turn_of_closed (ids : ℕ → ℕ → Bytes) (n : ℕ) (h : session.reader.closed = true) (wake : Wake) :
    (turn ids n session wake).reader = session.reader ∧ (turn ids n session wake).pending = [] := by
  simp only [turn, ReadHandler.step, h, if_true, and_self]

theorem once_turn (wake : Wake) : (turn ids n session wake).Once := by
  cases hclosed : session.reader.closed with
  | true =>
    rw [Session.Once, (turn_of_closed ids n hclosed wake).2]
    exact ⟨Nat.zero_le 1, fun _ => rfl⟩
  | false =>
    have hcourse := course_of_turn ids n hclosed wake
    rw [Session.Once]
    generalize hreader : (turn ids n session wake).reader = reader,
      hpending : (turn ids n session wake).pending = pending at hcourse ⊢
    cases hcourse with
    | plain hplain =>
      rw [announcements_of_plain hplain]
      exact ⟨Nat.zero_le 1, fun _ => rfl⟩
    | request hplain =>
      rw [announcements_append, announcements_of_plain hplain]
      exact ⟨Nat.zero_le 1, fun _ => rfl⟩
    | farewell hplain announce hleft =>
      rw [announcements_append, announcements_of_plain hplain, announcements_farewell]
      refine ⟨?_, fun h => ?_⟩
      · split_ifs <;> omega
      · rw [hleft] at h
        cases h

theorem announcements_tail {effect : ReadHandler.Effect} {pending : List ReadHandler.Effect} :
    announcements pending ≤ announcements (effect :: pending) :=
  (List.sublist_cons_self effect pending).countP_le

theorem Session.Once.evolve (h : session.Once) (hevolves : Evolves ids s e n session session') :
    session'.Once := by
  cases hevolves with
  | turned wake => exact once_turn wake
  | performed effect pending _ hpending =>
    obtain ⟨hone, hnone⟩ := h
    rw [hpending] at hone hnone
    refine ⟨announcements_tail.trans hone, fun hclosed => ?_⟩
    have hle : announcements pending ≤ 0 := announcements_tail.trans (hnone hclosed).le
    exact Nat.le_zero.mp hle
  | _ => exact h

theorem Session.Silent.evolve (h : session.Silent) (hevolves : Evolves ids s e n session session') :
    session'.Silent := by
  obtain ⟨hclosed, hnone⟩ := h
  cases hevolves with
  | turned wake =>
    obtain ⟨hreader, hpending⟩ := turn_of_closed ids n hclosed wake
    rw [Session.Silent, hreader, hpending]
    exact ⟨hclosed, rfl⟩
  | performed effect pending _ hpending =>
    rw [hpending] at hnone
    have hle : announcements pending ≤ 0 := announcements_tail.trans hnone.le
    exact ⟨hclosed, Nat.le_zero.mp hle⟩
  | _ => exact ⟨hclosed, hnone⟩

/-- What a poll reports of a teardown request is what the mailbox holds. -/
theorem drained_of_poll {mailbox : Mailbox} {wake : Wake} {chunks : List Bytes} {failed announce : Bool}
    (h : (poll mailbox wake).1 = .drain chunks failed (some announce)) :
    mailbox.teardown = true ∧ mailbox.announce = announce := by
  cases wake with
  | drain fails =>
    simp only [poll] at h
    cases hteardown : mailbox.teardown with
    | false =>
      rw [hteardown] at h
      split at h <;> simp at h
    | true =>
      rw [hteardown] at h
      refine ⟨rfl, ?_⟩
      split at h <;> simp_all
  | _ => cases h

theorem exists_of_announcer (h : s.announcer e = some n) :
    ∃ session msg pending, e = .perform n ∧ s.sessions n = some session ∧
      session.pending = .enqueue msg :: pending ∧ msg.isShutdown = true := by
  cases e with
  | perform m =>
    simp only [announcer] at h
    split_ifs at h with hany
    cases h
    obtain ⟨msg, hqueued, hshutdown⟩ := (Option.any_eq_true _ _).mp hany
    obtain ⟨m, session, pending, hevent, hn, hpending⟩ := exists_enqueue_of_queued hqueued
    cases hevent
    exact ⟨session, msg, pending, rfl, hn, hpending, hshutdown⟩
  | _ => cases h

end

-- ════════════════════════════════════════════════════════════════════════
-- At most once
-- ════════════════════════════════════════════════════════════════════════

/-- The sessions that have announced a SHUTDOWN, in order. -/
def announcers (ids : ℕ → ℕ → Bytes) (es : List Event) : List ℕ :=
  (machine ids).collect (fun s e => (s.announcer e).toList) es

/-- The messages that the readers have queued for the bridge. -/
def queuedMessages (ids : ℕ → ℕ → Bytes) (es : List Event) : List BridgeMessage :=
  (machine ids).collect (fun s e => (s.queued e).toList) es

/-- Who has announced a SHUTDOWN is silent from then on. -/
structure Quieted (s : Gmlbroker) (announcers : List ℕ) : Prop where
  once : ∀ n session, s.sessions n = some session → session.Once
  nodup : announcers.Nodup
  silent : ∀ n ∈ announcers, ∃ session, s.sessions n = some session ∧ session.Silent

theorem Quieted.step {s : Gmlbroker} {announcers : List ℕ} (h : Quieted s announcers)
    (ids : ℕ → ℕ → Bytes) (hwf : Wf s) (e : Event) :
    Quieted (s.step ids e).1 (announcers ++ (s.announcer e).toList) := by
  have honce : ∀ n session', (s.step ids e).1.sessions n = some session' → session'.Once := by
    intro n session' hn'
    cases hn : s.sessions n with
    | none =>
      obtain ⟨channel, rfl⟩ := sessions_of_new hn hn'
      exact ⟨Nat.zero_le 1, fun _ => rfl⟩
    | some session =>
      obtain ⟨session₁, hn₁, hevolves⟩ := evolves_step ids hwf hn e
      cases hn'.symm.trans hn₁
      exact (h.once n session hn).evolve hevolves
  have hsilent : ∀ n ∈ announcers, ∃ session, (s.step ids e).1.sessions n = some session ∧
      session.Silent := by
    intro n hmem
    obtain ⟨session, hn, hs⟩ := h.silent n hmem
    obtain ⟨session', hn', hevolves⟩ := evolves_step ids hwf hn e
    exact ⟨session', hn', hs.evolve hevolves⟩
  cases hann : s.announcer e with
  | none => exact ⟨honce, by simpa using h.nodup, by simpa using hsilent⟩
  | some n =>
    obtain ⟨session, msg, pending, rfl, hn, hpending, hshutdown⟩ := exists_of_announcer hann
    obtain ⟨hone, hnone⟩ := h.once n session hn
    have hcount : announcements session.pending = announcements pending + 1 := by
      have hannounces : (ReadHandler.Effect.enqueue msg).announces = true := hshutdown
      rw [hpending]
      exact List.countP_cons_of_pos hannounces
    have hnew : n ∉ announcers := by
      intro hmem
      obtain ⟨session₁, hn₁, -, hzero⟩ := h.silent n hmem
      cases hn.symm.trans hn₁
      omega
    refine ⟨honce, ?_, ?_⟩
    · rw [Option.toList_some, List.nodup_append]
      refine ⟨h.nodup, by simp, ?_⟩
      rintro m hm k hk rfl
      exact hnew (List.mem_singleton.mp hk ▸ hm)
    · intro m hm
      rcases List.mem_append.mp hm with hm | hm
      · exact hsilent m hm
      · obtain rfl : m = n := by simpa using hm
        refine ⟨{ session with pending }, ?_, ?_, ?_⟩
        · rw [step_perform ids hn hpending]
          exact Function.update_self ..
        · cases hclosed : session.reader.closed with
          | true => rfl
          | false => exact absurd (hnone hclosed) (by omega)
        · show announcements pending = 0
          omega

theorem quieted_run (ids : ℕ → ℕ → Bytes) (es : List Event) :
    Quieted ((machine ids).run es) (announcers ids es) := by
  refine Machine.invariant (M := machine ids) (P := fun es s => Quieted s (announcers ids es)) ?_
    (fun es e h => ?_) es
  · refine ⟨fun n session hn => ?_, by simp [announcers], fun n hmem => ?_⟩
    · cases hn
    · cases hmem
  · rw [announcers, Machine.collect_snoc]
    exact h.step ids (wf_run ids es) e

/-- No session announces a SHUTDOWN twice, and only accepted sessions do. -/
theorem announcers_nodup (ids : ℕ → ℕ → Bytes) (es : List Event) :
    (announcers ids es).Nodup ∧ ∀ n ∈ announcers ids es, n < ((machine ids).run es).accepted := by
  have hquieted := quieted_run ids es
  refine ⟨hquieted.nodup, fun n hmem => ?_⟩
  obtain ⟨session, hn, -⟩ := hquieted.silent n hmem
  exact (wf_run ids es).number n _ (holders_eq hn)

/-- Each SHUTDOWN among the queued messages has its announcer. -/
theorem length_announcers (ids : ℕ → ℕ → Bytes) (es : List Event) :
    (announcers ids es).length = shutdowns (queuedMessages ids es) := by
  induction es using List.reverseRecOn with
  | nil => rfl
  | append_singleton es e ih =>
    rw [announcers, queuedMessages, Machine.collect_snoc, Machine.collect_snoc, List.length_append,
      shutdowns_append]
    have hstep : (((machine ids).run es).announcer e).toList.length =
        shutdowns (((machine ids).run es).queued e).toList := by
      cases e with
      | perform n =>
        rw [announcer]
        cases ((machine ids).run es).queued (.perform n) with
        | none => rfl
        | some msg =>
          cases hshutdown : msg.isShutdown <;> simp [shutdowns, hshutdown]
      | _ => rfl
    exact congrArg₂ (· + ·) ih hstep

-- ════════════════════════════════════════════════════════════════════════
-- The cause
-- ════════════════════════════════════════════════════════════════════════

/-- The item for which a step requests the teardown of a session. -/
def requestOf (n : ℕ) (out : List Effect) : Option Item :=
  out.findSome? fun
    | .mailed m item (.requestTeardown _) => if m = n then some item else none
    | _ => none

/-- The item for which the teardown of a session was requested last. -/
def lastRequest (ids : ℕ → ℕ → Bytes) (n : ℕ) (es : List Event) : Option Item :=
  (machine ids).observe (fun last _ _ out => (requestOf n out).or last) none es

/-- A denial of the guard. -/
def Item.IsDenial (item : Item) : Prop :=
  item.msg.action = .approval ∧ verdict item.msg ≠ approvalApprove

/-- A teardown that is to be announced goes back to a denial. -/
structure Caused (s : Gmlbroker) (last : ℕ → Option Item) : Prop where
  matched : ∀ item, s.handler = .matched item → item.IsDenial
  holding : ∀ item n mails, s.handler = .holding item n mails →
    .requestTeardown true ∈ mails → item.IsDenial
  mailbox : ∀ n session, s.sessions n = some session → session.mailbox.teardown = true →
    session.mailbox.announce = true → ∃ item, last n = some item ∧ item.IsDenial

section

variable {ids : ℕ → ℕ → Bytes} {s : Gmlbroker} {n : ℕ} {session session' : Session} {e : Event}
  {item : Item} {last : ℕ → Option Item}

theorem exists_of_requestOf (h : requestOf n (s.step ids e).2 = some item) :
    e = .handle ∧ ∃ announce mails, s.handler = .holding item n (.requestTeardown announce :: mails) := by
  obtain ⟨effect, hmem, heffect⟩ := List.exists_of_findSome?_eq_some h
  cases effect with
  | mailed m item' mail =>
    cases mail with
    | post data => cases heffect
    | requestTeardown announce =>
      dsimp only at heffect
      split_ifs at heffect with hm
      cases heffect
      subst hm
      obtain ⟨rfl, mails, hhandler⟩ := mailed_step hmem
      refine ⟨rfl, announce, ?_⟩
      change _ ∈ s.handle.2 at hmem
      rw [handle, hhandler] at hmem
      cases mails with
      | nil => simp at hmem
      | cons mail mails =>
        simp only [List.mem_singleton, Effect.mailed.injEq, true_and] at hmem
        exact ⟨mails, hmem ▸ hhandler⟩
  | _ => cases heffect

/-- The handler brings a teardown request to the mailbox. -/
theorem step_holding {mail : Mail} {mails : List Mail}
    (hhandler : s.handler = .holding item n (mail :: mails)) :
    s.step ids .handle = ({ s with sessions := s.deliver n mail, handler := .holding item n mails },
      [.mailed n item mail]) := by
  show s.handle = _
  rw [handle, hhandler]

theorem handler_caused (h : Caused s last) :
    (∀ item, s.handle.1.handler = .matched item → item.IsDenial) ∧
    ∀ item n mails, s.handle.1.handler = .holding item n mails →
      .requestTeardown true ∈ mails → item.IsDenial := by
  unfold handle
  split
  · split
    · exact ⟨h.matched, h.holding⟩
    · exact ⟨nofun, nofun⟩
  · next item _ =>
    unfold dispatch
    split
    · dsimp only
      split
      · exact ⟨nofun, nofun⟩
      · refine ⟨nofun, fun item n mails heq hmem => ?_⟩
        cases heq
        simp at hmem
    · exact ⟨nofun, nofun⟩
    · next haction =>
      split
      · exact ⟨nofun, nofun⟩
      · split_ifs with hverdict
        · exact ⟨nofun, nofun⟩
        · refine ⟨fun item heq => ?_, nofun⟩
          cases heq
          exact ⟨haction, hverdict⟩
    · split
      · exact ⟨nofun, nofun⟩
      · dsimp only
        split_ifs
        · exact ⟨nofun, nofun⟩
        · refine ⟨nofun, fun item n mails heq hmem => ?_⟩
          cases heq
          simp at hmem
  · next item hmatched =>
    split
    · exact ⟨nofun, nofun⟩
    · refine ⟨nofun, fun item' n mails heq _ => ?_⟩
      cases heq
      exact h.matched item hmatched
  · exact ⟨nofun, nofun⟩
  · next item m mail mails hholding =>
    refine ⟨nofun, fun item' n mails' heq hmem => ?_⟩
    cases heq
    exact h.holding item m _ hholding (List.mem_cons_of_mem _ hmem)

theorem Caused.step (h : Caused s last) (ids : ℕ → ℕ → Bytes) (hwf : Wf s) (e : Event) :
    Caused (s.step ids e).1 fun n => (requestOf n (s.step ids e).2).or (last n) := by
  have hhandler : (∀ item, (s.step ids e).1.handler = .matched item → item.IsDenial) ∧
      ∀ item n mails, (s.step ids e).1.handler = .holding item n mails →
        .requestTeardown true ∈ mails → item.IsDenial := by
    by_cases he : e = .handle
    · subst he
      exact handler_caused h
    · rw [(handler_step ids s he).1]
      exact ⟨h.matched, h.holding⟩
  refine ⟨hhandler.1, hhandler.2, fun n session' hn' hteardown hannounce => ?_⟩
  cases hrequest : requestOf n (s.step ids e).2 with
  | some item =>
    obtain ⟨rfl, announce, mails, hholding⟩ := exists_of_requestOf hrequest
    refine ⟨item, rfl, ?_⟩
    rw [step_holding hholding] at hn'
    change s.deliver n (.requestTeardown announce) n = some session' at hn'
    rw [deliver, Function.update_self] at hn'
    obtain ⟨session, -, rfl⟩ := Option.map_eq_some_iff.mp hn'
    have htrue : announce = true := hannounce
    subst htrue
    exact h.holding item n _ hholding List.mem_cons_self
  | none =>
    rw [Option.none_or]
    cases hn : s.sessions n with
    | none =>
      obtain ⟨channel, rfl⟩ := sessions_of_new hn hn'
      cases hteardown
    | some session =>
      obtain ⟨session₁, hn₁, hevolves⟩ := evolves_step ids hwf hn e
      cases hn'.symm.trans hn₁
      cases hevolves with
      | mailed item mail mails he hholding =>
        cases mail with
        | post data => exact h.mailbox n session hn hteardown hannounce
        | requestTeardown announce =>
          subst he
          rw [step_holding hholding] at hrequest
          simp [requestOf] at hrequest
      | turned wake =>
        have hmailbox : (turn ids n session wake).mailbox.teardown = session.mailbox.teardown ∧
            (turn ids n session wake).mailbox.announce = session.mailbox.announce := by
          cases wake <;> exact ⟨rfl, rfl⟩
        rw [hmailbox.1] at hteardown
        rw [hmailbox.2] at hannounce
        exact h.mailbox n session hn hteardown hannounce
      | _ => exact h.mailbox n _ hn hteardown hannounce

end

theorem caused_run (ids : ℕ → ℕ → Bytes) (es : List Event) :
    Caused ((machine ids).run es) fun n => lastRequest ids n es := by
  refine Machine.invariant (M := machine ids)
    (P := fun es s => Caused s fun n => lastRequest ids n es) ?_ (fun es e h => ?_) es
  · constructor
    · intro item h
      cases h
    · intro item n mails h
      cases h
    · intro n session hn
      cases hn
  · have hstep := h.step ids (wf_run ids es) e
    have hlast : (fun n => lastRequest ids n (es ++ [e])) = fun n =>
        (requestOf n (((machine ids).run es).step ids e).2).or (lastRequest ids n es) := by
      funext n
      exact Machine.observe_snoc _ _ _ es e
    rw [hlast]
    exact hstep

/-- A turn of the reader of a session decides to announce a SHUTDOWN. It does so of its own
accord, or the teardown that it finds in its mailbox was last requested for a denial. -/
def Decided (ids : ℕ → ℕ → Bytes) (n : ℕ) (es : List Event) : Prop :=
  ∃ pre wake post session, es = pre ++ .wake n wake :: post ∧
    ((machine ids).run pre).sessions n = some session ∧
    announcements (turn ids n session wake).pending ≠ 0 ∧
    ((∀ chunks failed announce,
      (poll session.mailbox wake).1 ≠ .drain chunks failed (some announce)) ∨
    ∃ item, lastRequest ids n pre = some item ∧ item.IsDenial)

theorem Decided.snoc {ids : ℕ → ℕ → Bytes} {n : ℕ} {es : List Event} (h : Decided ids n es) (e : Event) :
    Decided ids n (es ++ [e]) := by
  obtain ⟨pre, wake, post, session, rfl, hrest⟩ := h
  exact ⟨pre, wake, post ++ [e], session, by simp, hrest⟩

/-- The turn that decides is not one that has found the request of a SHUTDOWN. -/
theorem cause_of_turn (ids : ℕ → ℕ → Bytes) (es : List Event) {n : ℕ} {session : Session}
    (hn : ((machine ids).run es).sessions n = some session) {wake : Wake}
    (h : announcements (turn ids n session wake).pending ≠ 0) :
    (∀ chunks failed announce,
      (poll session.mailbox wake).1 ≠ .drain chunks failed (some announce)) ∨
    ∃ item, lastRequest ids n es = some item ∧ item.IsDenial := by
  by_cases hdrained : ∃ chunks failed announce,
      (poll session.mailbox wake).1 = .drain chunks failed (some announce)
  · right
    obtain ⟨chunks, failed, announce, hpoll⟩ := hdrained
    obtain ⟨hteardown, hannounce⟩ := drained_of_poll hpoll
    have hclosed : session.reader.closed = false := by
      cases hclosed : session.reader.closed with
      | false => rfl
      | true =>
        rw [(turn_of_closed ids n hclosed wake).2] at h
        exact absurd rfl h
    have hpending : (turn ids n session wake).pending =
        chunks.map .send ++ ReadHandler.farewell session.channel announce := by
      simp only [turn, ReadHandler.step, hclosed, hpoll, ReadHandler.turn, ReadHandler.leave,
        ReadHandler.farewell, Bool.false_eq_true, if_false]
    have hsent : ∀ e ∈ chunks.map ReadHandler.Effect.send, e.Plain session.channel := by
      intro e he
      obtain ⟨data, -, rfl⟩ := List.mem_map.mp he
      trivial
    rw [hpending, announcements_append, announcements_of_plain hsent, announcements_farewell] at h
    cases announce with
    | true => exact (caused_run ids es).mailbox n session hn hteardown hannounce
    | false => exact absurd rfl h
  · left
    intro chunks failed announce hpoll
    exact hdrained ⟨chunks, failed, announce, hpoll⟩

theorem decided_run (ids : ℕ → ℕ → Bytes) (es : List Event) (n : ℕ) :
    ∀ session, ((machine ids).run es).sessions n = some session →
      announcements session.pending ≠ 0 → Decided ids n es := by
  refine Machine.invariant (M := machine ids)
    (P := fun es s => ∀ session, s.sessions n = some session →
      announcements session.pending ≠ 0 → Decided ids n es) ?_ (fun es e h => ?_) es
  · intro session hn
    cases hn
  · intro session' hn' hpending
    change (((machine ids).run es).step ids e).1.sessions n = some session' at hn'
    cases hn : ((machine ids).run es).sessions n with
    | none =>
      obtain ⟨channel, rfl⟩ := sessions_of_new hn hn'
      exact absurd rfl hpending
    | some session =>
      obtain ⟨session₁, hn₁, hevolves⟩ := evolves_step ids (wf_run ids es) hn e
      cases hn'.symm.trans hn₁
      cases hevolves with
      | turned wake he =>
        subst he
        exact ⟨es, wake, [], session, rfl, hn, hpending, cause_of_turn ids es hn hpending⟩
      | performed effect pending _ heq =>
        have hle : announcements pending ≤ announcements session.pending := by
          rw [heq]
          exact announcements_tail
        exact (h session hn (by dsimp only at hpending; omega)).snoc e
      | _ => exact (h _ hn hpending).snoc e

/-- No SHUTDOWN is announced because of a SHUTDOWN. -/
theorem cause_of_announcement (ids : ℕ → ℕ → Bytes) (es : List Event) {e : Event} {n : ℕ}
    (h : ((machine ids).run es).announcer e = some n) : Decided ids n es := by
  obtain ⟨session, msg, pending, -, hn, hpending, hshutdown⟩ := exists_of_announcer h
  refine decided_run ids es n session hn ?_
  have hannounces : (ReadHandler.Effect.enqueue msg).announces = true := hshutdown
  rw [hpending, announcements, List.countP_cons_of_pos hannounces]
  exact Nat.succ_ne_zero _

end Gmlbroker

end GuacamoleDiode
