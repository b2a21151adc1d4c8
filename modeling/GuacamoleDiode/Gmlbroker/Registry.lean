import GuacamoleDiode.Gmlbroker.Broker
import GuacamoleDiode.Lib.Directory

/-!
# Sessions and their channels

The channel table, the approval registry and the mailboxes agree with the sessions in
every reachable state. A session holds its entries from the moment at which they are
registered until its own reader removes them, the channel last, so that two sessions never
share a channel.

## Main definitions

- `ReadHandler.Todo`: what a reader may have left to do of a turn
- `Session.Keeps`: the reader has not given up an entry yet
- `Wf`: the registries agree with the sessions
-/

namespace GuacamoleDiode

open Wire

namespace ReadHandler

/-- What a turn does that neither requests an approval nor gives up the channel. -/
def Effect.Plain (channel : UInt16) : Effect → Prop
  | .enqueue msg => msg.channel = channel ∧ msg.action = .none
  | .enqueueRecv msg => msg.channel = channel ∧ msg.action = .none
  | .send _ => True
  | _ => False

/-- The request for an approval. -/
def request (channel : UInt16) (id : Bytes) : List Effect :=
  [.setRequestId id, .enqueue { channel := channel, action := .createChannel, payload := id }]

/-- What the reader does once it has left its loop. -/
def farewell (channel : UInt16) (announce : Bool) : List Effect :=
  [.removeApproval, .removeMailbox, .removeChannel] ++
    (if announce then [.enqueue { channel := channel, action := .shutdownChannel }] else []) ++
    [.close]

/-- What a turn has to do to the rest of the system, and whether it leaves the loop. -/
inductive Shape (channel : UInt16) : Bool → List Effect → Prop where
  | plain {effects : List Effect} (h : ∀ e ∈ effects, e.Plain channel) : Shape channel false effects
  | request {effects : List Effect} (h : ∀ e ∈ effects, e.Plain channel) (id : Bytes) :
      Shape channel false (effects ++ request channel id)
  | farewell {effects : List Effect} (h : ∀ e ∈ effects, e.Plain channel) (announce : Bool) :
      Shape channel true (effects ++ farewell channel announce)

/-- What is left to do of a turn, and whether the loop has been left. -/
inductive Todo (channel : UInt16) : Bool → List Effect → Prop where
  | whole {closed : Bool} {effects : List Effect} (h : Shape channel closed effects) :
      Todo channel closed effects
  /-- the request has been registered -/
  | create (id : Bytes) : Todo channel false
      [.enqueue { channel := channel, action := .createChannel, payload := id }]
  /-- the first steps behind the loop are done -/
  | gone (announce : Bool) (done : ℕ) : Todo channel true ((farewell channel announce).drop done)

/-- What a turn has to do, and what becomes of the handshake and the loop. -/
inductive Course (channel : UInt16) (state : HandshakeState) (closed : Bool) (p : Poll) :
    ReadHandler × List Effect → Prop where
  | plain {r : ReadHandler × List Effect} (effects : ∀ e ∈ r.2, e.Plain channel)
      (closed_eq : r.1.closed = closed)
      (established : state = .established → r.1.forger.hsState = .established) :
      Course channel state closed p r
  /-- the handshake is completed -/
  | request {s' : ReadHandler} {effects : List Effect} (plain : ∀ e ∈ effects, e.Plain channel)
      (data id : Bytes) (read : p = .read data id) (before : state ≠ .established)
      (after : s'.forger.hsState = .established) (closed_eq : s'.closed = closed) :
      Course channel state closed p (s', effects ++ request channel id)
  /-- the loop is left -/
  | farewell {s' : ReadHandler} {effects : List Effect} (plain : ∀ e ∈ effects, e.Plain channel)
      (announce : Bool) (closed_eq : s'.closed = true)
      (drained : announce = false → ∃ chunks failed, p = .drain chunks failed (some false)) :
      Course channel state closed p (s', effects ++ farewell channel announce)

section

variable {ids : ℕ → Bytes} {channel : UInt16} {s : ReadHandler} {p : Poll}

theorem plain_replayHandshake (handshake : Bytes) :
    ∀ e ∈ replayHandshake channel handshake, e.Plain channel := by
  intro e he
  obtain ⟨payload, -, rfl⟩ := List.mem_map.mp he
  exact ⟨rfl, rfl⟩

theorem plain_maybeReplay : ∀ e ∈ (maybeReplay channel s).2, e.Plain channel := by
  unfold maybeReplay
  split_ifs
  · exact plain_replayHandshake _
  · simp

theorem plain_pipe (data : Bytes) : ∀ e ∈ (pipe channel data s).2, e.Plain channel := by
  intro e he
  simp only [pipe, List.mem_append] at he
  rcases he with he | he
  · split_ifs at he
    · obtain rfl := List.mem_singleton.mp he
      exact ⟨rfl, rfl⟩
    · simp at he
  · split_ifs at he
    · obtain rfl := List.mem_singleton.mp he
      exact ⟨rfl, rfl⟩
    · simp at he

theorem closed_maybeReplay : (maybeReplay channel s).1.closed = s.closed := by
  unfold maybeReplay
  split_ifs <;> rfl

theorem forger_maybeReplay : (maybeReplay channel s).1.forger = s.forger := by
  unfold maybeReplay
  split_ifs <;> rfl

theorem course_maybeReplay :
    Course channel s.forger.hsState s.closed p (maybeReplay channel s) := by
  refine .plain plain_maybeReplay closed_maybeReplay fun h => ?_
  rw [forger_maybeReplay]
  exact h

theorem course_established (data : Bytes) :
    Course channel s.forger.hsState s.closed p (established channel data s) := by
  unfold established
  dsimp only
  split_ifs
  · refine .plain (fun e he => ?_) closed_maybeReplay fun h => ?_
    · rcases List.mem_append.mp he with he | he
      · exact plain_maybeReplay e he
      · exact plain_pipe data e he
    · show (maybeReplay channel s).1.forger.hsState = .established
      rw [forger_maybeReplay]
      exact h
  · exact course_maybeReplay

theorem course_feedForger (h : s.forger.hsState ≠ .established) (data requestId : Bytes) :
    Course channel s.forger.hsState s.closed (.read data requestId)
      (feedForger ids channel data requestId s) := by
  have hreply : ∀ e ∈ (if (s.forger.feed ids data).1 ≠ [] then
      [Effect.send (s.forger.feed ids data).1] else []), e.Plain channel := by
    intro e he
    split_ifs at he
    · obtain rfl := List.mem_singleton.mp he
      trivial
    · simp at he
  simp only [feedForger]
  generalize (if (s.forger.feed ids data).1 ≠ [] then
    [Effect.send (s.forger.feed ids data).1] else []) = reply at hreply ⊢
  split_ifs with hinvalid hestablished
  · exact .farewell hreply true rfl (by simp)
  · exact .request hreply data requestId rfl h hestablished rfl
  · exact .plain hreply rfl fun hbefore => absurd hbefore h

theorem course_turn (p : Poll) :
    Course channel s.forger.hsState s.closed p (turn ids channel s p) := by
  have hleave : Course channel s.forger.hsState s.closed p
      ((leave channel true s).1, [] ++ farewell channel true) :=
    .farewell (by simp) true rfl (by simp)
  cases p with
  | heartbeat ms =>
    simp only [turn]
    split_ifs
    · exact .plain (by simp [Effect.Plain]) rfl id
    · exact .plain (by simp) rfl id
  | timeout => exact course_maybeReplay
  | read data requestId =>
    simp only [turn]
    split_ifs with hnil hestablished
    · exact hleave
    · exact course_established (s := { s with socket := s.socket ++ data }) data
    · exact course_feedForger (s := { s with socket := s.socket ++ data }) hestablished data requestId
  | drain chunks failed teardown =>
    have hsent : ∀ e ∈ chunks.map Effect.send, e.Plain channel := by
      intro e he
      obtain ⟨data, -, rfl⟩ := List.mem_map.mp he
      trivial
    simp only [turn]
    split
    · next announce =>
      refine .farewell hsent announce rfl ?_
      rintro rfl
      exact ⟨chunks, failed, rfl⟩
    · split_ifs
      · exact .farewell hsent true rfl (by simp)
      · exact .plain hsent rfl id
  | stop => exact hleave

/-- What a turn of the loop has to do. -/
theorem shape_turn (h : s.closed = false) (p : Poll) :
    Shape channel (turn ids channel s p).1.closed (turn ids channel s p).2 := by
  generalize hr : turn ids channel s p = r
  have hcourse : Course channel s.forger.hsState s.closed p r := hr ▸ course_turn p
  cases hcourse with
  | plain hplain hclosed =>
    rw [hclosed, h]
    exact .plain hplain
  | request hplain data id _ _ _ hclosed =>
    rw [hclosed, h]
    exact .request hplain id
  | farewell hplain announce hclosed =>
    rw [hclosed]
    exact .farewell hplain announce

/-- One thing is done. -/
theorem Todo.tail {closed : Bool} {effect : Effect} {effects : List Effect}
    (h : Todo channel closed (effect :: effects)) : Todo channel closed effects := by
  generalize heq : effect :: effects = all at h
  cases h with
  | whole hshape =>
    cases hshape with
    | plain hplain =>
      subst heq
      exact .whole (.plain fun e he => hplain e (List.mem_cons_of_mem _ he))
    | @request before hplain id =>
      cases before with
      | nil =>
        obtain ⟨-, rfl⟩ := List.cons.inj heq
        exact .create id
      | cons b before =>
        obtain ⟨-, rfl⟩ := List.cons.inj heq
        exact .whole (.request (fun e he => hplain e (List.mem_cons_of_mem _ he)) id)
    | @farewell before hplain announce =>
      cases before with
      | nil =>
        obtain ⟨-, rfl⟩ := List.cons.inj heq
        exact .gone announce 1
      | cons b before =>
        obtain ⟨-, rfl⟩ := List.cons.inj heq
        exact .whole (.farewell (fun e he => hplain e (List.mem_cons_of_mem _ he)) announce)
  | create id =>
    obtain ⟨-, rfl⟩ := List.cons.inj heq
    exact .whole (.plain (by simp))
  | gone announce done =>
    have htail : effects = (ReadHandler.farewell channel announce).drop (done + 1) := by
      rw [← List.tail_drop, ← heq]
      rfl
    rw [htail]
    exact .gone announce (done + 1)

/-- The entries are given up in order. -/
theorem mem_drop_farewell (announce : Bool) (done : ℕ) :
    (.removeApproval ∈ (farewell channel announce).drop done ↔ done = 0) ∧
      (.removeMailbox ∈ (farewell channel announce).drop done ↔ done ≤ 1) ∧
      (.removeChannel ∈ (farewell channel announce).drop done ↔ done ≤ 2) := by
  rcases done with _ | _ | _ | _ | _ | done <;> cases announce <;> simp [farewell]

/-- How far the reader has come shows in what it does next. -/
theorem done_of_head {announce : Bool} {done : ℕ} {effect : Effect} {effects : List Effect}
    (h : (farewell channel announce).drop done = effect :: effects) :
    (effect = .removeApproval → done = 0) ∧ (effect = .removeMailbox → done = 1) ∧
      (effect = .removeChannel → done = 2) := by
  refine ⟨?_, ?_, ?_⟩ <;> rintro rfl <;>
    rcases done with _ | _ | _ | _ | _ | done <;> cases announce <;> simp_all [farewell]

/-- Whoever leaves gives up everything. -/
theorem Shape.leaves {effects : List Effect} (h : Shape channel true effects) :
    .removeApproval ∈ effects ∧ .removeMailbox ∈ effects ∧ .removeChannel ∈ effects := by
  generalize hclosed : true = closed at h
  cases h with
  | farewell _ announce => simp [ReadHandler.farewell]
  | _ => cases hclosed

/-- Whoever still has to give up an entry has to give up the channel behind it. -/
theorem Todo.order {effects : List Effect} (h : Todo channel true effects) :
    (.removeApproval ∈ effects → .removeMailbox ∈ effects) ∧
      (.removeMailbox ∈ effects → .removeChannel ∈ effects) := by
  generalize hclosed : true = closed at h
  cases h with
  | whole hshape =>
    subst hclosed
    obtain ⟨-, hmailbox, hchannel⟩ := hshape.leaves
    exact ⟨fun _ => hmailbox, fun _ => hchannel⟩
  | create => cases hclosed
  | gone announce done =>
    obtain ⟨h₀, h₁, h₂⟩ := @mem_drop_farewell channel announce done
    rw [h₀, h₁, h₂]
    omega

/-- The steps behind the loop. -/
def Effect.Behind : Effect → Prop
  | .removeApproval | .removeMailbox | .removeChannel => True
  | _ => False

/-- An entry is given up when the loop has been left. -/
theorem Todo.removing {closed : Bool} {effect : Effect} {effects : List Effect}
    (h : Todo channel closed (effect :: effects)) (hbehind : effect.Behind) :
    closed = true ∧ ∃ announce done,
      effect :: effects = (ReadHandler.farewell channel announce).drop done ∧
      effects = (ReadHandler.farewell channel announce).drop (done + 1) := by
  have hplain : ¬effect.Plain channel := by
    intro hplain
    cases effect <;> first | exact hplain | exact hbehind
  generalize heq : effect :: effects = all at h
  cases h with
  | whole hshape =>
    cases hshape with
    | plain hall =>
      subst heq
      exact absurd (hall effect List.mem_cons_self) hplain
    | @request before hall id =>
      cases before with
      | nil =>
        obtain ⟨rfl, -⟩ := List.cons.inj heq
        exact hbehind.elim
      | cons b before =>
        obtain ⟨rfl, -⟩ := List.cons.inj heq
        exact absurd (hall effect List.mem_cons_self) hplain
    | @farewell before hall announce =>
      cases before with
      | nil => exact ⟨rfl, announce, 0, rfl, (List.cons.inj heq).2⟩
      | cons b before =>
        obtain ⟨rfl, -⟩ := List.cons.inj heq
        exact absurd (hall effect List.mem_cons_self) hplain
  | create id =>
    obtain ⟨rfl, -⟩ := List.cons.inj heq
    exact hbehind.elim
  | gone announce done =>
    refine ⟨rfl, announce, done, rfl, ?_⟩
    rw [← List.tail_drop, ← heq]
    rfl

end

end ReadHandler

namespace Gmlbroker

/-- What the registries have to know of a session. -/
structure Holder where
  channel : UInt16
  closed : Bool
  pending : List ReadHandler.Effect
  started : Bool

def Session.holder (session : Session) : Holder where
  channel := session.channel
  closed := session.reader.closed
  pending := session.pending
  started := session.started

/-- The reader has not given up an entry yet. -/
def Holder.Keeps (holder : Holder) (entry : ReadHandler.Effect) : Prop :=
  holder.closed = false ∨ entry ∈ holder.pending

/-- The accept thread has registered the session with the approvals. -/
def Holder.Created (holder : Holder) (acceptor : AcceptHandler) (n : ℕ) : Prop :=
  holder.started = true ∨ acceptor = .created n holder.channel

/-- The registries agree with the sessions. -/
structure Agree (table entries mailboxes : UInt16 → Option ℕ) (acceptor : AcceptHandler)
    (holders : ℕ → Option Holder) (accepted : ℕ) : Prop where
  todo : ∀ n h, holders n = some h → ReadHandler.Todo h.channel h.closed h.pending
  number : ∀ n h, holders n = some h → n < accepted
  bound : Directory.Lists table holders Holder.channel fun _ h => h.Keeps .removeChannel
  mailbox : Directory.Lists mailboxes holders Holder.channel fun _ h =>
    h.started = true ∧ h.Keeps .removeMailbox
  approval : Directory.Lists entries holders Holder.channel fun n h =>
    h.Created acceptor n ∧ h.Keeps .removeApproval
  /-- a session that has not started is in the hands of the accept thread -/
  waiting : ∀ n h, holders n = some h → h.started = false →
    h.closed = false ∧ h.pending = [] ∧
      (acceptor = .allocated n h.channel ∨ acceptor = .created n h.channel)
  registering : ∀ n c, acceptor = .allocated n c ∨ acceptor = .created n c →
    ∃ h, holders n = some h ∧ h.channel = c ∧ h.started = false

/-- What the registries have to know of the sessions. -/
def holders (s : Gmlbroker) : ℕ → Option Holder := Option.map Session.holder ∘ s.sessions

/-- The sessions of the approval registry. -/
def entries (s : Gmlbroker) : UInt16 → Option ℕ := Option.map Entry.session ∘ s.approvals

/-- The state is well formed. -/
def Wf (s : Gmlbroker) : Prop :=
  Agree s.table s.entries s.mailboxes s.acceptor s.holders s.accepted

section

variable {table entries mailboxes : UInt16 → Option ℕ} {acceptor : AcceptHandler}
  {holders : ℕ → Option Holder} {accepted n m : ℕ} {h h' : Holder} {c : UInt16}

theorem Agree.keeps_mailbox (ha : Agree table entries mailboxes acceptor holders accepted)
    (hn : holders n = some h) (hk : h.Keeps .removeApproval) : h.Keeps .removeMailbox := by
  rcases hk with hk | hk
  · exact .inl hk
  · cases hclosed : h.closed with
    | false => exact .inl hclosed
    | true => exact .inr ((hclosed ▸ ha.todo n h hn).order.1 hk)

theorem Agree.keeps_channel (ha : Agree table entries mailboxes acceptor holders accepted)
    (hn : holders n = some h) (hk : h.Keeps .removeMailbox) : h.Keeps .removeChannel := by
  rcases hk with hk | hk
  · exact .inl hk
  · cases hclosed : h.closed with
    | false => exact .inl hclosed
    | true => exact .inr ((hclosed ▸ ha.todo n h hn).order.2 hk)

/-- A channel is given to a new session. -/
theorem Agree.accept (ha : Agree table entries mailboxes .accepting holders accepted)
    (hfree : table c = none) :
    Agree (Function.update table c (some accepted)) entries mailboxes (.allocated accepted c)
      (Function.update holders accepted
        (some { channel := c, closed := false, pending := [], started := false })) (accepted + 1) := by
  have hnew : holders accepted = none := by
    rw [Option.eq_none_iff_forall_ne_some]
    intro h hh
    exact absurd (ha.number accepted h hh) (Nat.lt_irrefl _)
  have hstarted : ∀ n h, holders n = some h → h.started = true := by
    intro n h hh
    cases hs : h.started with
    | true => rfl
    | false => simpa using (ha.waiting n h hh hs).2.2
  refine ⟨?_, ?_, ?_, ?_, ?_, ?_, ?_⟩
  · intro n h hh
    obtain ⟨rfl, rfl⟩ | ⟨hn, hh⟩ := Table.of_update hh
    · exact .whole (.plain (by simp))
    · exact ha.todo n h hh
  · intro n h hh
    by_cases hn : n = accepted
    · omega
    · rw [Function.update_of_ne hn] at hh
      exact (ha.number n h hh).trans (Nat.lt_succ_self _)
  · refine ha.bound.add (i := accepted) (b := ⟨c, false, [], false⟩) (fun _ _ _ _ => Iff.rfl)
      (by simp [hnew]) (.inl rfl) fun j x hx hk hp => ?_
    have hbound := (ha.bound c j).mpr ⟨x, hx, hk, hp⟩
    cases hfree.symm.trans hbound
  · exact ha.mailbox.skip (fun _ _ _ _ => Iff.rfl) hnew (by simp)
  · refine ha.approval.skip (fun j x _ hx => ?_) hnew (by simp [Holder.Created])
    simp [Holder.Created, hstarted j x hx]
  · intro n h hh hs
    obtain ⟨rfl, rfl⟩ | ⟨hn, hh⟩ := Table.of_update hh
    · exact ⟨rfl, rfl, .inl rfl⟩
    · cases hs.symm.trans (hstarted n h hh)
  · rintro n c' (heq | heq)
    · cases heq
      exact ⟨_, Function.update_self .., rfl, rfl⟩
    · cases heq

/-- The entry of a new session in the approval registry. -/
theorem Agree.create (ha : Agree table entries mailboxes (.allocated n c) holders accepted) :
    Agree table (Function.update entries c (some n)) mailboxes (.created n c) holders accepted := by
  obtain ⟨h, hn, rfl, hs⟩ := ha.registering n c (.inl rfl)
  have hkeeps : h.Keeps .removeApproval := .inl (ha.waiting n h hn hs).1
  have hsame : Function.update holders n (some h) = holders := by
    rw [← hn, Function.update_eq_self]
  refine ⟨ha.todo, ha.number, ha.bound, ha.mailbox, ?_, ?_, ?_⟩
  · rw [← hsame]
    refine ha.approval.add (fun j x hj hx => ?_) (by simp [hn]) ⟨.inr rfl, hkeeps⟩
      fun j x hx hc hp => ?_
    · simp [Holder.Created, Ne.symm hj]
    · have hkeeps' := ha.keeps_channel hx (ha.keeps_mailbox hx hp.2)
      exact ha.bound.unique hx hn hc hkeeps' (ha.keeps_channel hn (ha.keeps_mailbox hn hkeeps))
  · intro m h' hm hs'
    obtain ⟨hclosed, hpending, hacc⟩ := ha.waiting m h' hm hs'
    refine ⟨hclosed, hpending, .inr ?_⟩
    simpa using hacc
  · rintro m c' (heq | heq)
    · cases heq
    · cases heq
      exact ⟨h, hn, rfl, hs⟩

/-- The mailbox of a new session, whose reader starts. -/
theorem Agree.start (ha : Agree table entries mailboxes (.created n c) holders accepted)
    (hn : holders n = some h) :
    Agree table entries (Function.update mailboxes c (some n)) .accepting
      (Function.update holders n (some { h with started := true })) accepted := by
  obtain ⟨h₀, hn₀, rfl, hs⟩ := ha.registering n c (.inr rfl)
  obtain rfl := Option.some.inj (hn.symm.trans hn₀)
  have hclosed := (ha.waiting n h hn hs).1
  have hothers : ∀ m h', m ≠ n → holders m = some h' → h'.started = true := by
    intro m h' hm hh'
    cases hs' : h'.started with
    | true => rfl
    | false => simpa [Ne.symm hm] using (ha.waiting m h' hh' hs').2.2
  refine ⟨?_, ?_, ?_, ?_, ?_, ?_, ?_⟩
  · intro m h' hh'
    obtain ⟨rfl, rfl⟩ | ⟨hm, hh'⟩ := Table.of_update hh'
    · exact ha.todo m h hn
    · exact ha.todo m h' hh'
  · intro m h' hh'
    by_cases hm : m = n
    · subst hm
      exact ha.number m h hn
    · rw [Function.update_of_ne hm] at hh'
      exact ha.number m h' hh'
  · exact ha.bound.keep (fun _ _ _ _ => Iff.rfl) hn rfl Iff.rfl
  · refine ha.mailbox.add (i := n) (b := { h with started := true }) (fun _ _ _ _ => Iff.rfl)
      (by simp [hn]) ⟨rfl, .inl hclosed⟩ fun j x hx hc hp => ?_
    exact ha.bound.unique hx hn hc (ha.keeps_channel hx hp.2) (.inl hclosed)
  · refine ha.approval.keep (fun j x hj hx => ?_) hn rfl ?_
    · simp [Holder.Created, hothers j x hj hx]
    · simp [Holder.Created, Holder.Keeps, hclosed]
  · intro m h' hh' hs'
    obtain ⟨rfl, rfl⟩ | ⟨hm, hh'⟩ := Table.of_update hh'
    · cases hs'
    · cases hs'.symm.trans (hothers m h' hm hh')
  · rintro m c' (heq | heq) <;> cases heq

/-- A session moves on, and the registries with it. -/
theorem Agree.replace (ha : Agree table entries mailboxes acceptor holders accepted)
    (hn : holders n = some h) (hstarted : h.started = true)
    (hsame : h'.channel = h.channel ∧ h'.started = h.started)
    (htodo : ReadHandler.Todo h'.channel h'.closed h'.pending)
    {table' entries' mailboxes' : UInt16 → Option ℕ}
    (hbound : Directory.Lists table' (Function.update holders n (some h')) Holder.channel
      fun _ h => h.Keeps .removeChannel)
    (hmailbox : Directory.Lists mailboxes' (Function.update holders n (some h')) Holder.channel
      fun _ h => h.started = true ∧ h.Keeps .removeMailbox)
    (happroval : Directory.Lists entries' (Function.update holders n (some h')) Holder.channel
      fun n h => h.Created acceptor n ∧ h.Keeps .removeApproval) :
    Agree table' entries' mailboxes' acceptor (Function.update holders n (some h')) accepted := by
  refine ⟨?_, ?_, hbound, hmailbox, happroval, ?_, ?_⟩
  · intro m x hx
    obtain ⟨-, rfl⟩ | ⟨-, hold⟩ := Table.of_update hx
    · exact htodo
    · exact ha.todo m x hold
  · intro m x hx
    obtain ⟨rfl, -⟩ | ⟨-, hold⟩ := Table.of_update hx
    · exact ha.number m h hn
    · exact ha.number m x hold
  · intro m x hx hs
    obtain ⟨-, rfl⟩ | ⟨-, hold⟩ := Table.of_update hx
    · cases hs.symm.trans (hsame.2.trans hstarted)
    · exact ha.waiting m x hold hs
  · intro m c hacc
    obtain ⟨x, hx, hc, hs⟩ := ha.registering m c hacc
    have hm : m ≠ n := by
      rintro rfl
      cases hn.symm.trans hx
      cases hs.symm.trans hstarted
    exact ⟨x, by rw [Function.update_of_ne hm]; exact hx, hc, hs⟩

/-- A session moves on without giving up an entry. -/
theorem Agree.advance (ha : Agree table entries mailboxes acceptor holders accepted)
    (hn : holders n = some h) (hstarted : h.started = true)
    (hsame : h'.channel = h.channel ∧ h'.started = h.started)
    (htodo : ReadHandler.Todo h'.channel h'.closed h'.pending)
    (hkeeps : ∀ entry : ReadHandler.Effect, entry.Behind → (h'.Keeps entry ↔ h.Keeps entry)) :
    Agree table entries mailboxes acceptor (Function.update holders n (some h')) accepted := by
  refine ha.replace hn hstarted hsame htodo ?_ ?_ ?_
  · exact ha.bound.keep (fun _ _ _ _ => Iff.rfl) hn hsame.1 (hkeeps .removeChannel trivial)
  · refine ha.mailbox.keep (fun _ _ _ _ => Iff.rfl) hn hsame.1 ?_
    rw [hsame.2, hkeeps .removeMailbox trivial]
  · refine ha.approval.keep (fun _ _ _ _ => Iff.rfl) hn hsame.1 ?_
    simp only [Holder.Created, hsame.1, hsame.2, hkeeps .removeApproval trivial]

/-- A session gives up an entry. -/
theorem Agree.remove {entry : ReadHandler.Effect} {rest : List ReadHandler.Effect}
    (ha : Agree table entries mailboxes acceptor holders accepted) (hn : holders n = some h)
    (hbehind : entry.Behind) (hpending : h.pending = entry :: rest) :
    Agree (if entry = .removeChannel then Function.update table h.channel none else table)
      (if entry = .removeApproval then Function.update entries h.channel none else entries)
      (if entry = .removeMailbox then Function.update mailboxes h.channel none else mailboxes)
      acceptor (Function.update holders n (some { h with pending := rest })) accepted := by
  have htodo := ha.todo n h hn
  rw [hpending] at htodo
  obtain ⟨hclosed, announce, done, hall, hrest⟩ := htodo.removing hbehind
  have hstarted : h.started = true := by
    cases hs : h.started with
    | true => rfl
    | false =>
      rw [(ha.waiting n h hn hs).2.1] at hpending
      cases hpending
  -- what the session keeps is decided by how far it has come
  have hkeeps : ∀ e, h.Keeps e ↔ e ∈ (ReadHandler.farewell h.channel announce).drop done := by
    intro e
    rw [Holder.Keeps, hclosed, hpending, hall]
    simp
  have hkeeps' : ∀ e, Holder.Keeps { h with pending := rest } e ↔
      e ∈ (ReadHandler.farewell h.channel announce).drop (done + 1) := by
    intro e
    rw [Holder.Keeps, hclosed, hrest]
    simp
  obtain ⟨hA, hM, hC⟩ := @ReadHandler.mem_drop_farewell h.channel announce done
  obtain ⟨hA', hM', hC'⟩ := @ReadHandler.mem_drop_farewell h.channel announce (done + 1)
  have honly : ∀ j x, holders j = some x → x.channel = h.channel → x.Keeps .removeChannel →
      h.Keeps .removeChannel → j = n :=
    fun j x hx hc hk hk' => ha.bound.unique hx hn hc hk hk'
  have hdone := ReadHandler.done_of_head hall.symm
  have hsame : Holder.channel { h with pending := rest } = h.channel ∧
      Holder.started { h with pending := rest } = h.started := ⟨rfl, rfl⟩
  cases entry with
  | removeApproval =>
    obtain rfl := hdone.1 rfl
    refine ha.replace hn hstarted hsame htodo.tail ?_ ?_ ?_
    · exact ha.bound.keep (fun _ _ _ _ => Iff.rfl) hn rfl (by simp only [hkeeps, hkeeps', hC, hC']; simp)
    · exact ha.mailbox.keep (fun _ _ _ _ => Iff.rfl) hn rfl (by simp only [hkeeps, hkeeps', hM, hM']; simp)
    · refine ha.approval.remove hn (by simp only [hkeeps', hA']; simp) fun j x hx hc hp => ?_
      refine honly j x hx hc (ha.keeps_channel hx (ha.keeps_mailbox hx hp.2)) ?_
      rw [hkeeps, hC]
      omega
  | removeMailbox =>
    obtain rfl := hdone.2.1 rfl
    refine ha.replace hn hstarted hsame htodo.tail ?_ ?_ ?_
    · exact ha.bound.keep (fun _ _ _ _ => Iff.rfl) hn rfl (by simp only [hkeeps, hkeeps', hC, hC']; simp)
    · refine ha.mailbox.remove hn (by simp only [hkeeps', hM']; simp) fun j x hx hc hp => ?_
      refine honly j x hx hc (ha.keeps_channel hx hp.2) ?_
      rw [hkeeps, hC]
      omega
    · exact ha.approval.keep (fun _ _ _ _ => Iff.rfl) hn rfl (by simp only [hkeeps, hkeeps', hA, hA']; simp)
  | removeChannel =>
    obtain rfl := hdone.2.2 rfl
    refine ha.replace hn hstarted hsame htodo.tail ?_ ?_ ?_
    · refine ha.bound.remove hn (by simp only [hkeeps', hC']; simp) fun j x hx hc hp => ?_
      refine honly j x hx hc hp ?_
      rw [hkeeps, hC]
    · exact ha.mailbox.keep (fun _ _ _ _ => Iff.rfl) hn rfl (by simp only [hkeeps, hkeeps', hM, hM']; simp)
    · exact ha.approval.keep (fun _ _ _ _ => Iff.rfl) hn rfl (by simp only [hkeeps, hkeeps', hA, hA']; simp)
  | _ => exact hbehind.elim

end

section

variable {s : Gmlbroker} {n : ℕ} {session : Session}

/-- A change of a session that the registries do not see. -/
theorem map_holder_update {sessions : ℕ → Option Session} (f : Session → Session)
    (hf : ∀ session, (f session).holder = session.holder) (n : ℕ) :
    Option.map Session.holder ∘ Function.update sessions n ((sessions n).map f) =
      Option.map Session.holder ∘ sessions := by
  rw [Function.comp_update, Option.map_map]
  have hsame : Session.holder ∘ f = Session.holder := funext hf
  rw [hsame]
  exact Function.update_eq_self n (Option.map Session.holder ∘ sessions)

theorem holders_setFlag (s : Gmlbroker) (n : ℕ) :
    Option.map Session.holder ∘ s.setFlag n = s.holders := by
  rw [setFlag, map_holder_update]
  · rfl
  · exact fun _ => rfl

theorem holders_deliver (s : Gmlbroker) (n : ℕ) (mail : Mail) :
    Option.map Session.holder ∘ s.deliver n mail = s.holders := by
  rw [deliver, map_holder_update]
  · rfl
  · exact fun _ => rfl

theorem Wf.of_holders {s s' : Gmlbroker} (h : Wf s) (htable : s'.table = s.table)
    (happrovals : s'.approvals = s.approvals) (hmailboxes : s'.mailboxes = s.mailboxes)
    (hacceptor : s'.acceptor = s.acceptor) (hholders : s'.holders = s.holders)
    (haccepted : s'.accepted = s.accepted) : Wf s' := by
  unfold Wf entries
  rw [htable, happrovals, hmailboxes, hacceptor, hholders, haccepted]
  exact h

theorem Wf.accept (h : Wf s) : Wf s.accept.1 := by
  unfold Gmlbroker.accept
  split_ifs with hacc
  · split
    · exact h
    · next channel hallocate =>
      rw [Wf, hacc] at h
      have hagree := Agree.accept h (ChannelTable.allocate_free hallocate)
      rw [Wf, holders, Function.comp_update]
      exact hagree
  · exact h

theorem Wf.register (h : Wf s) : Wf s.register.1 := by
  unfold Gmlbroker.register
  split
  · exact h
  · next n channel hacc =>
    rw [Wf, hacc] at h
    rw [Wf, entries, Function.comp_update]
    exact h.create
  · next n channel hacc =>
    rw [Wf, hacc] at h
    obtain ⟨holder, hn, -⟩ := h.registering n channel (.inr rfl)
    obtain ⟨session, hsession, rfl⟩ := Option.map_eq_some_iff.mp hn
    rw [Wf, holders, start, Function.comp_update, hsession]
    exact h.start hn

theorem Wf.dispatch (h : Wf s) (item : Item) : Wf (s.dispatch item).1 := by
  unfold Gmlbroker.dispatch
  split
  · dsimp only
    split <;> exact h
  · exact h
  · split
    · exact h
    · split_ifs
      · exact h.of_holders rfl rfl rfl rfl (holders_setFlag s _) rfl
      · exact h
  · split
    · exact h
    · dsimp only
      split_ifs <;> exact h

theorem Wf.handle (h : Wf s) : Wf s.handle.1 := by
  unfold Gmlbroker.handle
  split
  · split <;> exact h
  · exact h.dispatch _
  · split <;> exact h
  · exact h
  · exact h.of_holders rfl rfl rfl rfl (holders_deliver s _ _) rfl

theorem holders_eq (hn : s.sessions n = some session) : s.holders n = some session.holder := by
  simp [holders, hn]

theorem Wf.started_of_pending (hwf : Wf s) (hn : s.sessions n = some session)
    (hpending : session.pending ≠ []) : session.started = true := by
  cases hs : session.started with
  | true => rfl
  | false => exact absurd (hwf.waiting n _ (holders_eq hn) hs).2.1 hpending

/-- What a reader has to do behind a turn of its loop. -/
theorem shape_of_turn (ids : ℕ → ℕ → Bytes) (n : ℕ) (hopen : session.reader.closed = false)
    (wake : Wake) :
    ReadHandler.Shape session.channel (turn ids n session wake).reader.closed
      (turn ids n session wake).pending := by
  simp only [turn, ReadHandler.step, hopen, Bool.false_eq_true, if_false]
  exact ReadHandler.shape_turn hopen _

/-- A reader that has not left its loop keeps its entries through a turn. -/
theorem keeps_turn (ids : ℕ → ℕ → Bytes) (n : ℕ) (hopen : session.reader.closed = false)
    {entry : ReadHandler.Effect} (hbehind : entry.Behind) (wake : Wake) :
    (turn ids n session wake).holder.Keeps entry := by
  have hshape := shape_of_turn ids n hopen wake
  cases hclosed : (turn ids n session wake).reader.closed with
  | false => exact .inl hclosed
  | true =>
    obtain ⟨happroval, hmailbox, hchannel⟩ := (hclosed ▸ hshape).leaves
    refine .inr ?_
    cases entry with
    | removeApproval => exact happroval
    | removeMailbox => exact hmailbox
    | removeChannel => exact hchannel
    | _ => exact hbehind.elim

/-- A turn of a reader. -/
theorem Wf.turn (h : Wf s) (ids : ℕ → ℕ → Bytes) (hn : s.sessions n = some session)
    (hready : session.started = true ∧ session.pending = []) (wake : Wake) :
    Wf { s with sessions := Function.update s.sessions n (some (Gmlbroker.turn ids n session wake)) } := by
  rw [Wf, holders, Function.comp_update]
  have hclosed : session.reader.closed = true →
      Gmlbroker.turn ids n session wake = { session with mailbox := (poll session.mailbox wake).2 } := by
    intro hclosed
    simp only [Gmlbroker.turn, ReadHandler.step, hclosed, if_true]
    rw [hready.2]
  refine Agree.advance h (holders_eq hn) hready.1 ⟨rfl, rfl⟩ ?_ ?_
  · cases hc : session.reader.closed with
    | true =>
      rw [hclosed hc]
      exact h.todo n session.holder (holders_eq hn)
    | false => exact .whole (shape_of_turn ids n hc wake)
  · intro entry hbehind
    cases hc : session.reader.closed with
    | true =>
      rw [hclosed hc]
      exact Iff.rfl
    | false => exact iff_of_true (keeps_turn ids n hc hbehind wake) (.inl hc)

theorem Wf.perform (h : Wf s) (hn : s.sessions n = some session) {effect : ReadHandler.Effect}
    {pending : List ReadHandler.Effect} (hpending : session.pending = effect :: pending) :
    Wf (Gmlbroker.perform { s with
      sessions := Function.update s.sessions n (some { session with pending }) } n
      session.channel effect) := by
  have hholders : Option.map Session.holder ∘
      Function.update s.sessions n (some { session with pending }) =
        Function.update s.holders n (some { session.holder with pending }) :=
    Function.comp_update ..
  have hremove := fun hbehind : effect.Behind => Agree.remove h (holders_eq hn) hbehind hpending
  have hstarted := h.started_of_pending hn (by rw [hpending]; exact List.cons_ne_nil _ _)
  have hadvance : ¬effect.Behind → Agree s.table s.entries s.mailboxes s.acceptor
      (Function.update s.holders n (some { session.holder with pending })) s.accepted := by
    intro hbehind
    have htodo : ReadHandler.Todo session.channel session.reader.closed (effect :: pending) :=
      hpending ▸ h.todo n _ (holders_eq hn)
    refine Agree.advance h (holders_eq hn) hstarted ⟨rfl, rfl⟩ htodo.tail fun entry hentry => ?_
    have hne : entry ≠ effect := by
      rintro rfl
      exact hbehind hentry
    show (session.reader.closed = false ∨ entry ∈ pending) ↔
      (session.reader.closed = false ∨ entry ∈ session.pending)
    rw [hpending, List.mem_cons, or_iff_right hne]
  cases effect with
  | removeApproval =>
    have hagree := hremove trivial
    rw [Wf, entries, Gmlbroker.perform, Function.comp_update, holders, hholders]
    exact hagree
  | removeMailbox =>
    have hagree := hremove trivial
    rw [Wf, Gmlbroker.perform, holders, hholders]
    exact hagree
  | removeChannel =>
    have hagree := hremove trivial
    rw [Wf, Gmlbroker.perform, holders, hholders]
    exact hagree
  | setRequestId id =>
    have hentries : Option.map Entry.session ∘ Function.update s.approvals session.channel
        ((s.approvals session.channel).map fun entry => { entry with requestId := id }) =
          s.entries := by
      rw [Function.comp_update, Option.map_map]
      exact Function.update_eq_self session.channel s.entries
    rw [Wf, entries, Gmlbroker.perform, hentries, holders, hholders]
    exact hadvance fun hbehind => hbehind
  | _ =>
    rw [Wf, Gmlbroker.perform, holders, hholders]
    exact hadvance id

theorem Wf.step (h : Wf s) (ids : ℕ → ℕ → Bytes) (e : Event) : Wf (s.step ids e).1 := by
  unfold Gmlbroker.step
  cases e with
  | datagram data =>
    dsimp only
    split <;> exact h
  | accept => exact h.accept
  | register => exact h.register
  | handle => exact h.handle
  | wake n wake =>
    dsimp only
    split
    · exact h
    · next session hn =>
      split_ifs with hready
      · exact h.turn ids hn hready wake
      · exact h
  | perform n =>
    dsimp only
    split
    · exact h
    · next session hn =>
      split
      · exact h
      · next hpending => exact h.perform hn hpending
  | transmit =>
    dsimp only
    split <;> exact h

end

/-- Every reachable state is well formed. -/
theorem wf_run (ids : ℕ → ℕ → Bytes) (es : List Event) : Wf ((machine ids).run es) := by
  refine Machine.invariant (M := machine ids) (P := fun _ s => Wf s) ?_
    (fun _ e h => h.step ids e) es
  refine ⟨?_, ?_, ?_, ?_, ?_, ?_, ?_⟩ <;> simp [machine, holders, entries, Directory.Lists]

end Gmlbroker

end GuacamoleDiode
