import GuacamoleDiode.Gmlbroker.Senders
import GuacamoleDiode.Lib.Lease
import GuacamoleDiode.System.Agreement
import GuacamoleDiode.System.Coupling

/-!
# The trail of the messages

Behind every message on its way from gmlbroker to gcdbroker stands the session whose reader has
queued it. The trail keeps these sessions next to the queues and the links. For one channel, the
messages on their way and the connections of gcdbroker are a lease: a request or its approval
asks for the connection, and payload is meant for it.

## Design notes

- No step depends on the trail. What the guard sends in answer to a message counts as sent by
  the session of the message, and what it sends of its own accord as sent by session 0.

## Main definitions

- `Trail`, `trail`: the sessions behind the messages
- `Trail.lease`: what is on its way on a channel, and its connections

## Main results

- `letters_stepGml`, `letters_guard`: what a step of gmlbroker and of the guard does to the queue
- `lease_move`: a step of gcdbroker is a step of the lease
-/

namespace GuacamoleDiode

open Wire

namespace Diode

open ForwardPath (Frame frameOf frameOf_fst frameOf_append linkFrames linkFrames_cons heard trim
  heard_serialize approves_trim)
open Gcdbroker (Approves Routed Router Ledger Move IsAck bridgeOf additions)

/-- The session whose reader makes a step. -/
def speaker : Gmlbroker.Event → ℕ
  | .perform n => n
  | _ => 0

/-- The sessions behind the messages on their way, and behind those that gcdbroker has received. -/
structure Trail where
  /-- the send queue of gmlbroker -/
  queue : List Frame := []
  toGuard : List (Bytes × ℕ) := []
  toGcd : List (Bytes × ℕ) := []
  authors : List ℕ := []

namespace Trail

/-- The session behind the message that a step of the guard receives. -/
def author (t : Trail) : Guard.Event → ℕ
  | .datagram _ => (t.toGuard.head?.map Prod.snd).getD 0
  | _ => 0

/-- What the sender of gmlbroker takes off the send queue. -/
def sending (t : Trail) : Gmlbroker.Event → List Frame
  | .transmit => t.queue.take 1
  | _ => []

/-- What a step of gmlbroker leaves on the send queue. -/
def unsent (t : Trail) : Gmlbroker.Event → List Frame
  | .transmit => t.queue.tail
  | _ => t.queue

/-- A step of gmlbroker. -/
def stepGml (t : Trail) (s : Gmlbroker) (e : Gmlbroker.Event) : Trail :=
  { t with
    queue := t.unsent e ++ (s.queued e).toList.map fun msg => (msg, speaker e)
    toGuard := t.toGuard ++ (t.sending e).map fun f => (Multiplexer.serialize f.1, f.2) }

/-- A step of the guard. -/
def stepGuard (t : Trail) (g : Guard) (e : Guard.Event) : Trail :=
  { t with
    toGuard := match e with
      | .datagram _ => t.toGuard.tail
      | _ => t.toGuard
    toGcd := t.toGcd ++ (g.step e).2.map fun d => (d, t.author e) }

/-- A step of gcdbroker. -/
def stepGcd (t : Trail) (e : Gcdbroker.Event) : Trail :=
  match e, t.toGcd with
  | .datagram _, d :: rest =>
    { t with toGcd := rest, authors := t.authors ++ ((heard d.1).map fun _ => d.2).toList }
  | _, _ => t

def step (t : Trail) (s : Diode) (e : Event) : Trail :=
  if s.applies e then
    match e with
    | .gml e => t.stepGml s.gml e
    | .guard e => t.stepGuard s.guard e
    | .gcd e => t.stepGcd e
  else t

end Trail

/-- The trail of a run. -/
def trail (ids : ℕ → ℕ → Bytes) (es : List Event) : Trail :=
  (machine ids).observe (fun t s e _ => t.step s e) {} es

/-- The message asks for a channel. -/
def Creates (msg : BridgeMessage) : Prop := msg.action = .createChannel

instance (msg : BridgeMessage) : Decidable (Creates msg) := inferInstanceAs (Decidable (_ = _))

/-- What a message means to a channel. -/
def letter (asks : BridgeMessage → Prop) [DecidablePred asks] (c : UInt16) (f : Frame) :
    Option (Lease.Letter ℕ) :=
  if f.1.channel = c then
    if f.1.action = .none then some (.payload f.2)
    else if asks f.1 then some (.request f.2)
    else none
  else none

/-- What messages mean to a channel. -/
def letters (asks : BridgeMessage → Prop) [DecidablePred asks] (c : UInt16) (fs : List Frame) :
    List (Lease.Letter ℕ) :=
  fs.filterMap (letter asks c)

/-- The connections that have been opened on a channel, oldest first. -/
def opens (out : List Routed) (c : UInt16) : List ℕ :=
  out.filterMap fun
    | .opened k item => if item.msg.channel = c then some k else none
    | .wrote _ _ _ => none

/-- The messages that the guard has not received. -/
def Trail.asked (t : Trail) : List Frame := linkFrames t.toGuard ++ t.queue

/-- The messages of the guard that gcdbroker has not dealt with. -/
def Trail.answered (t : Trail) (s : Gcdbroker) : List Frame :=
  (bridgeOf s.router.pending).map (frameOf t.authors) ++ linkFrames t.toGcd

/-- What is on its way on a channel, and its connections. The sessions of the connections are
those that `user` says. -/
def Trail.lease (t : Trail) (s : Gcdbroker) (out : List Routed) (user : ℕ → ℕ) (c : UInt16) : Lease ℕ where
  queue := letters Approves c (t.answered s) ++ letters Creates c t.asked
  opened := (opens out c).map user
  bound := (s.router.bound c).map user

section

variable {asks : BridgeMessage → Prop} [DecidablePred asks] {c : UInt16} {f : Frame}
  {fs fs' : List Frame} {n : ℕ}

theorem letters_append : letters asks c (fs ++ fs') = letters asks c fs ++ letters asks c fs' :=
  List.filterMap_append

theorem letters_cons : letters asks c (f :: fs) = (letter asks c f).toList ++ letters asks c fs := by
  cases h : letter asks c f <;> simp [letters, h]

theorem letter_payload (hchannel : f.1.channel = c) (haction : f.1.action = .none) :
    letter asks c f = some (.payload f.2) := by
  simp [letter, hchannel, haction]

theorem letter_request (hchannel : f.1.channel = c) (haction : f.1.action ≠ .none) (hasks : asks f.1) :
    letter asks c f = some (.request f.2) := by
  simp [letter, hchannel, haction, hasks]

theorem letter_eq_none (haction : f.1.action ≠ .none) (hasks : ¬asks f.1) : letter asks c f = none := by
  simp [letter, haction, hasks]

theorem letter_of_ne (hchannel : f.1.channel ≠ c) : letter asks c f = none := by
  simp [letter, hchannel]

/-- Messages that neither carry payload nor ask mean nothing. -/
theorem letters_eq_nil (h : ∀ f ∈ fs, f.1.action ≠ .none ∧ ¬asks f.1) : letters asks c fs = [] := by
  rw [letters, List.filterMap_eq_nil_iff]
  exact fun f hf => letter_eq_none (h f hf).1 (h f hf).2

/-- The frames of datagrams that all belong to one session. -/
theorem linkFrames_serialized (fs : List Frame) :
    linkFrames (fs.map fun f => (Multiplexer.serialize f.1, f.2)) = fs.map fun f => (trim f.1, f.2) := by
  induction fs with
  | nil => rfl
  | cons f fs ih =>
    rw [List.map_cons, linkFrames_cons, heard_serialize, ih]
    rfl

theorem linkFrames_append (link link' : List (Bytes × ℕ)) :
    linkFrames (link ++ link') = linkFrames link ++ linkFrames link' :=
  List.filterMap_append

/-- The buffer of the receiver does not change what a message means. -/
theorem letters_trim (h : ∀ f ∈ fs, asks (trim f.1) ↔ asks f.1) :
    letters asks c (fs.map fun f => (trim f.1, f.2)) = letters asks c fs := by
  induction fs with
  | nil => rfl
  | cons f fs ih =>
    rw [List.map_cons, letters_cons, letters_cons, ih fun g hg => h g (List.mem_cons_of_mem _ hg)]
    have hasks := h f List.mem_cons_self
    have hletter : letter asks c (trim f.1, f.2) = letter asks c f := by
      simp only [letter, hasks]
      rfl
    rw [hletter]

end

-- ════════════════════════════════════════════════════════════════════════
-- gmlbroker moves
-- ════════════════════════════════════════════════════════════════════════

section

variable {t : Trail} {s : Diode} {c : UInt16}

theorem Trail.sending_append_unsent (t : Trail) (e : Gmlbroker.Event) :
    t.sending e ++ t.unsent e = t.queue := by
  cases e with
  | transmit => exact List.take_append_drop 1 t.queue ▸ by simp [sending, unsent]
  | _ => rfl

/-- What the guard has not received is what it had not received before, and what is queued. -/
theorem asked_stepGml (t : Trail) (s : Gmlbroker) (e : Gmlbroker.Event) :
    (t.stepGml s e).asked = linkFrames t.toGuard ++ (t.sending e).map (fun f => (trim f.1, f.2)) ++
      (t.unsent e ++ (s.queued e).toList.map fun msg => (msg, speaker e)) := by
  rw [Trail.asked, Trail.stepGml, linkFrames_append, linkFrames_serialized]

/-- What gmlbroker sends joins what is on its way. -/
theorem letters_stepGml (t : Trail) (s : Gmlbroker) (e : Gmlbroker.Event) (c : UInt16) :
    letters Creates c (t.stepGml s e).asked = letters Creates c t.asked ++
      letters Creates c ((s.queued e).toList.map fun msg => (msg, speaker e)) := by
  rw [asked_stepGml, Trail.asked, ← t.sending_append_unsent e]
  have htrim : letters Creates c ((t.sending e).map fun f => (trim f.1, f.2)) =
      letters Creates c (t.sending e) := letters_trim fun _ _ => Iff.rfl
  simp only [letters_append, htrim, List.append_assoc]

-- ════════════════════════════════════════════════════════════════════════
-- The guard moves
-- ════════════════════════════════════════════════════════════════════════

/-- What the guard receives was the oldest message on its way. -/
theorem asked_stepGuard (hlink : t.toGuard.map Prod.fst = s.toGuard) {e : Guard.Event}
    (happlies : s.applies (.guard e) = true) :
    t.asked = (s.guard.received e).toList.map (fun msg => (msg, t.author e)) ++
      (t.stepGuard s.guard e).asked := by
  cases e with
  | datagram data =>
    simp only [applies, Bool.and_eq_true, beq_iff_eq] at happlies
    rw [← hlink, List.head?_map] at happlies
    obtain ⟨d, hd, rfl⟩ := Option.map_eq_some_iff.mp happlies.2
    obtain ⟨rest, hrest⟩ := List.head?_eq_some_iff.mp hd
    have hreceived : s.guard.received (.datagram d.1) = heard d.1 := by
      rw [Guard.received, if_pos happlies.1]
      rfl
    rw [hreceived, Trail.asked, hrest, linkFrames_cons]
    simp only [Trail.asked, Trail.stepGuard, Trail.author, hrest, List.tail_cons, List.head?_cons,
      Option.map_some, Option.getD_some, List.append_assoc]
    cases heard d.1 <;> rfl
  | _ => rfl

/-- The approval that a request gets. -/
def approvalOf (msg : BridgeMessage) : BridgeMessage where
  channel := msg.channel
  action := .approval
  payload := approvalApprove :: msg.payload

theorem approves_approvalOf (msg : BridgeMessage) : Approves (approvalOf msg) := ⟨rfl, rfl⟩

/-- Messages that the guard sends in a step, as far as they matter to the channels. -/
inductive Answer (g : Guard) (e : Guard.Event) : List BridgeMessage → Prop where
  | control (msgs : List BridgeMessage) (actions : ∀ m ∈ msgs, m.action ≠ .none ∧ ¬Approves m) :
      Answer g e msgs
  | approval (msg : BridgeMessage) (received : g.received e = some msg) (creates : Creates msg)
      (valid : isValidRequestId msg.payload = true) (approve : g.approve = true) :
      Answer g e [msg, approvalOf msg]
  | payload (msg : BridgeMessage) (payload : Bytes) (received : g.received e = some msg)
      (action : msg.action = .none) : Answer g e [{ msg with payload := payload }]

theorem answer_shutdowns {g : Guard} {e : Guard.Event} (order : List UInt16) :
    ∃ msgs, order.map Guard.shutdown = msgs.map Multiplexer.serialize ∧ Answer g e msgs := by
  refine ⟨order.map fun c => { channel := c, action := .shutdownChannel }, by simp [Guard.shutdown], ?_⟩
  refine .control _ fun m hm => ?_
  obtain ⟨c, -, rfl⟩ := List.mem_map.mp hm
  exact ⟨by simp, ForwardPath.not_approves (by simp)⟩

/-- What the guard sends, if no reader sends an APPROVAL. -/
theorem answer_of_outcome {g g' : Guard} {e : Guard.Event} {out : List Bytes}
    (h : Guard.Outcome g e g' out) (hsound : ∀ msg, g.received e = some msg → msg.action ≠ .approval) :
    ∃ msgs, out = msgs.map Multiplexer.serialize ∧ Answer g e msgs := by
  have hshut : ∀ c, ({ channel := c, action := .shutdownChannel } : BridgeMessage).action ≠ .none ∧
      ¬Approves { channel := c, action := .shutdownChannel } := by
    intro c
    exact ⟨by simp, ForwardPath.not_approves (by simp)⟩
  cases h with
  | quiet => exact ⟨[], rfl, .control [] (by simp)⟩
  | approvedCreate msg hreceived haction hvalid happrove =>
    have hfor : g.approvalFor msg = approvalOf msg := by
      simp [Guard.approvalFor, approvalOf, happrove]
    refine ⟨[msg, g.approvalFor msg], rfl, ?_⟩
    rw [hfor]
    exact .approval msg hreceived haction hvalid happrove
  | deniedCreate msg hreceived haction _ hdeny =>
    refine ⟨[msg, g.approvalFor msg, { channel := msg.channel, action := .shutdownChannel }], rfl,
      .control _ ?_⟩
    have hne : approvalDeny ≠ approvalApprove := by decide
    have hnot : ¬Approves (g.approvalFor msg) := by
      simp [Approves, Guard.approvalFor, Gcdbroker.verdict, hdeny, hne]
    simp only [List.mem_cons, List.not_mem_nil, or_false, forall_eq_or_imp, forall_eq]
    exact ⟨⟨by simp [haction], ForwardPath.not_approves (by simp [haction])⟩,
      ⟨by simp [Guard.approvalFor], hnot⟩, hshut _⟩
  | closed msg _ haction =>
    refine ⟨[msg], rfl, .control _ fun m hm => ?_⟩
    obtain rfl := List.mem_singleton.mp hm
    exact ⟨by simp [haction], ForwardPath.not_approves (by simp [haction])⟩
  | corrupted msg =>
    refine ⟨[{ channel := msg.channel, action := .shutdownChannel }], rfl, .control _ fun m hm => ?_⟩
    obtain rfl := List.mem_singleton.mp hm
    exact hshut _
  | relayed msg payload parser hreceived haction _ _ _ _ _ _ hemitted =>
    have hnone : msg.action = .none := haction.resolve_right (hsound msg hreceived)
    rcases hemitted with rfl | ⟨rfl, -⟩
    · exact ⟨[{ msg with payload := payload }], rfl, .payload msg payload hreceived hnone⟩
    · exact ⟨[], rfl, .control [] (by simp)⟩
  | tornDown order => exact answer_shutdowns order
  | halted order => exact answer_shutdowns order

/-- What the guard answers means no more to a channel than what it has received. -/
theorem Answer.letters {g : Guard} {e : Guard.Event} {msgs : List BridgeMessage} (h : Answer g e msgs)
    (n : ℕ) (c : UInt16) :
    (letters Approves c (msgs.map fun m => (m, n))).Sublist
      (letters Creates c ((g.received e).toList.map fun m => (m, n))) := by
  cases h with
  | control msgs hactions =>
    have hnil : Diode.letters Approves c (msgs.map fun m => (m, n)) = [] := by
      refine letters_eq_nil fun f hf => ?_
      obtain ⟨m, hm, rfl⟩ := List.mem_map.mp hf
      exact hactions m hm
    rw [hnil]
    exact List.nil_sublist _
  | approval msg hreceived hcreates =>
    have hcreates' : msg.action = .createChannel := hcreates
    have hskip : letter Approves c (msg, n) = none :=
      letter_eq_none (by simp [hcreates']) (ForwardPath.not_approves (by simp [hcreates']))
    rw [hreceived]
    simp only [List.map_cons, List.map_nil, Option.toList_some, letters_cons, hskip, Option.toList_none,
      List.nil_append]
    by_cases hchannel : msg.channel = c
    · rw [letter_request (f := (approvalOf msg, n)) hchannel (by simp [approvalOf]) (approves_approvalOf msg),
        letter_request (f := (msg, n)) hchannel (by simp [hcreates']) hcreates]
      exact List.Sublist.refl _
    · rw [letter_of_ne (f := (approvalOf msg, n)) hchannel]
      exact List.nil_sublist _
  | payload msg payload hreceived haction =>
    rw [hreceived]
    simp only [List.map_cons, List.map_nil, Option.toList_some, letters_cons]
    have hsame : letter Approves c ({ msg with payload := payload }, n) = letter Creates c (msg, n) := by
      simp [letter, haction]
    rw [hsame]
    exact List.Sublist.refl _

/-- What gcdbroker has not dealt with is what it had not dealt with before, and what is answered. -/
theorem answered_stepGuard {g : Guard} {e : Guard.Event} {msgs : List BridgeMessage}
    (hout : (g.step e).2 = msgs.map Multiplexer.serialize) (s : Gcdbroker) :
    (t.stepGuard g e).answered s = t.answered s ++ msgs.map fun m => (trim m, t.author e) := by
  have hframes := linkFrames_serialized (msgs.map fun m => (m, t.author e))
  simp only [List.map_map, Function.comp_def] at hframes
  simp only [Trail.answered, Trail.stepGuard, linkFrames_append, hout, List.map_map, Function.comp_def,
    hframes, List.append_assoc]

end

-- ════════════════════════════════════════════════════════════════════════
-- gcdbroker moves
-- ════════════════════════════════════════════════════════════════════════

section

variable {r r' : Router} {ms : List BridgeMessage} {out out' : List Routed} {user : ℕ → ℕ}
  {refused : Prop} {pending pushed : List Gcdbroker.Item} {item : Gcdbroker.Item} {c : UInt16}
  {F : Gcdbroker.Item → Frame} {rest : List (Lease.Letter ℕ)} {k n : ℕ} {data : Bytes}

/-- The lease behind the queue of a router. -/
def leaseOf (F : Gcdbroker.Item → Frame) (pending : List Gcdbroker.Item) (rest : List (Lease.Letter ℕ))
    (bound : UInt16 → Option ℕ) (out : List Routed) (user : ℕ → ℕ) (c : UInt16) : Lease ℕ where
  queue := letters Approves c ((bridgeOf pending).map F) ++ rest
  opened := (opens out c).map user
  bound := (bound c).map user

theorem mem_opens : k ∈ opens out c ↔ ∃ item, .opened k item ∈ out ∧ item.msg.channel = c := by
  simp only [opens, List.mem_filterMap]
  constructor
  · rintro ⟨routed, hmem, heq⟩
    cases routed with
    | opened k' item =>
      dsimp only at heq
      split_ifs at heq with hc
      obtain rfl := Option.some.inj heq
      exact ⟨item, hmem, hc⟩
    | wrote => cases heq
  · rintro ⟨item, hmem, hc⟩
    exact ⟨_, hmem, if_pos hc⟩

theorem opens_append (out out' : List Routed) (c : UInt16) :
    opens (out ++ out') c = opens out c ++ opens out' c :=
  List.filterMap_append

/-- The sessions of the connections that have been opened. -/
theorem map_opens_of_eq (hledger : Ledger ms out r) {user' : ℕ → ℕ}
    (hsame : ∀ k < r.next, user' k = user k) (c : UInt16) :
    (opens out c).map user' = (opens out c).map user := by
  refine List.map_congr_left fun k hk => hsame k ?_
  obtain ⟨item, hitem, -⟩ := mem_opens.mp hk
  exact hledger.numbers k item hitem

/-- An item that is taken off the queue takes its letter along. -/
theorem letters_tail (F : Gcdbroker.Item → Frame) (item : Gcdbroker.Item)
    (pending : List Gcdbroker.Item) (c : UInt16) :
    (letters Approves c ((bridgeOf pending).map F)).Sublist
      (letters Approves c ((bridgeOf (item :: pending)).map F)) :=
  ((List.sublist_cons_self item pending).filter _).map _ |>.filterMap _

/-- A step that opens no connection loses letters at most. -/
theorem lease_lose (hsub : (letters Approves c ((bridgeOf r'.pending).map F)).Sublist
      (letters Approves c ((bridgeOf pending).map F)))
    (hbound : ∀ k, r'.bound c = some k → r.bound c = some k) (hopens : opens out' c = []) :
    Lease.Step (leaseOf F pending rest r.bound out user c)
      (leaseOf F r'.pending rest r'.bound (out ++ out') user c) := by
  refine .lose (hsub.append (.refl _)) ?_ fun m hm => ?_
  · simp only [leaseOf, opens_append, hopens, List.append_nil]
  · obtain ⟨k, hk, rfl⟩ := Option.map_eq_some_iff.mp hm
    exact Option.map_eq_some_iff.mpr ⟨k, hbound k hk, rfl⟩

/-- Every move of the router is a step of the lease. A connection belongs to the session of its
approval. -/
theorem lease_move (hmove : Move refused r r' pushed out') (hledger : Ledger ms out r)
    (hF : ∀ item, (F item).1 = item.msg) (user : ℕ → ℕ) :
    ∃ user', (∀ k < r.next, user' k = user k) ∧
      (∀ c rest, Lease.Step (leaseOf F (r.pending ++ pushed) rest r.bound out user c)
        (leaseOf F r'.pending rest r'.bound (out ++ out') user' c)) ∧
      ∀ k item, .opened k item ∈ out' → user' k = (F item).2 := by
  cases hmove with
  | push hpending hbound _ =>
    refine ⟨user, fun _ _ => rfl, fun c rest => ?_, by simp⟩
    rw [← hpending]
    exact lease_lose (.refl _) (fun k => hbound c k) rfl
  | drop item hpending _ _ _ hbound _ =>
    refine ⟨user, fun _ _ => rfl, fun c rest => ?_, by simp⟩
    rw [hpending, List.append_nil]
    exact lease_lose (letters_tail F item _ c) (fun k => hbound c k) rfl
  | shut item hpending _ hbound _ =>
    refine ⟨user, fun _ _ => rfl, fun c rest => ?_, by simp⟩
    rw [hpending, List.append_nil]
    refine lease_lose (letters_tail F item _ c) (fun k hk => ?_) rfl
    rw [hbound] at hk
    exact (Table.of_update_none hk).2
  | write item k data hpending _ _ _ _ hbound _ =>
    refine ⟨user, fun _ _ => rfl, fun c rest => ?_, by simp⟩
    rw [hpending, List.append_nil]
    exact lease_lose (letters_tail F item _ c) (fun k => hbound c k) rfl
  | bind item k hpending happroves _ hbound hnumber _ =>
    have hsame : ∀ j < r.next, Function.update user k (F item).2 j = user j := by
      intro j hj
      exact Function.update_of_ne (by omega) ..
    refine ⟨Function.update user k (F item).2, hsame, fun c rest => ?_, ?_⟩
    · rw [hpending, List.append_nil]
      by_cases hchannel : item.msg.channel = c
      · obtain ⟨n, horigin⟩ := hledger.origin_of_approves hpending happroves
        refine .grant (F item).2 ?_ ?_ ?_
        · have hletter : letter Approves c (F item) = some (.request (F item).2) := by
            refine letter_request ?_ ?_ ?_
            · rw [hF, hchannel]
            · rw [hF, happroves.1]
              exact nofun
            · rw [hF]
              exact happroves
          simp only [leaseOf, Gcdbroker.bridgeOf_cons_bridge horigin, List.map_cons, letters_cons,
            hletter, Option.toList_some, List.cons_append, List.nil_append]
        · simp only [leaseOf, opens_append, List.map_append, map_opens_of_eq hledger hsame]
          simp [opens, hchannel]
        · simp [leaseOf, hbound, hchannel]
      · have hnil : opens [.opened k item] c = [] := by simp [opens, hchannel]
        have hother : r'.bound c = r.bound c := by
          rw [hbound]
          exact Function.update_of_ne (Ne.symm hchannel) ..
        refine .lose ((letters_tail F item _ c).append (.refl _)) ?_ fun m hm => ?_
        · simp only [leaseOf, opens_append, hnil, List.append_nil, map_opens_of_eq hledger hsame]
        · obtain ⟨j, hj, rfl⟩ := Option.map_eq_some_iff.mp hm
          rw [hother] at hj
          obtain ⟨item', hitem', -⟩ := hledger.bound c j hj
          exact Option.map_eq_some_iff.mpr ⟨j, hj, (hsame j (hledger.numbers j item' hitem')).symm⟩
    · intro j item' hitem'
      obtain ⟨rfl, rfl⟩ : j = k ∧ item' = item := by simpa using hitem'
      exact Function.update_self ..

/-- What is written is meant for the session of the connection. -/
theorem user_of_wrote (hmove : Move refused r r' pushed out') (hF : ∀ item, (F item).1 = item.msg)
    (hwf : (leaseOf F (r.pending ++ pushed) rest r.bound out user item.msg.channel).Wf)
    (hwrote : .wrote k item data ∈ out') (horigin : item.origin = .bridge n) :
    user k = (F item).2 := by
  cases hmove with
  | write item' k' data' hpending haction hconnected =>
    obtain ⟨rfl, rfl, -⟩ : k = k' ∧ item = item' ∧ data = data' := by simpa using hwrote
    have hletter : letter Approves item.msg.channel (F item) = some (.payload (F item).2) :=
      letter_payload (congrArg BridgeMessage.channel (hF item)) ((congrArg BridgeMessage.action (hF item)).trans haction)
    rw [hpending, List.append_nil] at hwf
    have hhead : (leaseOf F (item :: r'.pending) rest r.bound out user item.msg.channel).queue =
        .payload (F item).2 :: (letters Approves item.msg.channel ((bridgeOf r'.pending).map F) ++ rest) := by
      simp only [leaseOf, Gcdbroker.bridgeOf_cons_bridge horigin, List.map_cons, letters_cons,
        hletter, Option.toList_some, List.cons_append, List.nil_append]
    exact hwf.served hhead (by simp [leaseOf, hconnected])
  | _ => simp at hwrote

/-- A message that arrives moves from the link to the queue. -/
theorem answered_arrive {labels : List ℕ} {link link' : List (Bytes × ℕ)} {msg : Option BridgeMessage}
    {ack : Option Gcdbroker.Item} {g : ℕ} (hledger : Ledger ms out r)
    (hlength : labels.length = ms.length) (hack : ∀ item ∈ ack, IsAck item)
    (hlink : linkFrames link = (msg.map fun m => (m, g)).toList ++ linkFrames link') :
    (bridgeOf r.pending).map (frameOf labels) ++ linkFrames link =
      (bridgeOf (r.pending ++ additions ms msg ack)).map
        (frameOf (labels ++ (msg.map fun _ => g).toList)) ++ linkFrames link' := by
  have hold : (bridgeOf r.pending).map (frameOf labels) =
      (bridgeOf r.pending).map (frameOf (labels ++ (msg.map fun _ => g).toList)) := by
    refine List.map_congr_left fun item hitem => ?_
    obtain ⟨hmem, hbridge⟩ := List.mem_filter.mp hitem
    obtain ⟨pre, post, hp⟩ := List.append_of_mem hmem
    cases horigin : item.origin with
    | bridge n =>
      have hlen := (hledger.split hp horigin).2.2
      rw [frameOf_append horigin (by omega)]
    | reader k => simp [horigin] at hbridge
  have hnew : (msg.map fun m => (⟨.bridge ms.length, m⟩ : Gcdbroker.Item)).toList.map
      (frameOf (labels ++ (msg.map fun _ => g).toList)) = (msg.map fun m => (m, g)).toList := by
    cases msg with
    | none => rfl
    | some m => simp [frameOf, ← hlength]
  rw [hlink, hold, Gcdbroker.bridgeOf_append, Gcdbroker.bridgeOf_additions ms msg hack,
    List.map_append, hnew, List.append_assoc]

/-- What a step of gcdbroker does to the trail. -/
theorem stepGcd_eq {t : Trail} {s : Diode} {e : Gcdbroker.Event} (hlink : t.toGcd.map Prod.fst = s.toGcd)
    (happlies : s.applies (.gcd e) = true) :
    ∃ g, linkFrames t.toGcd = ((Gcdbroker.arrival e).map fun m => (m, g)).toList ++
        linkFrames (t.stepGcd e).toGcd ∧
      (t.stepGcd e).authors = t.authors ++ ((Gcdbroker.arrival e).map fun _ => g).toList ∧
      (t.stepGcd e).queue = t.queue ∧ (t.stepGcd e).toGuard = t.toGuard ∧
      (t.stepGcd e).toGcd.map Prod.fst = Gcdbroker.undelivered s.toGcd e := by
  cases e with
  | datagram data =>
    simp only [applies, beq_iff_eq] at happlies
    rw [← hlink, List.head?_map] at happlies
    obtain ⟨d, hd, rfl⟩ := Option.map_eq_some_iff.mp happlies
    obtain ⟨rest, hrest⟩ := List.head?_eq_some_iff.mp hd
    refine ⟨d.2, ?_, ?_, ?_, ?_, ?_⟩
    · rw [hrest, linkFrames_cons]
      simp only [Trail.stepGcd, hrest]
      rfl
    · simp only [Trail.stepGcd, hrest]
      rfl
    · simp only [Trail.stepGcd, hrest]
    · simp only [Trail.stepGcd, hrest]
    · simp only [Trail.stepGcd, hrest, Gcdbroker.undelivered, ← hlink, List.map_cons, List.tail_cons]
  | _ => exact ⟨0, rfl, (List.append_nil _).symm, rfl, rfl, hlink⟩

theorem lease_eq (t : Trail) (s : Gcdbroker) (out : List Routed) (user : ℕ → ℕ) (c : UInt16) :
    t.lease s out user c = leaseOf (frameOf t.authors) s.router.pending
      (letters Approves c (linkFrames t.toGcd) ++ letters Creates c t.asked) s.router.bound out user c := by
  simp only [Trail.lease, Trail.answered, leaseOf, letters_append, List.append_assoc]

end

end Diode

end GuacamoleDiode
