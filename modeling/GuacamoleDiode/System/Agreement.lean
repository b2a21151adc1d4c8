import GuacamoleDiode.System.Diode

/-!
# Agreement on closed channels

The three programs on one channel. As long as nobody gives the channel up behind the back of
the guard, everything that ends a session reaches the guard: a reader of gmlbroker announces
that it leaves, and a refused approval comes back as a denial that makes it leave. So once no
message is on its way, an approved channel has a session and a connection.

## Main definitions

- `requested`, `verdicts`: what is on its way to the guard and to gcdbroker on a channel
- `Binds`: the verdicts on their way leave the channel bound
- `Denial`: a denial is on its way to the session
- `Coherent`: what the parties know of a channel

## Main results

- `agreement`
-/

namespace GuacamoleDiode

open Wire

namespace Gmlbroker

/-- The message that the sender takes off the send queue. -/
def sending (s : Gmlbroker) : Event → List BridgeMessage
  | .transmit => s.sendQueue.take 1
  | _ => []

theorem transmitted_step (ids : ℕ → ℕ → Bytes) (s : Gmlbroker) (e : Event) :
    transmitted (s.step ids e).2 = (s.sending e).map Multiplexer.serialize := by
  unfold step
  cases e with
  | datagram data =>
    dsimp only [sending]
    split <;> rfl
  | accept =>
    dsimp only [accept, sending]
    repeat' split
    all_goals rfl
  | register =>
    dsimp only [register, sending]
    split <;> rfl
  | handle =>
    dsimp only [handle, dispatch, sending]
    repeat' split
    all_goals rfl
  | transmit =>
    dsimp only [sending]
    split
    · next hq => simp [hq, transmitted]
    · next hq => simp [hq, transmitted]
  | _ =>
    dsimp only [sending]
    repeat' split
    all_goals rfl

theorem sending_append_unsent (s : Gmlbroker) (e : Event) :
    s.sending e ++ s.unsent e = s.sendQueue := by
  cases e with
  | transmit => exact List.take_append_drop 1 s.sendQueue ▸ by simp [sending, unsent]
  | _ => rfl

end Gmlbroker

namespace Diode

open ForwardPath (heard trim heard_serialize)

/-- A message that opens or closes a channel at the guard. -/
def asks (c : UInt16) (msg : BridgeMessage) : Bool :=
  msg.channel == c && (msg.action == .createChannel || msg.action == .shutdownChannel)

/-- A message that opens or closes a channel at gcdbroker. -/
def rules (c : UInt16) (msg : BridgeMessage) : Bool :=
  msg.channel == c && (msg.action == .approval || msg.action == .shutdownChannel)

/-- The messages of gmlbroker that the guard has not received yet, oldest first. -/
def ahead (s : Diode) : List BridgeMessage := s.toGuard.filterMap heard ++ s.gml.sendQueue

/-- What is on its way to the guard on a channel. -/
def requested (s : Diode) (c : UInt16) : List BridgeMessage := s.ahead.filter (asks c)

/-- What is on its way to the handler of gcdbroker on a channel. -/
def verdicts (s : Diode) (c : UInt16) : List BridgeMessage :=
  (s.gcd.unhandled ++ s.toGcd.filterMap heard).filter (rules c)

/-- The verdicts on their way leave the channel bound, the last one for the request. -/
def Binds (s : Diode) (c : UInt16) (id : Bytes) : Prop :=
  (s.verdicts c = [] ∧ s.gcd.table c ≠ none) ∨ ∃ ms msg, s.verdicts c = ms ++ [msg] ∧
    msg.action = .approval ∧ msg.payload = approvalApprove :: id

/-- A denial is on its way to the session that has asked. -/
inductive Denial (s : Diode) (c : UInt16) (n : ℕ) (id : Bytes) : Prop where
  | relaying (msg : BridgeMessage) (handler : s.gcd.handler = .relaying msg)
      (denies : Gmlbroker.Denies c id msg)
  | queued (msg : BridgeMessage) (mem : msg ∈ s.gcd.sendQueue) (denies : Gmlbroker.Denies c id msg)
  | sent (msg : BridgeMessage) (mem : msg ∈ s.toGml.filterMap heard)
      (denies : Gmlbroker.Denies c id msg)
  | arrived (denied : Gmlbroker.Denied s.gml c n id)

/-- The ids that the readers draw. -/
def Drawn (id : Bytes) : Prop := isValidRequestId id = true

/-- A valid id is one that `make_request_id` can draw. -/
theorem drawn_iff {id : Bytes} : Drawn id ↔ ∃ drawn, ReadHandler.makeRequestId drawn = id := by
  let valid (c : UInt8) : Bool := (48 ≤ c && c ≤ 57) || (97 ≤ c && c ≤ 102)
  have hdraw : ∀ d : Fin 16, valid ((ascii "0123456789abcdef").getD d 0) = true := by decide +kernel
  have hdigit : ∀ c : Fin 256, valid (UInt8.ofFin c) = true →
      ∃ d : Fin 16, (ascii "0123456789abcdef").getD d 0 = UInt8.ofFin c := by decide +kernel
  simp only [Drawn, isValidRequestId, Bool.and_eq_true, beq_iff_eq, List.all_eq_true]
  constructor
  · rintro ⟨hlength, hvalid⟩
    have hdrawn (i : Fin 12) : ∃ d : Fin 16, (ascii "0123456789abcdef").getD d 0 =
        id.get (i.cast hlength.symm) :=
      hdigit (id.get (i.cast hlength.symm)).toFin (hvalid _ (List.get_mem _ _))
    choose drawn hdrawn using hdrawn
    refine ⟨drawn, List.ext_getElem ?_ fun i hi hi' => ?_⟩
    · rw [ReadHandler.makeRequestId, List.length_ofFn]
      exact hlength.symm
    · simp only [ReadHandler.makeRequestId, List.getElem_ofFn, hdrawn]
      rfl
  · rintro ⟨drawn, rfl⟩
    refine ⟨List.length_ofFn, fun c hc => ?_⟩
    obtain ⟨i, rfl⟩ := List.mem_ofFn.mp hc
    exact hdraw (drawn i)

/-- A session has asked, and its channel is bound or it will be denied. -/
def Served (s : Diode) (c : UInt16) : Prop :=
  ∃ n id, Gmlbroker.Asked s.gml c n id ∧ Drawn id ∧ (Binds s c id ∨ Denial s c n id)

/-- What the parties know of a channel, unless it has been given up without telling the guard. -/
structure Coherent (s : Diode) (c : UInt16) (cut : Prop) : Prop where
  /-- the last request on its way comes from a session that has not left -/
  request : ∀ ms msg, s.requested c = ms ++ [msg] → msg.action = .createChannel →
    cut ∨ Gmlbroker.Leaving s.gml c ∨ ∃ n, Gmlbroker.Asked s.gml c n msg.payload
  /-- an approved channel is in use, if nothing is on its way that changes this -/
  approved : c ∈ s.guard.approved → s.requested c = [] →
    cut ∨ Gmlbroker.Leaving s.gml c ∨ s.Served c

/-- The parties are honest. -/
structure Honest (s : Diode) : Prop where
  gml : Gmlbroker.Wf s.gml
  gcd : Gcdbroker.Wf s.gcd
  registered : Gmlbroker.Registered s.gml
  pending : Gmlbroker.PendingSound Drawn s.gml
  ahead : ∀ msg ∈ s.ahead, Gmlbroker.Sound Drawn msg

section

variable {s : Diode} {c : UInt16} {cut : Prop}

theorem length_of_drawn {id : Bytes} (h : Drawn id) : id.length = 12 := by
  simp only [Drawn, isValidRequestId, Bool.and_eq_true, beq_iff_eq] at h
  exact h.1

theorem trim_of_length {msg : BridgeMessage}
    (h : msg.payload.length ≤ Multiplexer.maxPayloadSize) : trim msg = msg := by
  rw [trim, List.take_of_length_le h]

/-- A request or a SHUTDOWN fits into a datagram. -/
theorem trim_of_asks {msg : BridgeMessage} (h : Gmlbroker.Sound Drawn msg) (hasks : asks c msg = true) :
    trim msg = msg := by
  refine trim_of_length ?_
  simp only [asks, Bool.and_eq_true, Bool.or_eq_true, beq_iff_eq] at hasks
  rcases hasks.2 with hcreate | hshutdown
  · rw [length_of_drawn (h.create hcreate)]
    decide
  · rw [h.shutdown hshutdown]
    decide

theorem trim_of_denies {msg : BridgeMessage} {id : Bytes} (h : Gmlbroker.Denies c id msg)
    (hid : Drawn id) : trim msg = msg := by
  refine trim_of_length ?_
  have hlen : msg.payload.tail.length = 12 := by
    rw [← length_of_drawn hid, ← h.id]
    rfl
  rw [List.length_tail] at hlen
  have hmax : Multiplexer.maxPayloadSize = 1200 := rfl
  omega

theorem asks_trim (c : UInt16) (msg : BridgeMessage) : asks c (trim msg) = asks c msg := rfl

/-- A request or a SHUTDOWN is read back as it was sent. -/
theorem filter_asks_heard {msgs : List BridgeMessage} (h : ∀ msg ∈ msgs, Gmlbroker.Sound Drawn msg)
    (c : UInt16) :
    ((msgs.map Multiplexer.serialize).filterMap heard).filter (asks c) = msgs.filter (asks c) := by
  induction msgs with
  | nil => rfl
  | cons msg msgs ih =>
    have hrest := ih fun m hm => h m (List.mem_cons_of_mem _ hm)
    rw [List.map_cons, List.filterMap_cons, heard_serialize]
    dsimp only
    by_cases hasks : asks c msg = true
    · rw [List.filter_cons_of_pos hasks, ← hrest, trim_of_asks (h msg List.mem_cons_self) hasks,
        List.filter_cons_of_pos hasks]
    · rw [List.filter_cons_of_neg hasks, List.filter_cons_of_neg (asks_trim c msg ▸ hasks), hrest]

-- ════════════════════════════════════════════════════════════════════════
-- gmlbroker moves
-- ════════════════════════════════════════════════════════════════════════

/-- What gmlbroker sends joins what is on its way to the guard. -/
theorem requested_stepGml (ids : ℕ → ℕ → Bytes) (h : Honest s) (e : Gmlbroker.Event) (c : UInt16) :
    (s.stepGml ids e).requested c = s.requested c ++ (s.gml.queued e).toList.filter (asks c) := by
  have hsplit := Gmlbroker.sending_append_unsent s.gml e
  have hsound : ∀ msg ∈ s.gml.sending e, Gmlbroker.Sound Drawn msg := by
    intro msg hmsg
    refine h.ahead msg (List.mem_append_right _ ?_)
    rw [← hsplit]
    exact List.mem_append_left _ hmsg
  have hold : s.requested c = (s.toGuard.filterMap heard).filter (asks c) ++
      ((s.gml.sending e).filter (asks c) ++ (s.gml.unsent e).filter (asks c)) := by
    rw [requested, ahead, ← hsplit]
    simp only [List.filter_append]
  rw [hold]
  simp only [requested, ahead, stepGml, Gmlbroker.sendQueue_step, Gmlbroker.transmitted_step,
    List.filterMap_append, List.filter_append, filter_asks_heard hsound, List.append_assoc]

/-- A denial goes on to its session. -/
theorem Denial.stepGml (ids : ℕ → ℕ → Bytes) (h : Honest s) {e : Gmlbroker.Event} {n : ℕ} {id : Bytes}
    (happlies : s.applies (.gml e) = true) (hasked : Gmlbroker.Asked s.gml c n id)
    (hd : Denial s c n id) : Denial (s.stepGml ids e) c n id := by
  cases hd with
  | relaying msg hhandler hdenies => exact .relaying msg hhandler hdenies
  | queued msg hmem hdenies => exact .queued msg hmem hdenies
  | sent msg hmem hdenies =>
    cases e with
    | datagram data =>
      simp only [applies, beq_iff_eq] at happlies
      obtain ⟨rest, hlink⟩ := List.head?_eq_some_iff.mp happlies
      rw [hlink, List.filterMap_cons] at hmem
      have hrest : Denial (s.stepGml ids (.datagram data)) c n id ∨ heard data = some msg := by
        split at hmem
        · refine .inl (.sent msg ?_ hdenies)
          simpa [Diode.stepGml, Gmlbroker.undelivered, hlink] using hmem
        · next msg' hmsg' =>
          rcases List.mem_cons.mp hmem with rfl | hmem
          · exact .inr hmsg'
          · refine .inl (.sent msg ?_ hdenies)
            simpa [Diode.stepGml, Gmlbroker.undelivered, hlink] using hmem
      rcases hrest with hrest | hheard
      · exact hrest
      · refine .arrived (.received ⟨.bridge, msg⟩ ?_ hdenies)
        have harrival : Gmlbroker.arrival (.datagram data) = some msg := hheard
        simp [Diode.stepGml, Gmlbroker.step, harrival]
    | _ => exact .sent msg hmem hdenies
  | arrived hdenied => exact .arrived (hdenied.step h.gml hasked e)

theorem Coherent.stepGml (ids : ℕ → ℕ → Bytes) (h : Honest s) (hc : Coherent s c cut)
    {e : Gmlbroker.Event} (happlies : s.applies (.gml e) = true) :
    Coherent (s.stepGml ids e) c
      (¬s.gml.requests e = some c ∧ (cut ∨ s.gml.drops e = some c)) := by
  have hrequested := requested_stepGml ids h e c
  cases hq : (s.gml.queued e).toList.filter (asks c) with
  | cons msg rest =>
    -- something new is on its way
    obtain ⟨hmem, hasks⟩ := List.mem_filter.mp (hq ▸ List.mem_cons_self : msg ∈ _)
    have hqueued : s.gml.queued e = some msg := Option.mem_toList.mp hmem
    obtain rfl : rest = [] := by
      rw [hqueued] at hq
      simpa [hasks] using hq.symm
    rw [hq] at hrequested
    have hchannel : msg.channel = c := by
      simp only [asks, Bool.and_eq_true, beq_iff_eq] at hasks
      exact hasks.1
    refine ⟨fun ms msg' heq haction => ?_, fun _ hnil => ?_⟩
    · rw [hrequested] at heq
      cases (List.append_inj' heq rfl).2
      obtain ⟨n, hasked⟩ := Gmlbroker.asked_of_queued h.registered ids h.gml hqueued haction
      rw [hchannel] at hasked
      exact .inr (.inr ⟨n, hasked⟩)
    · rw [hrequested] at hnil
      simp at hnil
  | nil =>
    rw [hq, List.append_nil] at hrequested
    have hno : ∀ msg, s.gml.queued e = some msg → asks c msg ≠ true := by
      intro msg hmsg hasks
      rw [hmsg] at hq
      simp [hasks] at hq
    have hnotAsked : ¬s.gml.requests e = some c := by
      intro hrequests
      obtain ⟨msg, hmsg, hmatch⟩ := Option.bind_eq_some_iff.mp hrequests
      split_ifs at hmatch with haction
      refine hno msg hmsg ?_
      simp [asks, Option.some.inj hmatch, haction]
    have hleaving : Gmlbroker.Leaving s.gml c → Gmlbroker.Leaving (s.stepGml ids e).gml c := by
      intro hleaving
      refine (hleaving.step h.gml e).resolve_right fun hshutdown => hno _ hshutdown ?_
      simp [asks, Gmlbroker.shutdown]
    -- a session that has asked stays, or leaves in one of the two ways
    have hasked : ∀ {n id} {P Q : Prop}, Gmlbroker.Asked s.gml c n id → P →
        (Gmlbroker.Asked (s.stepGml ids e).gml c n id → P → Q) →
        (¬s.gml.requests e = some c ∧ (cut ∨ s.gml.drops e = some c)) ∨
          Gmlbroker.Leaving (s.stepGml ids e).gml c ∨ Q := by
      intro n id P Q hasked hp hq
      rcases hasked.step h.gml e with hnext | hnext | hnext
      · exact .inr (.inr (hq hnext hp))
      · exact .inr (.inl hnext)
      · exact .inl ⟨hnotAsked, .inr hnext⟩
    refine ⟨fun ms msg heq haction => ?_, fun happroved hnil => ?_⟩
    · rw [hrequested] at heq
      rcases hc.request ms msg heq haction with hcut | hl | ⟨n, ha⟩
      · exact .inl ⟨hnotAsked, .inl hcut⟩
      · exact .inr (.inl (hleaving hl))
      · exact hasked ha trivial fun ha' _ => ⟨n, ha'⟩
    · rw [hrequested] at hnil
      rcases hc.approved happroved hnil with hcut | hl | ⟨n, id, ha, hid, hserved⟩
      · exact .inl ⟨hnotAsked, .inl hcut⟩
      · exact .inr (.inl (hleaving hl))
      · refine hasked ha hserved fun ha' hserved => ⟨n, id, ha', hid, ?_⟩
        exact hserved.imp_right fun hd => hd.stepGml ids h happlies ha

-- ════════════════════════════════════════════════════════════════════════
-- The guard moves
-- ════════════════════════════════════════════════════════════════════════

/-- What the guard receives was the oldest message on its way. -/
theorem ahead_stepGuard {e : Guard.Event} (happlies : s.applies (.guard e) = true) :
    s.ahead = (s.guard.received e).toList ++ (s.stepGuard e).ahead := by
  cases e with
  | datagram data =>
    simp only [applies, Bool.and_eq_true, beq_iff_eq] at happlies
    obtain ⟨rest, hlink⟩ := List.head?_eq_some_iff.mp happlies.2
    have hreceived : s.guard.received (.datagram data) = heard data := by
      rw [Guard.received, if_pos happlies.1]
      rfl
    rw [hreceived]
    simp only [ahead, stepGuard, Guard.undelivered, hlink, List.tail_cons, List.filterMap_cons]
    cases heard data <;> rfl
  | _ => rfl

/-- What a step of the guard does to a channel. -/
inductive Guarded (g : Guard) (e : Guard.Event) (g' : Guard) (out : List Bytes) (c : UInt16) : Prop where
  | closed (approved : c ∉ g'.approved)
  | created (msg : BridgeMessage) (received : g.received e = some msg) (channel : msg.channel = c)
      (action : msg.action = .createChannel)
      (emitted : (out.filterMap heard).filter (rules c) =
        [{ channel := c, action := .approval, payload := approvalApprove :: msg.payload }])
  | unchanged (approved : c ∈ g.approved)
      (received : (g.received e).toList.filter (asks c) = [])
      (emitted : (out.filterMap heard).filter (rules c) = [])

theorem filterMap_heard_serialize (msgs : List BridgeMessage) :
    (msgs.map Multiplexer.serialize).filterMap heard = msgs.map trim := by
  induction msgs with
  | nil => rfl
  | cons msg msgs ih =>
    rw [List.map_cons, List.filterMap_cons, heard_serialize, ih]
    rfl

/-- Messages on other channels are no verdicts of this one. -/
theorem filter_heard_of_ne (msgs : List BridgeMessage) {c : UInt16}
    (h : ∀ msg ∈ msgs, msg.channel ≠ c) :
    ((msgs.map Multiplexer.serialize).filterMap heard).filter (rules c) = [] := by
  rw [filterMap_heard_serialize, List.filter_eq_nil_iff]
  intro msg hmsg
  obtain ⟨m, hm, rfl⟩ := List.mem_map.mp hmsg
  simp [rules, trim, h m hm]

theorem guarded_step {g g' : Guard} {e : Guard.Event} {out : List Bytes} (h : Guard.Outcome g e g' out)
    (hsound : ∀ msg, g.received e = some msg → Gmlbroker.Sound Drawn msg) (c : UInt16) :
    Guarded g e g' out c := by
  -- a message on another channel
  have hother : ∀ {msg : BridgeMessage}, g.received e = some msg → msg.channel ≠ c →
      c ∈ g.approved → (out.filterMap heard).filter (rules c) = [] → Guarded g e g' out c := by
    intro msg hreceived hne happroved hemitted
    refine .unchanged happroved ?_ hemitted
    simp [hreceived, asks, hne]
  by_cases happroved : c ∈ g'.approved
  · cases h with
    | quiet _ _ ha hevent =>
      refine .unchanged (ha ▸ happroved) ?_ rfl
      rw [List.filter_eq_nil_iff]
      intro msg hmsg hasks
      have hreceived : g.received e = some msg := Option.mem_toList.mp hmsg
      simp only [asks, Bool.and_eq_true, Bool.or_eq_true, beq_iff_eq] at hasks
      have hnone := hevent c
      rw [Guard.channelEvent_of_received hreceived, if_pos hasks.1, Guard.messageEvent] at hnone
      rcases hasks.2 with hcreate | hshutdown
      · have hvalid : isValidRequestId msg.payload = true := (hsound msg hreceived).create hcreate
        simp [hcreate, hvalid] at hnone
      · simp [hshutdown] at hnone
    | approvedCreate msg hreceived haction hvalid happrove _ _ ha =>
      by_cases hchannel : msg.channel = c
      · have hheard := filterMap_heard_serialize [msg, g.approvalFor msg]
        simp only [List.map_cons, List.map_nil] at hheard
        refine .created msg hreceived hchannel haction ?_
        have hfor : g.approvalFor msg =
            { channel := c, action := .approval, payload := approvalApprove :: msg.payload } := by
          simp [Guard.approvalFor, happrove, hchannel]
        have hlength : (g.approvalFor msg).payload.length ≤ Multiplexer.maxPayloadSize := by
          rw [hfor, List.length_cons, length_of_drawn hvalid]
          decide
        rw [hheard, trim_of_length hlength, hfor]
        simp [rules, trim, haction]
      · rw [ha, Finset.mem_insert, Finset.mem_erase] at happroved
        exact hother hreceived hchannel (happroved.resolve_left fun h => hchannel h.symm).2
          (filter_heard_of_ne [msg, g.approvalFor msg] (by simp [Guard.approvalFor, hchannel]))
    | deniedCreate msg hreceived _ _ _ _ _ ha =>
      rw [ha, Finset.mem_erase] at happroved
      have hne : msg.channel ≠ c := Ne.symm happroved.1
      exact hother hreceived hne happroved.2
        (filter_heard_of_ne [msg, g.approvalFor msg, { channel := msg.channel, action := .shutdownChannel }]
          (by simp [Guard.approvalFor, hne]))
    | closed msg hreceived _ _ _ ha =>
      rw [ha, Finset.mem_erase] at happroved
      have hne : msg.channel ≠ c := Ne.symm happroved.1
      exact hother hreceived hne happroved.2 (filter_heard_of_ne [msg] (by simp [hne]))
    | corrupted msg hreceived _ _ _ _ _ ha =>
      rw [ha, Finset.mem_erase] at happroved
      have hne : msg.channel ≠ c := Ne.symm happroved.1
      exact hother hreceived hne happroved.2
        (filter_heard_of_ne [{ channel := msg.channel, action := .shutdownChannel }] (by simp [hne]))
    | relayed msg payload parser hreceived haction _ _ _ _ ha _ hemitted =>
      have hnone : msg.action = .none := haction.resolve_right (hsound msg hreceived).approval
      refine .unchanged (ha ▸ happroved) ?_ ?_
      · simp [hreceived, asks, hnone]
      · rcases hemitted with rfl | ⟨rfl, -⟩
        · have hheard := filterMap_heard_serialize [{ msg with payload := payload }]
          simp only [List.map_cons, List.map_nil] at hheard
          rw [hheard]
          simp [rules, trim, hnone]
        · rfl
    | tornDown _ _ _ _ _ ha => simp [ha] at happroved
    | halted _ _ _ _ _ ha => simp [ha] at happroved
  · exact .closed happroved

theorem Coherent.stepGuard (h : Honest s) (hc : Coherent s c cut) {e : Guard.Event}
    (happlies : s.applies (.guard e) = true) : Coherent (s.stepGuard e) c cut := by
  have hahead := ahead_stepGuard happlies
  have hsplit : s.requested c = (s.guard.received e).toList.filter (asks c) ++
      (s.stepGuard e).requested c := by
    rw [requested, hahead, List.filter_append]
    rfl
  have hsound : ∀ msg, s.guard.received e = some msg → Gmlbroker.Sound Drawn msg := by
    intro msg hmsg
    refine h.ahead msg ?_
    rw [hahead, hmsg]
    exact List.mem_append_left _ (by simp)
  have hverdicts : (s.stepGuard e).verdicts c = s.verdicts c ++
      ((s.guard.step e).2.filterMap heard).filter (rules c) := by
    simp only [verdicts, Diode.stepGuard, List.filterMap_append, List.filter_append,
      List.append_assoc]
  refine ⟨fun ms msg heq haction => ?_, fun happroved hnil => ?_⟩
  · refine hc.request ((s.guard.received e).toList.filter (asks c) ++ ms) msg ?_ haction
    rw [hsplit, heq, List.append_assoc]
  · cases guarded_step (Guard.outcome s.guard e) hsound c with
    | closed hclosed => exact absurd happroved hclosed
    | created msg hreceived hchannel haction hemitted =>
      -- the request was the last message on its way
      have hlast : s.requested c = [] ++ [msg] := by
        rw [hsplit, hnil, hreceived]
        simp [asks, hchannel, haction]
      rcases hc.request [] msg hlast haction with hcut | hl | ⟨n, ha⟩
      · exact .inl hcut
      · exact .inr (.inl hl)
      · refine .inr (.inr ⟨n, msg.payload, ha, (hsound msg hreceived).create haction, .inl (.inr ?_)⟩)
        rw [hemitted] at hverdicts
        exact ⟨s.verdicts c, _, hverdicts, rfl, rfl⟩
    | unchanged hbefore hreceived hemitted =>
      have hold : s.requested c = [] := by
        rw [hsplit, hnil, hreceived]
        rfl
      rw [hemitted, List.append_nil] at hverdicts
      rcases hc.approved hbefore hold with hcut | hl | ⟨n, id, ha, hid, hserved⟩
      · exact .inl hcut
      · exact .inr (.inl hl)
      · refine .inr (.inr ⟨n, id, ha, hid, ?_⟩)
        rcases hserved with hbinds | hd
        · refine .inl ?_
          rw [Binds, hverdicts]
          exact hbinds
        · refine .inr ?_
          cases hd with
          | relaying msg hhandler hdenies => exact .relaying msg hhandler hdenies
          | queued msg hmem hdenies => exact .queued msg hmem hdenies
          | sent msg hmem hdenies => exact .sent msg hmem hdenies
          | arrived hdenied => exact .arrived hdenied

-- ════════════════════════════════════════════════════════════════════════
-- gcdbroker moves
-- ════════════════════════════════════════════════════════════════════════

/-- What gcdbroker receives was the oldest datagram on its link. -/
theorem heard_undelivered {e : Gcdbroker.Event} (happlies : s.applies (.gcd e) = true) :
    s.toGcd.filterMap heard = (Gcdbroker.arrival e).toList ++
      (Gcdbroker.undelivered s.toGcd e).filterMap heard := by
  cases e with
  | datagram data =>
    simp only [applies, beq_iff_eq] at happlies
    obtain ⟨rest, hlink⟩ := List.head?_eq_some_iff.mp happlies
    have harrival : Gcdbroker.arrival (.datagram data) = heard data := rfl
    simp only [Gcdbroker.undelivered, hlink, List.tail_cons, List.filterMap_cons, harrival]
    cases heard data <;> rfl
  | _ => rfl

/-- The first verdict on the way has been handled; the last one stays the last one. -/
theorem Binds.of_head {s' : Diode} {msg : BridgeMessage} {id : Bytes} {P : Prop} (h : Binds s c id)
    (hverdicts : s.verdicts c = [msg].filter (rules c) ++ s'.verdicts c)
    (hother : rules c msg = false → s'.gcd.table c = s.gcd.table c)
    (hlast : rules c msg = true → s'.verdicts c = [] → msg.action = .approval →
      msg.payload = approvalApprove :: id → Binds s' c id ∨ P) : Binds s' c id ∨ P := by
  cases hrules : rules c msg with
  | false =>
    rw [List.filter_cons_of_neg (by simp [hrules]), List.filter_nil, List.nil_append] at hverdicts
    rw [Binds, hverdicts, ← hother hrules] at h
    exact .inl h
  | true =>
    rw [List.filter_cons_of_pos hrules, List.filter_nil, List.singleton_append] at hverdicts
    rcases h with ⟨hnil, -⟩ | ⟨ms, last, heq, haction, hpayload⟩
    · cases hnil.symm.trans hverdicts
    · rcases List.eq_nil_or_concat (s'.verdicts c) with hnil | ⟨rest, last', hrest⟩
      · rw [hverdicts, hnil, ← List.nil_append [msg]] at heq
        obtain ⟨-, hone⟩ := List.append_inj' heq rfl
        cases hone
        exact hlast hrules hnil haction hpayload
      · rw [hverdicts, hrest, List.concat_eq_append, ← List.cons_append] at heq
        obtain ⟨-, hone⟩ := List.append_inj' heq rfl
        cases hone
        refine .inl (.inr ⟨rest, last, ?_, haction, hpayload⟩)
        rw [hrest, List.concat_eq_append]

/-- A refused approval is relayed as a denial. -/
theorem denies_downgrade {msg : BridgeMessage} {id : Bytes} (hrules : rules c msg = true)
    (haction : msg.action = .approval) (hpayload : msg.payload = approvalApprove :: id) :
    Gmlbroker.Denies c id (Gcdbroker.downgrade msg) := by
  simp only [rules, Bool.and_eq_true, beq_iff_eq] at hrules
  have hpayload' : (Gcdbroker.downgrade msg).payload = approvalDeny :: id := by
    simp [Gcdbroker.downgrade, hpayload]
  refine ⟨hrules.1, haction, ?_, ?_⟩
  · rw [Gmlbroker.verdict, hpayload']
    show approvalDeny ≠ approvalApprove
    decide
  · rw [Gmlbroker.verdictId, hpayload']
    rfl

theorem Binds.stepGcd (h : Honest s) {e : Gcdbroker.Event} {n : ℕ} {id : Bytes}
    (happlies : s.applies (.gcd e) = true) (hb : Binds s c id) :
    Binds (s.stepGcd e) c id ∨ Denial (s.stepGcd e) c n id ∨ s.gcd.drops e = some c := by
  have hheard := heard_undelivered happlies
  have hverdicts : ∀ {msg}, Gcdbroker.arrival e = none →
      s.gcd.unhandled = msg :: (s.gcd.step e).1.unhandled →
      s.verdicts c = [msg].filter (rules c) ++ (s.stepGcd e).verdicts c := by
    intro msg hnone hhead
    rw [hnone, Option.toList_none, List.nil_append] at hheard
    rw [verdicts, hhead, hheard, ← List.singleton_append, List.append_assoc, List.filter_append]
    rfl
  have hotherTable : ∀ {msg : BridgeMessage} (fd : Option ℕ), rules c msg = false →
      (msg.action = .shutdownChannel ∨ msg.action = .approval) →
      Function.update s.gcd.table msg.channel fd c = s.gcd.table c := by
    intro msg fd hrules haction
    refine Function.update_of_ne ?_ ..
    rintro rfl
    rcases haction with haction | haction <;> simp [rules, haction] at hrules
  cases Gcdbroker.binding_step h.gcd e with
  | queue msgs hunhandled hplain harrives htable =>
    refine .inl ?_
    have hsame : (s.stepGcd e).verdicts c = s.verdicts c := by
      have hmsgs : msgs.filter (rules c) = (Gcdbroker.arrival e).toList.filter (rules c) := by
        cases harrival : Gcdbroker.arrival e with
        | some msg => rw [harrives msg harrival, Option.toList_some]
        | none =>
          rw [Option.toList_none, List.filter_nil, List.filter_eq_nil_iff]
          intro msg hmsg
          rcases hplain msg hmsg with hsome | haction
          · cases harrival.symm.trans hsome
          · simp [rules, haction]
      rw [verdicts, verdicts, hheard]
      simp only [Diode.stepGcd, hunhandled, List.filter_append, hmsgs, List.append_assoc]
    have htable' : (s.stepGcd e).gcd.table c = s.gcd.table c := congrFun htable c
    rw [Binds, hsame, htable']
    exact hb
  | drop hquiet c' hunhandled htable hgiven =>
    have hsame : (s.stepGcd e).verdicts c = s.verdicts c := by
      rw [hquiet, Option.toList_none, List.nil_append] at hheard
      rw [verdicts, verdicts, hheard]
      simp only [Diode.stepGcd, hunhandled]
    by_cases hcc : s.gcd.drops e = some c
    · exact .inr (.inr hcc)
    · -- the channel of another one, or one that was not bound
      have htable' : (s.stepGcd e).gcd.table c = s.gcd.table c := by
        show (s.gcd.step e).1.table c = s.gcd.table c
        rw [htable]
        by_cases hc' : c = c'
        · subst hc'
          rw [Function.update_self, hgiven.resolve_left hcc]
        · exact Function.update_of_ne hc' ..
      refine .inl ?_
      rw [Binds, hsame, htable']
      exact hb
  | skip hquiet msg hunhandled haction htable =>
    have hrules : rules c msg = false := by
      rcases haction with haction | haction <;> simp [rules, haction]
    refine (hb.of_head (hverdicts hquiet hunhandled) (fun _ => congrFun htable c) ?_).imp_right .inl
    intro hr
    cases hr.symm.trans hrules
  | shut hquiet msg hunhandled haction htable =>
    refine (hb.of_head (hverdicts hquiet hunhandled) (fun hr => ?_) ?_).imp_right .inl
    · exact (congrFun htable c).trans (hotherTable _ hr (.inl haction))
    · intro _ _ happroval
      cases haction.symm.trans happroval
  | deny hquiet msg hunhandled haction hverdict htable =>
    refine (hb.of_head (hverdicts hquiet hunhandled) (fun _ => congrFun htable c) ?_).imp_right .inl
    intro _ _ _ hpayload
    rw [Gcdbroker.verdict, hpayload] at hverdict
    exact absurd rfl hverdict
  | refuse hquiet msg hunhandled haction hverdict hhandler htable =>
    refine (hb.of_head (hverdicts hquiet hunhandled) (fun _ => congrFun htable c) ?_).imp_right .inl
    intro hrules _ _ hpayload
    exact .inr (.relaying _ hhandler (denies_downgrade hrules haction hpayload))
  | bind hquiet msg fd hunhandled haction hverdict htable =>
    refine (hb.of_head (hverdicts hquiet hunhandled) (fun hr => ?_) ?_).imp_right .inl
    · exact (congrFun htable c).trans (hotherTable _ hr (.inr haction))
    · intro hrules hnil _ _
      refine .inl (.inl ⟨hnil, ?_⟩)
      simp only [rules, Bool.and_eq_true, beq_iff_eq] at hrules
      show (s.gcd.step e).1.table c ≠ none
      rw [htable, ← hrules.1, Function.update_self]
      exact Option.some_ne_none fd

/-- A denial goes on to gmlbroker. -/
theorem Denial.stepGcd {e : Gcdbroker.Event} {n : ℕ} {id : Bytes} (hid : Drawn id)
    (hd : Denial s c n id) : Denial (s.stepGcd e) c n id := by
  have hqueue := Gcdbroker.sendQueue_step s.gcd e
  cases hd with
  | relaying msg hhandler hdenies =>
    rcases Gcdbroker.relaying_step hhandler e with hsame | hmem
    · exact .relaying msg hsame hdenies
    · refine .queued msg ?_ hdenies
      show msg ∈ (s.gcd.step e).1.sendQueue
      rw [hqueue]
      exact List.mem_append_right _ hmem
  | queued msg hmem hdenies =>
    by_cases he : e = .transmit
    · subst he
      cases hq : s.gcd.sendQueue with
      | nil =>
        rw [hq] at hmem
        cases hmem
      | cons first rest =>
        rw [hq] at hmem
        rcases List.mem_cons.mp hmem with rfl | hmem
        · refine .sent msg ?_ hdenies
          have hheard := heard_serialize msg
          rw [trim_of_denies hdenies hid] at hheard
          simp [Diode.stepGcd, Gcdbroker.step, hq, Gcdbroker.transmitted, hheard]
        · refine .queued msg ?_ hdenies
          show msg ∈ (s.gcd.step .transmit).1.sendQueue
          simpa [Gcdbroker.step, hq] using hmem
    · refine .queued msg ?_ hdenies
      have hunsent : s.gcd.unsent e = s.gcd.sendQueue := by
        cases e with
        | transmit => exact absurd rfl he
        | _ => rfl
      show msg ∈ (s.gcd.step e).1.sendQueue
      rw [hqueue, hunsent]
      exact List.mem_append_left _ hmem
  | sent msg hmem hdenies =>
    refine .sent msg ?_ hdenies
    show msg ∈ (s.toGml ++ _).filterMap heard
    rw [List.filterMap_append]
    exact List.mem_append_left _ hmem
  | arrived hdenied => exact .arrived hdenied

theorem Coherent.stepGcd (h : Honest s) (hc : Coherent s c cut) {e : Gcdbroker.Event}
    (happlies : s.applies (.gcd e) = true) :
    Coherent (s.stepGcd e) c (cut ∨ s.gcd.drops e = some c) := by
  refine ⟨fun ms msg heq haction => ?_, fun happroved hnil => ?_⟩
  · exact (hc.request ms msg heq haction).imp_left .inl
  · rcases hc.approved happroved hnil with hcut | hl | ⟨n, id, ha, hid, hb | hd⟩
    · exact .inl (.inl hcut)
    · exact .inr (.inl hl)
    · rcases hb.stepGcd (n := n) h happlies with hb | hd | hdrops
      · exact .inr (.inr ⟨n, id, ha, hid, .inl hb⟩)
      · exact .inr (.inr ⟨n, id, ha, hid, .inr hd⟩)
      · exact .inl (.inr hdrops)
    · exact .inr (.inr ⟨n, id, ha, hid, .inr (hd.stepGcd hid)⟩)

-- ════════════════════════════════════════════════════════════════════════
-- Whole runs
-- ════════════════════════════════════════════════════════════════════════

theorem draws_of_applies {e : Gmlbroker.Event} (h : s.applies (.gml e) = true) :
    Gmlbroker.Draws Drawn e := by
  cases e with
  | wake n wake =>
    cases wake with
    | read data requestId => exact h
    | _ => trivial
  | _ => trivial

theorem sound_stepGml (ids : ℕ → ℕ → Bytes) (h : Honest s) (e : Gmlbroker.Event) :
    ∀ msg ∈ (s.stepGml ids e).ahead, Gmlbroker.Sound Drawn msg := by
  have hsplit := Gmlbroker.sending_append_unsent s.gml e
  have hold : ∀ msg ∈ s.gml.sendQueue, Gmlbroker.Sound Drawn msg :=
    fun msg hmsg => h.ahead msg (List.mem_append_right _ hmsg)
  intro msg hmsg
  simp only [ahead, stepGml, Gmlbroker.sendQueue_step, Gmlbroker.transmitted_step,
    List.filterMap_append, filterMap_heard_serialize, List.mem_append] at hmsg
  rcases hmsg with (hmsg | hmsg) | hmsg | hmsg
  · exact h.ahead msg (List.mem_append_left _ hmsg)
  · obtain ⟨msg', hmem, rfl⟩ := List.mem_map.mp hmsg
    have hsound : Gmlbroker.Sound Drawn msg' := hold msg' (hsplit ▸ List.mem_append_left _ hmem)
    refine ⟨hsound.approval, fun haction => ?_, fun haction => ?_⟩
    · rw [trim_of_asks (c := msg'.channel) hsound (by simpa [asks] using .inl haction)]
      exact hsound.create haction
    · rw [trim_of_asks (c := msg'.channel) hsound (by simpa [asks] using .inr haction)]
      exact hsound.shutdown haction
  · exact hold msg (hsplit ▸ List.mem_append_right _ hmsg)
  · exact h.pending.queued (Option.mem_toList.mp hmsg)

theorem Honest.step (ids : ℕ → ℕ → Bytes) (h : Honest s) (e : Event) : Honest (s.step ids e).1 := by
  unfold Diode.step
  split_ifs with happlies
  · cases e with
    | gml e =>
      exact ⟨h.gml.step ids e, h.gcd, h.registered.step ids h.gml e,
        h.pending.step h.gml (draws_of_applies happlies), sound_stepGml ids h e⟩
    | guard e =>
      refine ⟨h.gml, h.gcd, h.registered, h.pending, fun msg hmsg => h.ahead msg ?_⟩
      rw [ahead_stepGuard happlies]
      exact List.mem_append_right _ hmsg
    | gcd e => exact ⟨h.gml, h.gcd.step e, h.registered, h.pending, h.ahead⟩
  · exact h

theorem Coherent.mono {cut' : Prop} (h : Coherent s c cut) (hcut : cut → cut') :
    Coherent s c cut' :=
  ⟨fun ms msg heq haction => (h.request ms msg heq haction).imp_left hcut,
    fun happroved hnil => (h.approved happroved hnil).imp_left hcut⟩

theorem Coherent.step (ids : ℕ → ℕ → Bytes) (h : Honest s) (hc : Coherent s c cut) (e : Event) :
    Coherent (s.step ids e).1 c (¬s.requests e = some c ∧ (cut ∨ s.drops e = some c)) := by
  unfold Diode.step
  split_ifs with happlies
  · cases e with
    | gml e => exact hc.stepGml ids h happlies
    | guard e => exact (hc.stepGuard h happlies).mono fun hcut => ⟨by simp [requests], .inl hcut⟩
    | gcd e => exact (hc.stepGcd h happlies).mono fun hcut => ⟨by simp [requests], hcut⟩
  · -- an event that requests a channel always applies
    have hrequests : s.requests e ≠ some c := by
      cases e with
      | gml e =>
        cases e with
        | perform n => exact absurd rfl happlies
        | _ => exact nofun
      | _ => exact nofun
    exact hc.mono fun hcut => ⟨hrequests, .inl hcut⟩

end

theorem honest_run (ids : ℕ → ℕ → Bytes) (es : List Event) : Honest ((machine ids).run es) := by
  refine Machine.invariant (M := machine ids) (P := fun _ s => Honest s) ?_
    (fun _ e h => h.step ids e) es
  refine ⟨Gmlbroker.wf_run ids [], Gcdbroker.wf_run [], ?_, ?_, ?_⟩
  · intro n session msg hn
    cases hn
  · intro n session hn
    cases hn
  · intro msg hmsg
    cases hmsg

theorem coherent_run (ids : ℕ → ℕ → Bytes) (c : UInt16) (es : List Event) :
    Coherent ((machine ids).run es) c (severed ids c es = true) := by
  refine Machine.invariant (M := machine ids)
    (P := fun es s => Coherent s c (severed ids c es = true)) ?_ (fun es e h => ?_) es
  · refine ⟨fun ms msg heq _ => ?_, fun happroved _ => ?_⟩
    · have hnil : ms ++ [msg] = [] := heq.symm
      simp at hnil
    · simp [machine] at happroved
  · refine (h.step ids (honest_run ids es) e).mono ?_
    rintro ⟨hrequests, hcut⟩
    rw [severed, Machine.observe_snoc, if_neg hrequests]
    rcases hcut with hcut | hcut
    · rw [severed] at hcut
      rw [hcut, Bool.true_or]
    · rw [hcut]
      simp

/-- gcdbroker maps a channel to a connection of guacd whose reader has not left. -/
def Connected (s : Diode) (c : UInt16) : Prop :=
  ∃ fd k r, s.gcd.table c = some fd ∧ s.gcd.sockets fd = some k ∧ s.gcd.readers k = some r ∧
    r.channel = c ∧ r.fd = fd

/-- gmlbroker has a session on a channel, and its reader has not left its loop. -/
def Attended (s : Diode) (c : UInt16) : Prop :=
  ∃ n session, s.gml.table c = some n ∧ s.gml.sessions n = some session ∧ session.channel = c ∧
    session.started = true ∧ session.reader.closed = false

theorem Denial.not_quiet {s : Diode} {c : UInt16} {n : ℕ} {id : Bytes} (h : Denial s c n id)
    (hasked : Gmlbroker.Asked s.gml c n id) : ¬Quiet s := by
  intro hq
  cases h with
  | relaying msg hhandler => cases hq.gcd.2.2.symm.trans hhandler
  | queued msg hmem =>
    rw [hq.gcd.2.1] at hmem
    cases hmem
  | sent msg hmem =>
    rw [hq.links.2.2] at hmem
    cases hmem
  | arrived hdenied =>
    cases hdenied with
    | received item hmem =>
      rw [hq.gml.1] at hmem
      cases hmem
    | busy item hhandler => cases hq.gml.2.2.symm.trans hhandler
    | matched item hhandler => cases hq.gml.2.2.symm.trans hhandler
    | holding item mails hhandler => cases hq.gml.2.2.symm.trans hhandler
    | torn session hn hteardown =>
      obtain ⟨session₀, hn₀, hc⟩ := hasked.session
      cases hn.symm.trans hn₀
      cases ((hq.sessions n session hn).2 hteardown).symm.trans hc.running

/-- Where nothing is on its way, an approved channel is bound, and its session has not left. -/
theorem Coherent.served {s : Diode} {c : UInt16} (hc : Coherent s c False)
    (hq : Quiet s) (happroved : c ∈ s.guard.approved) :
    s.gcd.table c ≠ none ∧ ∃ n id, Gmlbroker.Asked s.gml c n id := by
  have hrequested : s.requested c = [] := by
    rw [requested, ahead, hq.links.1, hq.gml.2.1]
    rfl
  have hverdicts : s.verdicts c = [] := by
    rw [verdicts, Gcdbroker.unhandled, hq.gcd.2.2, hq.gcd.1, hq.links.2.1]
    rfl
  rcases hc.approved happroved hrequested with hcut | ⟨n, session, hn, hmem⟩ |
    ⟨n, id, hasked, -, hserved⟩
  · exact hcut.elim
  · rw [(hq.sessions n session hn).1] at hmem
    cases hmem
  · refine ⟨?_, n, id, hasked⟩
    rcases hserved with (⟨-, htable⟩ | ⟨ms, msg, heq, -⟩) | hd
    · exact htable
    · rw [hverdicts] at heq
      simp at heq
    · exact absurd hq (hd.not_quiet hasked)

/-- In every state that a run reaches with no message on its way, an approved channel has a
parser, a connection and a session, unless it has been given up since its last request: by
gcdbroker of its own accord, or by gmlbroker at the wish of gcdbroker. -/
theorem agreement (ids : ℕ → ℕ → Bytes) (es : List Event) (c : UInt16)
    (hquiet : Quiet ((machine ids).run es)) (h : c ∈ ((machine ids).run es).guard.approved)
    (hsevered : severed ids c es = false) :
    ((machine ids).run es).guard.parsers c ≠ none ∧ Connected ((machine ids).run es) c ∧
      Attended ((machine ids).run es) c := by
  have hhonest := honest_run ids es
  have hcoherent := (coherent_run ids c es).mono (by simp [hsevered] : _ → False)
  obtain ⟨htable, n, id, hasked⟩ := hcoherent.served hquiet h
  obtain ⟨fd, hfd⟩ := Option.ne_none_iff_exists'.mp htable
  obtain ⟨k, r, hsocket, hreader, hr, hchannel, -⟩ := hhonest.gcd.listed c fd hfd
  obtain ⟨session, hn, hcommitted⟩ := hasked.session
  refine ⟨?_, ⟨fd, k, r, hfd, hsocket, hreader, hchannel, hr⟩, n, session,
    hasked.table hhonest.gml, hn, hcommitted.channel, hcommitted.started, hcommitted.running⟩
  rw [guard_run] at h ⊢
  exact (Guard.consistent_run _).entry c h

/-- The id of the first request. -/
def firstId : Bytes := ascii "0a1b2c3d4e5f"

/-- The approval of the first request. -/
def firstVerdict : Bytes :=
  Multiplexer.serialize { channel := 0, action := .approval, payload := approvalApprove :: firstId }

/-- The request of the first session. -/
def firstRequest : Bytes :=
  Multiplexer.serialize { channel := 0, action := .createChannel, payload := firstId }

/-- The first session asks, is approved and gets its connection. -/
def openedRun : List Event :=
  [.gml .accept, .gml .register, .gml .register,
    .gml (.wake 0 (.read (ascii "7.connect,2.vm;") firstId)), .gml (.perform 0), .gml (.perform 0),
    .gml (.perform 0), .gml .transmit, .guard (.poll []), .guard (.datagram firstRequest),
    .gcd (.datagram firstRequest), .gcd (.datagram firstVerdict), .gcd .handle, .gcd .handle,
    .gcd .handle, .gcd (.dial (some 5)), .gcd .handle, .gcd .handle, .gcd .transmit,
    .gml (.datagram firstVerdict), .gml .handle, .gml .handle]

/-- guacd closes the connection, and the session is torn down. -/
def endedByGuacd : List Event :=
  [.gcd (.receive 0 [] false), .gcd (.read 0), .gcd (.read 0), .gcd (.read 0), .gcd .transmit,
    .gml (.datagram (Multiplexer.serialize { channel := 0, action := .shutdownChannel })),
    .gml .handle, .gml .handle, .gml .handle, .gml .handle, .gml (.wake 0 (.drain none)),
    .gml (.perform 0), .gml (.perform 0), .gml (.perform 0), .gml (.perform 0)]

theorem quiet_of_one_session (ids : ℕ → ℕ → Bytes) (es : List Event)
    (hlinks : ((machine ids).run es).toGuard = [] ∧ ((machine ids).run es).toGcd = [] ∧
      ((machine ids).run es).toGml = [])
    (hgml : ((machine ids).run es).gml.recvQueue = [] ∧ ((machine ids).run es).gml.sendQueue = [] ∧
      ((machine ids).run es).gml.handler = .waiting)
    (hgcd : ((machine ids).run es).gcd.recvQueue = [] ∧ ((machine ids).run es).gcd.sendQueue = [] ∧
      ((machine ids).run es).gcd.handler = .waiting)
    (haccepted : ((machine ids).run es).gml.accepted = 1)
    (hsession : (((machine ids).run es).gml.sessions 0).map (fun session =>
      decide (session.pending = [] ∧ (session.mailbox.teardown = true → session.reader.closed = true))) =
        some true) : Quiet ((machine ids).run es) := by
  refine ⟨hlinks, hgml, hgcd, fun n session hn => ?_⟩
  have hlt := (honest_run ids es).gml.number n _ (Gmlbroker.holders_eq hn)
  obtain rfl : n = 0 := by omega
  rw [hn, Option.map_some] at hsession
  exact of_decide_eq_true (Option.some.inj hsession)

theorem quiet_openedRun : Quiet ((machine fun _ _ => []).run openedRun) := by
  apply quiet_of_one_session
  all_goals decide +kernel

/-- An approved channel in use. -/
theorem agreement_openedRun :
    0 ∈ ((machine fun _ _ => []).run openedRun).guard.approved ∧
      Connected ((machine fun _ _ => []).run openedRun) 0 ∧
      Attended ((machine fun _ _ => []).run openedRun) 0 := by
  have happroved : 0 ∈ ((machine fun _ _ => []).run openedRun).guard.approved := by decide +kernel
  have hsevered : severed (fun _ _ => []) 0 openedRun = false := by decide +kernel
  have hagreement := agreement (fun _ _ => []) openedRun 0 quiet_openedRun happroved hsevered
  exact ⟨happroved, hagreement.2⟩

/-- The guard does not learn that guacd has closed the connection. -/
theorem not_agreement_endedByGuacd :
    Quiet ((machine fun _ _ => []).run (openedRun ++ endedByGuacd)) ∧
      0 ∈ ((machine fun _ _ => []).run (openedRun ++ endedByGuacd)).guard.approved ∧
      ¬Connected ((machine fun _ _ => []).run (openedRun ++ endedByGuacd)) 0 ∧
      ¬Attended ((machine fun _ _ => []).run (openedRun ++ endedByGuacd)) 0 := by
  have hgcd : ((machine fun _ _ => []).run (openedRun ++ endedByGuacd)).gcd.table 0 = none := by
    decide +kernel
  have hgml : ((machine fun _ _ => []).run (openedRun ++ endedByGuacd)).gml.table 0 = none := by
    decide +kernel
  refine ⟨?_, by decide +kernel, ?_, ?_⟩
  · apply quiet_of_one_session
    all_goals decide +kernel
  · rintro ⟨fd, k, r, hfd, -⟩
    cases hgcd.symm.trans hfd
  · rintro ⟨n, session, hn, -⟩
    cases hgml.symm.trans hn

end Diode

end GuacamoleDiode
