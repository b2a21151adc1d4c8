import GuacamoleDiode.Guard.Loop
import GuacamoleDiode.Guard.Policy

/-!
# What one step of the guard can do

`Outcome` lists everything that a step of the guard does to its channels, together
with what it emits. All invariants of the guard are derived from it.
-/

namespace GuacamoleDiode

open Wire

namespace Guard

/-- The message that the main thread receives in a step. -/
def received (g : Guard) : Event → Option BridgeMessage
  | .datagram data =>
    if g.receiving then Multiplexer.tryCast (UDPReceiver.receive bufferSize data) else none
  | _ => none

/-- What happens to a channel. -/
inductive ChannelEvent where
  /-- a CREATE with a valid request id, and the decision on it -/
  | created (approved : Bool)
  | shutdown
  | corrupted
  /-- a global deny has been handled -/
  | denied
  deriving DecidableEq, Repr

/-- The parser that a payload on a channel goes through. -/
def parser (g : Guard) (c : UInt16) : OpcodeParser GuardMembers :=
  (g.parsers c).getD GuardOpcodeParser.fresh

/-- What a message does to its channel. -/
def messageEvent (g : Guard) (msg : BridgeMessage) : Option ChannelEvent :=
  match msg.action with
  | .createChannel =>
    if isValidRequestId msg.payload then
      some (.created (Approver.handleRequest g.approve msg.payload).approved)
    else none
  | .shutdownChannel => some .shutdown
  | .none | .approval =>
    if msg.channel ∉ g.poisoned ∧ msg.channel ∈ g.approved ∧
        ((g.parser msg.channel).parse GuardOpcodeParser.hooks msg.payload).1 = .streamCorrupted then
      some .corrupted
    else none

/-- What a step does to a channel. -/
def channelEvent (g : Guard) (e : Event) (c : UInt16) : Option ChannelEvent :=
  match e with
  | .datagram _ =>
    match g.received e with
    | some msg => if msg.channel = c then g.messageEvent msg else none
    | none => none
  | .poll order =>
    if g.receiving = false ∧ g.stopped = false ∧ g.denyTeardown = true ∧ g.Visits order then
      some .denied
    else none
  | _ => none

/-- The approval that answers a CREATE. -/
def approvalFor (g : Guard) (msg : BridgeMessage) : BridgeMessage where
  channel := msg.channel
  action := .approval
  payload := (if (Approver.handleRequest g.approve msg.payload).approved then approvalApprove
    else approvalDeny) :: msg.payload

/-- Everything that a step can do to the channels. -/
inductive Outcome (g : Guard) (e : Event) : Guard → List Bytes → Prop where
  | quiet {g' : Guard} (parsers : g'.parsers = g.parsers) (poisoned : g'.poisoned = g.poisoned)
      (approved : g'.approved = g.approved) (event : ∀ c, g.channelEvent e c = none) :
      Outcome g e g' []
  | approvedCreate {g' : Guard} (msg : BridgeMessage) (received : g.received e = some msg)
      (action : msg.action = .createChannel) (valid : isValidRequestId msg.payload = true)
      (verdict : g.approve = true)
      (parsers : g'.parsers =
        Function.update g.parsers msg.channel (some GuardOpcodeParser.fresh))
      (poisoned : g'.poisoned = g.poisoned.erase msg.channel)
      (approved : g'.approved = insert msg.channel (g.approved.erase msg.channel))
      (event : ∀ c, g.channelEvent e c =
        if msg.channel = c then some (.created true) else none) :
      Outcome g e g' [Multiplexer.serialize msg, Multiplexer.serialize (g.approvalFor msg)]
  | deniedCreate {g' : Guard} (msg : BridgeMessage) (received : g.received e = some msg)
      (action : msg.action = .createChannel) (valid : isValidRequestId msg.payload = true)
      (verdict : g.approve = false) (parsers : g'.parsers = Function.update g.parsers msg.channel none)
      (poisoned : g'.poisoned = g.poisoned.erase msg.channel)
      (approved : g'.approved = g.approved.erase msg.channel)
      (event : ∀ c, g.channelEvent e c =
        if msg.channel = c then some (.created false) else none) :
      Outcome g e g' [Multiplexer.serialize msg, Multiplexer.serialize (g.approvalFor msg),
        shutdown msg.channel]
  | closed {g' : Guard} (msg : BridgeMessage) (received : g.received e = some msg)
      (action : msg.action = .shutdownChannel)
      (parsers : g'.parsers = Function.update g.parsers msg.channel none)
      (poisoned : g'.poisoned = g.poisoned.erase msg.channel)
      (approved : g'.approved = g.approved.erase msg.channel)
      (event : ∀ c, g.channelEvent e c = if msg.channel = c then some .shutdown else none) :
      Outcome g e g' [Multiplexer.serialize msg]
  | corrupted {g' : Guard} (msg : BridgeMessage) (received : g.received e = some msg)
      (action : msg.action = .none ∨ msg.action = .approval) (cleared : msg.channel ∈ g.approved)
      (cleanse : (g.parser msg.channel).cleanse GuardOpcodeParser.hooks msg.payload = none)
      (parsers : g'.parsers = Function.update g.parsers msg.channel none)
      (poisoned : g'.poisoned = insert msg.channel g.poisoned)
      (approved : g'.approved = g.approved.erase msg.channel)
      (event : ∀ c, g.channelEvent e c = if msg.channel = c then some .corrupted else none) :
      Outcome g e g' [shutdown msg.channel]
  | relayed {g' : Guard} {out : List Bytes} (msg : BridgeMessage) (payload : Bytes)
      (parser : OpcodeParser GuardMembers) (received : g.received e = some msg)
      (action : msg.action = .none ∨ msg.action = .approval) (cleared : msg.channel ∈ g.approved)
      (cleanse : (g.parser msg.channel).cleanse GuardOpcodeParser.hooks msg.payload =
        some (payload, parser))
      (parsers : g'.parsers = Function.update g.parsers msg.channel (some parser))
      (poisoned : g'.poisoned = g.poisoned) (approved : g'.approved = g.approved)
      (event : ∀ c, g.channelEvent e c = none)
      (emitted : out = [Multiplexer.serialize { msg with payload := payload }] ∨
        (out = [] ∧ payload = [])) :
      Outcome g e g' out
  | tornDown {g' : Guard} (order : List UInt16) (poll : e = .poll order) (visits : g.Visits order)
      (parsers : g'.parsers = fun c => if c ∈ order then none else g.parsers c)
      (poisoned : g'.poisoned = g.poisoned) (approved : g'.approved = ∅)
      (event : ∀ c, g.channelEvent e c = some .denied) :
      Outcome g e g' (order.map shutdown)
  | halted {g' : Guard} (order : List UInt16) (stop : e = .stop order) (visits : g.Visits order)
      (parsers : g'.parsers = g.parsers) (poisoned : g'.poisoned = g.poisoned)
      (approved : g'.approved = ∅) (event : ∀ c, g.channelEvent e c = none) :
      Outcome g e g' (order.map shutdown)

section Outcome

variable {g : Guard} {e : Event} {msg : BridgeMessage}

theorem exists_datagram (h : g.received e = some msg) :
    ∃ data, e = .datagram data ∧ g.receiving = true ∧
      Multiplexer.tryCast (UDPReceiver.receive bufferSize data) = some msg := by
  cases e with
  | datagram data =>
    simp only [received] at h
    split_ifs at h with hr
    exact ⟨data, rfl, hr, h⟩
  | _ => simp [received] at h

/-- A received message concerns its own channel only. -/
theorem channelEvent_of_received (h : g.received e = some msg) (c : UInt16) :
    g.channelEvent e c = if msg.channel = c then g.messageEvent msg else none := by
  obtain ⟨data, rfl, -, -⟩ := exists_datagram h
  simp only [channelEvent, h]

/-- The buffer of a received message is its representation. -/
theorem step_of_received (h : g.received e = some msg) :
    g.step e = { g with receiving := false }.dispatch (Multiplexer.serialize msg) msg := by
  obtain ⟨data, rfl, hr, hcast⟩ := exists_datagram h
  have hbuf := (Multiplexer.serialize_of_tryCast hcast).1
  simp only [step, hr, if_true, handle, hcast, hbuf]

theorem create_outcome (h : g.received e = some msg) (hact : msg.action = .createChannel) :
    Outcome g e (g.step e).1 (g.step e).2 := by
  have hev := channelEvent_of_received h
  simp only [messageEvent, hact] at hev
  rw [step_of_received h, dispatch, hact]
  dsimp only [create]
  simp only [Approver.handleRequest_approved] at hev ⊢
  by_cases hid : isValidRequestId msg.payload = true
  · rw [if_pos hid]
    simp only [hid, if_true] at hev
    cases hv : g.approve with
    | true =>
      rw [hv] at hev
      have happ : g.approvalFor msg =
          { channel := msg.channel, action := .approval, payload := approvalApprove :: msg.payload } := by
        simp [approvalFor, hv]
      rw [if_pos rfl, if_pos rfl, ← happ]
      exact .approvedCreate msg h hact hid hv rfl rfl rfl hev
    | false =>
      rw [hv] at hev
      have happ : g.approvalFor msg =
          { channel := msg.channel, action := .approval, payload := approvalDeny :: msg.payload } := by
        simp [approvalFor, hv]
      rw [if_neg (by simp), if_neg (by simp), ← happ]
      exact .deniedCreate msg h hact hid hv (Function.update_idem _ _ _) rfl rfl hev
  · rw [if_neg hid]
    simp only [hid, Bool.false_eq_true, if_false, ite_self] at hev
    exact .quiet rfl rfl rfl hev

theorem shutdownChannel_outcome (h : g.received e = some msg) (hact : msg.action = .shutdownChannel) :
    Outcome g e (g.step e).1 (g.step e).2 := by
  have hev := channelEvent_of_received h
  simp only [messageEvent, hact] at hev
  rw [step_of_received h, dispatch, hact]
  exact .closed msg h hact rfl rfl rfl hev

/-- The payload has gone through the parser of an approved channel. -/
theorem settle_outcome (h : g.received e = some msg)
    (hact : msg.action = .none ∨ msg.action = .approval) (happ : msg.channel ∈ g.approved)
    {st : ParserState} {p : OpcodeParser GuardMembers}
    (hx : (g.parser msg.channel).parse GuardOpcodeParser.hooks msg.payload = (st, p))
    (hev : ∀ c, g.channelEvent e c = if msg.channel = c then
      (if st = .streamCorrupted then some .corrupted else none) else none) :
    Outcome g e ({ g with receiving := false }.settle (Multiplexer.serialize msg) msg (st, p)).1
      ({ g with receiving := false }.settle (Multiplexer.serialize msg) msg (st, p)).2 := by
  have hst : ((g.parser msg.channel).parse GuardOpcodeParser.hooks msg.payload).1 = st := by rw [hx]
  by_cases hcor : st = .streamCorrupted
  · subst hcor
    exact .corrupted msg h hact happ (OpcodeParser.cleanse_of_corrupted hst) rfl rfl rfl
      (by simpa using hev)
  have hquiet : ∀ c, g.channelEvent e c = none := by simpa [hcor] using hev
  by_cases hden : st = .deniedData
  · subst hden
    have hcl := OpcodeParser.cleanse_of_denied hst
    rw [hx] at hcl
    refine .relayed msg _ _ h hact happ hcl rfl rfl rfl hquiet ?_
    dsimp only [settle]
    split_ifs with hnil
    · exact .inr ⟨rfl, hnil⟩
    · exact .inl rfl
  · have hcl := OpcodeParser.cleanse_of_clean (hst ▸ hcor) (hst ▸ hden)
    rw [hx] at hcl
    cases st with
    | streamCorrupted => exact absurd rfl hcor
    | deniedData => exact absurd rfl hden
    | _ => exact .relayed msg _ p h hact happ hcl rfl rfl rfl hquiet (.inl rfl)

theorem relay_outcome (h : g.received e = some msg)
    (hact : msg.action = .none ∨ msg.action = .approval) :
    Outcome g e (g.step e).1 (g.step e).2 := by
  have hdis : { g with receiving := false }.dispatch (Multiplexer.serialize msg) msg =
      { g with receiving := false }.relay (Multiplexer.serialize msg) msg := by
    rcases hact with hact | hact <;> rw [dispatch, hact]
  have hmev : g.messageEvent msg = if msg.channel ∉ g.poisoned ∧ msg.channel ∈ g.approved ∧
        ((g.parser msg.channel).parse GuardOpcodeParser.hooks msg.payload).1 = .streamCorrupted then
      some .corrupted else none := by
    rcases hact with hact | hact <;> rw [messageEvent, hact]
  have hev := channelEvent_of_received h
  rw [hmev] at hev
  rw [step_of_received h, hdis, relay]
  by_cases hpois : msg.channel ∈ g.poisoned
  · rw [if_pos hpois]
    exact .quiet rfl rfl rfl fun c => by simp [hev, hpois]
  rw [if_neg hpois]
  by_cases happ : msg.channel ∈ g.approved
  · rw [if_pos happ]
    cases hx : (g.parser msg.channel).parse GuardOpcodeParser.hooks msg.payload with
    | mk st p =>
      have hx' : ((g.parsers msg.channel).getD GuardOpcodeParser.fresh).parse
          GuardOpcodeParser.hooks msg.payload = (st, p) := hx
      dsimp only
      rw [hx']
      exact settle_outcome h hact happ hx fun c => by simp [hev, hpois, happ, hx]
  · rw [if_neg happ]
    exact .quiet rfl rfl rfl fun c => by simp [hev, happ]

/-- Everything that a step can do. -/
theorem outcome (g : Guard) (e : Event) : Outcome g e (g.step e).1 (g.step e).2 := by
  cases e with
  | command raw =>
    rw [step]
    split_ifs
    · exact .quiet rfl rfl rfl fun _ => rfl
    · split <;> exact .quiet rfl rfl rfl fun _ => rfl
  | flagTeardown =>
    rw [step]
    split_ifs <;> exact .quiet rfl rfl rfl fun _ => rfl
  | poll order =>
    rw [step]
    by_cases hin : g.receiving = true ∨ g.stopped = true
    · rw [if_pos hin]
      refine .quiet rfl rfl rfl fun _ => if_neg fun hn => ?_
      rcases hin with hin | hin <;> simp [hin] at hn
    rw [if_neg hin]
    by_cases hflag : g.denyTeardown = true
    · rw [if_pos hflag]
      by_cases hvis : g.Visits order
      · rw [if_pos hvis]
        rw [not_or, Bool.not_eq_true, Bool.not_eq_true] at hin
        exact .tornDown order rfl hvis rfl rfl rfl fun _ => if_pos ⟨hin.1, hin.2, hflag, hvis⟩
      · rw [if_neg hvis]
        exact .quiet rfl rfl rfl fun _ => if_neg fun hn => hvis hn.2.2.2
    · rw [if_neg hflag]
      exact .quiet rfl rfl rfl fun _ => if_neg fun hn => hflag hn.2.2.1
  | datagram data =>
    by_cases hr : g.receiving = true
    · cases hcast : Multiplexer.tryCast (UDPReceiver.receive bufferSize data) with
      | none =>
        have hstep : g.step (.datagram data) = ({ g with receiving := false }, []) := by
          simp [step, hr, handle, hcast]
        rw [hstep]
        exact .quiet rfl rfl rfl fun c => by simp [channelEvent, received, hr, hcast]
      | some msg =>
        have hmsg : g.received (.datagram data) = some msg := by simp [received, hr, hcast]
        cases hact : msg.action with
        | createChannel => exact create_outcome hmsg hact
        | shutdownChannel => exact shutdownChannel_outcome hmsg hact
        | none => exact relay_outcome hmsg (.inl hact)
        | approval => exact relay_outcome hmsg (.inr hact)
    · rw [step, if_neg hr]
      exact .quiet rfl rfl rfl fun c => by simp [channelEvent, received, hr]
  | timeout => exact .quiet rfl rfl rfl fun _ => rfl
  | stop order =>
    rw [step]
    split_ifs with _ hvis
    · exact .quiet rfl rfl rfl fun _ => rfl
    · exact .halted order rfl hvis rfl rfl rfl fun _ => rfl
    · exact .quiet rfl rfl rfl fun _ => rfl

end Outcome

end Guard

end GuacamoleDiode
