import GuacamoleDiode.Guard.Steps

/-!
# The approval gate

What the guard lets through, over every run of its loop: payloads only on channels
whose last CREATE was approved, verdicts only in answer to a CREATE, and otherwise
only messages of known shape. The last two rest on conditions, because the action
switch of the guard handles an APPROVAL from the low side like payload, and forwards
a SHUTDOWN with whatever it carries.
-/

namespace GuacamoleDiode

open Wire

namespace Guard

-- ════════════════════════════════════════════════════════════════════════
-- Payload needs an approved channel
-- ════════════════════════════════════════════════════════════════════════

/-- The last thing that happened to a channel. -/
def lastEvent (es : List Event) (c : UInt16) : Option ChannelEvent :=
  machine.observe (fun last g e _ => (g.channelEvent e c).or last) none es

/-- The collections of the guard agree with each other. -/
structure Consistent (g : Guard) : Prop where
  disjoint : Disjoint g.approved g.poisoned
  entry : ∀ c ∈ g.approved, g.parsers c ≠ none

section Outcome

variable {g g' : Guard} {e : Event} {out : List Bytes}

theorem Outcome.consistent (h : Outcome g e g' out) (hg : Consistent g) : Consistent g' := by
  obtain ⟨hdis, hentry⟩ := hg
  rw [Finset.disjoint_left] at hdis
  refine ⟨Finset.disjoint_left.mpr ?_, ?_⟩
  · intro c
    cases h with
    | quiet _ hpo ha => rw [ha, hpo]; exact @hdis c
    | approvedCreate msg _ _ _ _ _ hpo ha =>
      rw [ha, hpo, Finset.mem_insert, Finset.mem_erase, Finset.mem_erase]
      rintro (rfl | ⟨-, hc⟩) ⟨hne, hp⟩
      · exact hne rfl
      · exact hdis hc hp
    | deniedCreate msg _ _ _ _ _ hpo ha =>
      rw [ha, hpo, Finset.mem_erase, Finset.mem_erase]
      exact fun hc hp => hdis hc.2 hp.2
    | closed msg _ _ _ hpo ha =>
      rw [ha, hpo, Finset.mem_erase, Finset.mem_erase]
      exact fun hc hp => hdis hc.2 hp.2
    | corrupted msg _ _ _ _ _ hpo ha =>
      rw [ha, hpo, Finset.mem_erase, Finset.mem_insert]
      rintro ⟨hne, hc⟩ (rfl | hp)
      · exact hne rfl
      · exact hdis hc hp
    | relayed _ _ _ _ _ _ _ _ hpo ha => rw [ha, hpo]; exact @hdis c
    | tornDown _ _ _ _ _ ha => simp [ha]
    | halted _ _ _ _ _ ha => simp [ha]
  · intro c
    cases h with
    | quiet hp _ ha => rw [ha, hp]; exact hentry c
    | approvedCreate msg _ _ _ _ hp _ ha =>
      rw [ha, hp, Finset.mem_insert, Finset.mem_erase]
      rintro (rfl | ⟨hne, hc⟩)
      · simp
      · rw [Function.update_of_ne hne]
        exact hentry c hc
    | deniedCreate msg _ _ _ _ hp _ ha =>
      rw [ha, hp, Finset.mem_erase]
      rintro ⟨hne, hc⟩
      rw [Function.update_of_ne hne]
      exact hentry c hc
    | closed msg _ _ hp _ ha =>
      rw [ha, hp, Finset.mem_erase]
      rintro ⟨hne, hc⟩
      rw [Function.update_of_ne hne]
      exact hentry c hc
    | corrupted msg _ _ _ _ hp _ ha =>
      rw [ha, hp, Finset.mem_erase]
      rintro ⟨hne, hc⟩
      rw [Function.update_of_ne hne]
      exact hentry c hc
    | relayed msg payload parser _ _ _ _ hp _ ha =>
      rw [ha, hp]
      intro hc
      by_cases hne : c = msg.channel
      · simp [hne]
      · rw [Function.update_of_ne hne]
        exact hentry c hc
    | tornDown _ _ _ _ _ ha => simp [ha]
    | halted _ _ _ _ _ ha => simp [ha]

/-- A channel only stays approved while nothing else happens to it. -/
theorem Outcome.approved (h : Outcome g e g' out) {c : UInt16} (hc : c ∈ g'.approved) :
    g.channelEvent e c = some (.created true) ∨
      (g.channelEvent e c = none ∧ c ∈ g.approved) := by
  cases h with
  | quiet _ _ ha hev => exact .inr ⟨hev c, ha ▸ hc⟩
  | approvedCreate msg _ _ _ _ _ _ ha hev =>
    rw [hev]
    rw [ha, Finset.mem_insert, Finset.mem_erase] at hc
    by_cases heq : msg.channel = c
    · exact .inl (if_pos heq)
    · exact .inr ⟨if_neg heq, (hc.resolve_left fun h => heq h.symm).2⟩
  | deniedCreate msg _ _ _ _ _ _ ha hev =>
    rw [ha, Finset.mem_erase] at hc
    exact .inr ⟨(hev c).trans (if_neg hc.1.symm), hc.2⟩
  | closed msg _ _ _ _ ha hev =>
    rw [ha, Finset.mem_erase] at hc
    exact .inr ⟨(hev c).trans (if_neg hc.1.symm), hc.2⟩
  | corrupted msg _ _ _ _ _ _ ha hev =>
    rw [ha, Finset.mem_erase] at hc
    exact .inr ⟨(hev c).trans (if_neg hc.1.symm), hc.2⟩
  | relayed _ _ _ _ _ _ _ _ _ ha hev => exact .inr ⟨hev c, ha ▸ hc⟩
  | tornDown _ _ _ _ _ ha => simp [ha] at hc
  | halted _ _ _ _ _ ha => simp [ha] at hc

/-- Payload that leads to an output has been received on an approved channel. -/
theorem Outcome.cleared (h : Outcome g e g' out) {msg : BridgeMessage} (hmsg : g.received e = some msg)
    (hact : msg.action = .none) (hout : out ≠ []) : msg.channel ∈ g.approved := by
  cases h with
  | quiet => exact absurd rfl hout
  | approvedCreate msg' hr hact' => simp [Option.some.inj (hmsg.symm.trans hr), hact'] at hact
  | deniedCreate msg' hr hact' => simp [Option.some.inj (hmsg.symm.trans hr), hact'] at hact
  | closed msg' hr hact' => simp [Option.some.inj (hmsg.symm.trans hr), hact'] at hact
  | corrupted msg' hr _ hc => rwa [Option.some.inj (hmsg.symm.trans hr)]
  | relayed msg' _ _ hr _ hc => rwa [Option.some.inj (hmsg.symm.trans hr)]
  | tornDown _ he =>
    simp [he, received] at hmsg
  | halted _ he =>
    simp [he, received] at hmsg

end Outcome

theorem consistent_run (es : List Event) : Consistent (machine.run es) :=
  Machine.invariant (M := machine) (P := fun _ g => Consistent g) ⟨by simp [machine], by simp [machine]⟩
    (fun es e h => (outcome (machine.run es) e).consistent h) es

/-- The last thing that happened to an approved channel is that its CREATE was approved. -/
theorem lastEvent_of_approved (es : List Event) :
    ∀ c ∈ (machine.run es).approved, lastEvent es c = some (.created true) := by
  refine Machine.invariant (M := machine)
    (P := fun es g => ∀ c ∈ g.approved, lastEvent es c = some (.created true)) ?_ ?_ es
  · simp [machine]
  · intro es e ih c hc
    rw [lastEvent, Machine.observe_snoc]
    rcases (outcome (machine.run es) e).approved hc with hev | ⟨hev, hc⟩
    · rw [hev, Option.some_or]
    · rw [hev, Option.none_or]
      exact ih c hc

/-- In every reachable state, payload on a channel only leads to an output if the last thing
that happened to the channel is an approved CREATE, and the collections are consistent. -/
theorem approval_gate (es : List Event) :
    (∀ data msg, Multiplexer.tryCast (UDPReceiver.receive bufferSize data) = some msg →
      msg.action = .none → ((machine.run es).step (.datagram data)).2 ≠ [] →
      lastEvent es msg.channel = some (.created true)) ∧
    Disjoint (machine.run es).approved (machine.run es).poisoned ∧
    ∀ c ∈ (machine.run es).approved, (machine.run es).parsers c ≠ none := by
  obtain ⟨hdis, hentry⟩ := consistent_run es
  refine ⟨?_, hdis, hentry⟩
  intro data msg hcast hact hout
  have hrec : (machine.run es).received (.datagram data) = some msg := by
    have hr : (machine.run es).receiving = true := by
      by_contra hr
      simp [step, hr] at hout
    simp [received, hr, hcast]
  exact lastEvent_of_approved es msg.channel
    ((outcome (machine.run es) (.datagram data)).cleared hrec hact hout)

-- ════════════════════════════════════════════════════════════════════════
-- Verdicts
-- ════════════════════════════════════════════════════════════════════════

/-- An APPROVAL from the low side arrives on an approved channel. -/
def ForgedApproval (g : Guard) (e : Event) : Prop :=
  ∃ msg ∈ g.received e, msg.action = .approval ∧ msg.channel ∈ g.approved

instance (g : Guard) (e : Event) : Decidable (ForgedApproval g e) :=
  inferInstanceAs (Decidable (∃ msg ∈ g.received e, _))

/-- Every APPROVAL that the run emits answers a CREATE with a valid request id, with the
verdict of the approver on that request. -/
def AuthenticVerdicts (es : List Event) : Prop :=
  ∀ pre e post, es = pre ++ e :: post → ∀ d ∈ ((machine.run pre).step e).2,
    ∀ m, Multiplexer.tryCast d = some m → m.action = .approval →
      ∃ create, (machine.run pre).received e = some create ∧ create.action = .createChannel ∧
        isValidRequestId create.payload = true ∧ m = (machine.run pre).approvalFor create

theorem eq_of_tryCast_serialize {m m' : BridgeMessage}
    (h : Multiplexer.tryCast (Multiplexer.serialize m) = some m') : m' = m :=
  Multiplexer.serialize_injective (Multiplexer.serialize_of_tryCast h).1

/-- What a step emits. -/
inductive Emitted (g : Guard) (e : Event) : BridgeMessage → Prop where
  | create (msg : BridgeMessage) (received : g.received e = some msg)
      (action : msg.action = .createChannel) (valid : isValidRequestId msg.payload = true) :
      Emitted g e msg
  | verdict (msg : BridgeMessage) (received : g.received e = some msg)
      (action : msg.action = .createChannel) (valid : isValidRequestId msg.payload = true) :
      Emitted g e (g.approvalFor msg)
  | shutdown (c : UInt16) : Emitted g e { channel := c, action := .shutdownChannel }
  | closed (msg : BridgeMessage) (received : g.received e = some msg)
      (action : msg.action = .shutdownChannel) : Emitted g e msg
  | payload (msg : BridgeMessage) (payload : Bytes) (parser : OpcodeParser GuardMembers)
      (received : g.received e = some msg) (action : msg.action = .none ∨ msg.action = .approval)
      (cleared : msg.channel ∈ g.approved)
      (cleanse : (g.parser msg.channel).cleanse GuardOpcodeParser.hooks msg.payload =
        some (payload, parser)) :
      Emitted g e { msg with payload := payload }

/-- Every output is the representation of a message that the step emits. -/
theorem Outcome.emitted {g g' : Guard} {e : Event} {out : List Bytes} (h : Outcome g e g' out)
    {d : Bytes} (hd : d ∈ out) : ∃ m, d = Multiplexer.serialize m ∧ Emitted g e m := by
  have hmap : ∀ order : List UInt16, d ∈ order.map Guard.shutdown →
      ∃ m, d = Multiplexer.serialize m ∧ Emitted g e m := by
    intro order hd
    obtain ⟨c, -, rfl⟩ := List.mem_map.mp hd
    exact ⟨_, rfl, .shutdown c⟩
  cases h with
  | quiet => simp at hd
  | approvedCreate msg hr hact hid =>
    simp only [List.mem_cons, List.not_mem_nil, or_false] at hd
    rcases hd with rfl | rfl
    · exact ⟨_, rfl, .create msg hr hact hid⟩
    · exact ⟨_, rfl, .verdict msg hr hact hid⟩
  | deniedCreate msg hr hact hid =>
    simp only [List.mem_cons, List.not_mem_nil, or_false] at hd
    rcases hd with rfl | rfl | rfl
    · exact ⟨_, rfl, .create msg hr hact hid⟩
    · exact ⟨_, rfl, .verdict msg hr hact hid⟩
    · exact ⟨_, rfl, .shutdown msg.channel⟩
  | closed msg hr hact =>
    rw [List.mem_singleton] at hd
    exact ⟨msg, hd, .closed msg hr hact⟩
  | corrupted msg =>
    rw [List.mem_singleton] at hd
    exact ⟨_, hd, .shutdown msg.channel⟩
  | relayed msg payload parser hr hact hc hcl _ _ _ _ hout =>
    rcases hout with rfl | ⟨rfl, -⟩
    · rw [List.mem_singleton] at hd
      exact ⟨_, hd, .payload msg payload parser hr hact hc hcl⟩
    · simp at hd
  | tornDown order => exact hmap order hd
  | halted order => exact hmap order hd

/-- As long as no APPROVAL arrives on an approved channel, every verdict is authentic. -/
theorem authenticVerdicts_of_no_forgery (es : List Event)
    (h : machine.Always (fun _ g e => ¬ForgedApproval g e) es) : AuthenticVerdicts es := by
  intro pre e post hes d hd m hcast hact
  obtain ⟨m', rfl, hm'⟩ := (outcome (machine.run pre) e).emitted hd
  cases eq_of_tryCast_serialize hcast
  cases hm' with
  | create _ _ hact' => simp [hact'] at hact
  | verdict msg hr hact' hid => exact ⟨msg, hr, hact', hid, rfl⟩
  | shutdown c => simp at hact
  | closed _ _ hact' => simp [hact'] at hact
  | payload msg _ _ hr _ hc => exact absurd ⟨msg, hr, hact, hc⟩ (h pre e post hes)

/-- A datagram, received in one turn of the main loop. -/
def turn (order : List UInt16) (msg : BridgeMessage) : List Event :=
  [.poll order, .datagram (Multiplexer.serialize msg)]

/-- A request on channel 1. -/
def request : BridgeMessage :=
  { channel := 1, action := .createChannel, payload := ascii "0123456789ab" }

/-- A verdict on channel 1 that answers nothing. -/
def forgedVerdict : BridgeMessage :=
  { channel := 1, action := .approval, payload := ascii "3.key,2.97,1.1;" }

theorem no_forgery_request :
    machine.Always (fun _ g e => ¬ForgedApproval g e) (turn [] request) := by
  change Machine.Always _ _ ([] ++ [_] ++ [_])
  rw [Machine.always_snoc, Machine.always_snoc]
  exact ⟨⟨Machine.always_nil, by decide⟩, by decide +kernel⟩

/-- The verdict on a single request is authentic. -/
theorem authenticVerdicts_request :
    machine.Always (fun _ g e => ¬ForgedApproval g e) (turn [] request) ∧
      AuthenticVerdicts (turn [] request) :=
  ⟨no_forgery_request, authenticVerdicts_of_no_forgery _ no_forgery_request⟩

/-- The guard forwards a verdict of the low side on an approved channel. -/
theorem forgedVerdict_forwarded :
    ¬AuthenticVerdicts (turn [] request ++ turn [] forgedVerdict) := by
  intro h
  obtain ⟨create, hrec, hact, -, -⟩ :=
    h (turn [] request ++ [.poll []]) (.datagram (Multiplexer.serialize forgedVerdict)) [] rfl
      (Multiplexer.serialize forgedVerdict) (by decide +kernel) forgedVerdict (by decide +kernel) rfl
  have hforged : (machine.run (turn [] request ++ [.poll []])).received
      (.datagram (Multiplexer.serialize forgedVerdict)) = some forgedVerdict := by
    decide +kernel
  rw [hforged] at hrec
  cases hrec
  simp [forgedVerdict] at hact

-- ════════════════════════════════════════════════════════════════════════
-- The output language
-- ════════════════════════════════════════════════════════════════════════

/-- A message that the guard may emit in a step: each action has its own shape, and payload
has been consumed by the parser of an approved channel without corrupting the stream. -/
def Validated (g : Guard) (e : Event) (m : BridgeMessage) : Prop :=
  match m.action with
  | .createChannel => isValidRequestId m.payload = true
  | .approval => ∃ v id, m.payload = v :: id ∧ (v = approvalApprove ∨ v = approvalDeny) ∧
      isValidRequestId id = true
  | .shutdownChannel => m.payload = []
  | .none => m.channel ∈ g.approved ∧ ∃ msg parser, g.received e = some msg ∧
      msg.channel = m.channel ∧ msg.action = .none ∧
      (g.parser m.channel).cleanse GuardOpcodeParser.hooks msg.payload = some (m.payload, parser)

/-- A SHUTDOWN arrives that carries payload. -/
def LoadedShutdown (g : Guard) (e : Event) : Prop :=
  ∃ msg ∈ g.received e, msg.action = .shutdownChannel ∧ msg.payload ≠ []

instance (g : Guard) (e : Event) : Decidable (LoadedShutdown g e) :=
  inferInstanceAs (Decidable (∃ msg ∈ g.received e, _))

/-- Every datagram that the run emits is the representation of a validated message. -/
def OnlyValidated (es : List Event) : Prop :=
  ∀ pre e post, es = pre ++ e :: post → ∀ d ∈ ((machine.run pre).step e).2,
    ∃ m, d = Multiplexer.serialize m ∧ Validated (machine.run pre) e m

theorem Emitted.validated {g : Guard} {e : Event} {m : BridgeMessage} (h : Emitted g e m)
    (hforged : ¬ForgedApproval g e) (hloaded : ¬LoadedShutdown g e) : Validated g e m := by
  cases h with
  | create _ _ hact hid =>
    rw [Validated, hact]
    exact hid
  | verdict msg _ _ hid =>
    refine ⟨_, msg.payload, rfl, ?_, hid⟩
    split_ifs
    · exact .inl rfl
    · exact .inr rfl
  | shutdown c => rfl
  | closed _ hr hact =>
    rw [Validated, hact]
    by_contra hne
    exact hloaded ⟨m, hr, hact, hne⟩
  | payload msg payload parser hr hact hc hcl =>
    rcases hact with hact | hact
    · simp only [Validated, hact]
      exact ⟨hc, msg, parser, hr, rfl, hact, hcl⟩
    · exact absurd ⟨msg, hr, hact, hc⟩ hforged

/-- As long as no APPROVAL arrives on an approved channel and no SHUTDOWN carries payload,
nothing unvalidated crosses the guard. -/
theorem onlyValidated_of_clean (es : List Event)
    (h : machine.Always (fun _ g e => ¬ForgedApproval g e ∧ ¬LoadedShutdown g e) es) :
    OnlyValidated es := by
  intro pre e post hes d hd
  obtain ⟨m, hm, hem⟩ := (outcome (machine.run pre) e).emitted hd
  obtain ⟨hforged, hloaded⟩ := h pre e post hes
  exact ⟨m, hm, hem.validated hforged hloaded⟩

theorem clean_request :
    machine.Always (fun _ g e => ¬ForgedApproval g e ∧ ¬LoadedShutdown g e) (turn [] request) := by
  change Machine.Always _ _ ([] ++ [_] ++ [_])
  rw [Machine.always_snoc, Machine.always_snoc]
  exact ⟨⟨Machine.always_nil, by decide⟩, by decide +kernel⟩

/-- Only validated messages answer a single request. -/
theorem onlyValidated_request :
    machine.Always (fun _ g e => ¬ForgedApproval g e ∧ ¬LoadedShutdown g e) (turn [] request) ∧
      OnlyValidated (turn [] request) :=
  ⟨clean_request, onlyValidated_of_clean _ clean_request⟩

/-- A SHUTDOWN with payload, on a channel that nobody has asked for. -/
def loadedShutdown : BridgeMessage :=
  { channel := 2, action := .shutdownChannel, payload := ascii "covert" }

/-- The guard forwards the payload of a SHUTDOWN. -/
theorem loadedShutdown_forwarded : ¬OnlyValidated (turn [] loadedShutdown) := by
  intro h
  obtain ⟨m, hm, hval⟩ :=
    h [.poll []] (.datagram (Multiplexer.serialize loadedShutdown)) [] rfl
      (Multiplexer.serialize loadedShutdown) (by decide +kernel)
  cases Multiplexer.serialize_injective hm
  exact absurd hval (by decide : ¬ascii "covert" = [])

end Guard

end GuacamoleDiode
