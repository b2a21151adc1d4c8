import GuacamoleDiode.Guard.Gate

/-!
# Soundness of the guard

Whatever the low side sends, the payload that the guard emits on a channel between an
approved CREATE and the end of that session is the beginning of a sequence of
instructions that keep to the policy. The parser of the channel is coupled to the
bytes that have been delivered; an APPROVAL with payload breaks the coupling, since
the parser consumes bytes that are not delivered as payload.
-/

namespace GuacamoleDiode

open Wire Policy

/-- The bytes are the beginning of a sequence of instructions in which every closed element
keeps to the policy. -/
def Policy.Complies (w : Bytes) : Prop :=
  ∃ (is : List (Instruction maxElementSize)) (cur : Cursor maxElementSize),
    w = wire is ++ cur.bytes ∧
    (∀ before i rest, is = before ++ i :: rest →
      violates (Policy.after none before) i.values = false) ∧
    violates (Policy.after none is) cur.values = false

namespace Guard

/-- The payload bytes on a channel among some datagrams. -/
def payloads (c : UInt16) (out : List Bytes) : Bytes :=
  out.flatMap fun d =>
    match Multiplexer.tryCast d with
    | some m => if m.channel = c ∧ m.action = .none then m.payload else []
    | none => []

/-- A step of the session of a channel. -/
def sessionStep (c : UInt16) (w : Option Bytes) (g : Guard) (e : Event) (out : List Bytes) :
    Option Bytes :=
  match g.channelEvent e c with
  | some (.created true) => some []
  | some _ => none
  | none => w.map (· ++ payloads c out)

/-- The payload bytes emitted on a channel since its CREATE was approved; `none` outside such
a session. -/
def session (es : List Event) (c : UInt16) : Option Bytes := machine.observe (sessionStep c) none es

/-- An APPROVAL with payload arrives on an approved channel. -/
def LoadedApproval (g : Guard) (e : Event) : Prop :=
  ∃ msg ∈ g.received e, msg.action = .approval ∧ msg.channel ∈ g.approved ∧ msg.payload ≠ []

instance (g : Guard) (e : Event) : Decidable (LoadedApproval g e) :=
  inferInstanceAs (Decidable (∃ msg ∈ g.received e, _))

/-- The parser has seen just the bytes that have been delivered, and those are clean. -/
def Coupled (w : Bytes) (p : OpcodeParser GuardMembers) : Prop :=
  ∃ (is : List (Instruction maxElementSize)) (cur : Cursor maxElementSize) (m : GuardMembers),
    w = wire is ++ cur.bytes ∧ allowed none is = is ∧ m.openStream = Policy.after none is ∧
      OpcodeParser.Session GuardOpcodeParser.hooks m cur p

theorem coupled_fresh : Coupled [] GuardOpcodeParser.fresh :=
  ⟨[], .start, {}, rfl, rfl, rfl, GuardOpcodeParser.session_fresh⟩

theorem Coupled.complies {w : Bytes} {p : OpcodeParser GuardMembers} (h : Coupled w p) :
    Complies w := by
  obtain ⟨is, cur, m, rfl, hal, hm, -, hjudge⟩ := h
  refine ⟨is, cur, rfl, ?_, ?_⟩
  · intro before i rest heq
    exact violates_of_mem_allowed (hal.trans heq)
  · have hcl := (GuardOpcodeParser.judge_eq m cur.values).1
    rw [← hm, ← hcl, Cursor.values, ← seen_eq_map le_rfl, hjudge]

/-- The parser stays coupled through a payload that it lets pass. -/
theorem Coupled.cleanse {w d out : Bytes} {p p' : OpcodeParser GuardMembers} (h : Coupled w p)
    (hcl : p.cleanse GuardOpcodeParser.hooks d = some (out, p')) :
    Coupled (w ++ out) p' ∧ out.length ≤ d.length := by
  obtain ⟨is, cur, m, rfl, hal, hm, hsess⟩ := h
  cases hr : cur.read d with
  | none => simp [hsess.cleanse_none GuardOpcodeParser.stationary rfl hr] at hcl
  | some r =>
    obtain ⟨js, cur'⟩ := r
    rcases hsess.cleanse GuardOpcodeParser.stationary (.inl le_rfl) hr with
      ⟨-, hnone⟩ | ⟨-, out', p'', hsome, hpass⟩
    · simp [hnone] at hcl
    · rw [hcl] at hsome
      cases hsome
      have hkept := hpass.kept
      rw [GuardOpcodeParser.survivors_eq] at hkept
      refine ⟨⟨is ++ allowed m.openStream js, cur', GuardOpcodeParser.hooks.afterAll m js, ?_, ?_,
        ?_, hpass.session⟩, hpass.length_le hr⟩
      · rw [List.append_assoc, hkept, wire_append, List.append_assoc]
      · rw [allowed_append, hal, ← hm, allowed_allowed]
      · rw [GuardOpcodeParser.openStream_afterAll, after_append, ← hm, after_allowed]

@[simp] theorem payloads_nil (c : UInt16) : payloads c [] = [] := rfl

/-- Messages of another channel or with another action carry no payload for the channel. -/
theorem payloads_cons_of_ne {c : UInt16} {m : BridgeMessage}
    (h : m.channel ≠ c ∨ m.action ≠ .none) (out : List Bytes) :
    payloads c (Multiplexer.serialize m :: out) = payloads c out := by
  rw [payloads, List.flatMap_cons]
  cases hcast : Multiplexer.tryCast (Multiplexer.serialize m) with
  | none => rfl
  | some m' =>
    cases eq_of_tryCast_serialize hcast
    have hn : ¬(m.channel = c ∧ m.action = .none) := by tauto
    simp only [if_neg hn]
    rfl

theorem payloads_serialize {m : BridgeMessage} (hact : m.action = .none)
    (hlen : m.payload.length ≤ Multiplexer.maxPayloadSize) :
    payloads m.channel [Multiplexer.serialize m] = m.payload := by
  simp [payloads, Multiplexer.tryCast_serialize hlen, hact]

theorem payloads_shutdowns (c : UInt16) (order : List UInt16) :
    payloads c (order.map shutdown) = [] := by
  induction order with
  | nil => rfl
  | cons d order ih =>
    rw [List.map_cons, shutdown, payloads_cons_of_ne (.inr (by simp)), ih]

/-- A channel and its session: the payload is clean, and coupled to the parser while the
channel is approved. -/
def Sound (g : Guard) (c : UInt16) : Option Bytes → Prop
  | none => c ∉ g.approved
  | some w => Complies w ∧ (c ∈ g.approved → ∃ p, g.parsers c = some p ∧ Coupled w p)

/-- A channel to which nothing happens. -/
theorem Sound.frame {g g' : Guard} {c : UInt16} {w : Option Bytes} (h : Sound g c w)
    (happ : c ∈ g'.approved → c ∈ g.approved) (hpar : c ∈ g'.approved → g'.parsers c = g.parsers c) :
    Sound g' c (w.map (· ++ [])) := by
  cases w with
  | none => exact fun hc => h (happ hc)
  | some w =>
    rw [Option.map_some, List.append_nil]
    refine ⟨h.1, fun hc => ?_⟩
    obtain ⟨p, hp, hcoup⟩ := h.2 (happ hc)
    exact ⟨p, (hpar hc).trans hp, hcoup⟩

section Outcome

variable {g g' : Guard} {e : Event} {out : List Bytes} {c : UInt16} {w : Option Bytes}

theorem sessionStep_of_none (h : g.channelEvent e c = none) (hout : payloads c out = []) :
    sessionStep c w g e out = w.map (· ++ []) := by
  rw [sessionStep, h, hout]

theorem sessionStep_of_end {ev : ChannelEvent} (h : g.channelEvent e c = some ev)
    (hne : ev ≠ .created true) : sessionStep c w g e out = none := by
  rw [sessionStep, h]
  cases ev with
  | created approved => cases approved <;> first | rfl | exact absurd rfl hne
  | _ => rfl

/-- A step that removes one channel, and emits no payload. -/
theorem Sound.removed {msg : BridgeMessage} {ev : ChannelEvent} (h : Sound g c w)
    (hne : ev ≠ .created true)
    (hev : g.channelEvent e c = if msg.channel = c then some ev else none)
    (happ : g'.approved = g.approved.erase msg.channel)
    (hpar : g'.parsers = Function.update g.parsers msg.channel none) (hout : payloads c out = []) :
    Sound g' c (sessionStep c w g e out) := by
  by_cases hc : msg.channel = c
  · rw [sessionStep_of_end (hev.trans (if_pos hc)) hne]
    rw [Sound, happ, hc]
    exact Finset.notMem_erase c _
  · rw [sessionStep_of_none (hev.trans (if_neg hc)) hout]
    refine h.frame (fun hmem => Finset.mem_of_mem_erase (happ ▸ hmem)) fun _ => ?_
    rw [hpar, Function.update_of_ne (Ne.symm hc)]

/-- A payload on the channel. -/
theorem Sound.relayed {msg : BridgeMessage} {payload : Bytes} {parser : OpcodeParser GuardMembers}
    (h : Sound g c w) (hact : msg.action = .none ∨ (msg.action = .approval ∧ msg.payload = []))
    (hlen : msg.payload.length ≤ Multiplexer.maxPayloadSize) (hmem : msg.channel ∈ g.approved)
    (hcl : (g.parser msg.channel).cleanse GuardOpcodeParser.hooks msg.payload =
      some (payload, parser))
    (hpar : g'.parsers = Function.update g.parsers msg.channel (some parser))
    (happ : g'.approved = g.approved) (hev : g.channelEvent e c = none)
    (hout : out = [Multiplexer.serialize { msg with payload := payload }] ∨
      (out = [] ∧ payload = [])) :
    Sound g' c (sessionStep c w g e out) := by
  by_cases hc : msg.channel = c
  · subst hc
    cases w with
    | none => exact absurd hmem h
    | some w =>
      obtain ⟨p, hp, hcoup⟩ := h.2 hmem
      have hparser : g.parser msg.channel = p := by rw [Guard.parser, hp, Option.getD_some]
      rw [hparser] at hcl
      obtain ⟨hcoup', hle⟩ := hcoup.cleanse hcl
      have hpay : payloads msg.channel out = payload := by
        rcases hout with rfl | ⟨rfl, hnil⟩
        · rcases hact with hact | ⟨hact, hempty⟩
          · exact payloads_serialize (m := { msg with payload := payload }) hact (hle.trans hlen)
          · -- an APPROVAL without payload is not delivered, and changes nothing
            have hnil : payload = [] := List.eq_nil_of_length_eq_zero (by simpa [hempty] using hle)
            rw [payloads_cons_of_ne (m := { msg with payload := payload }) (.inr (by simp [hact])),
              hnil, payloads_nil]
        · rw [hnil, payloads_nil]
      rw [sessionStep, hev, Option.map_some, hpay]
      exact ⟨hcoup'.complies, fun _ => ⟨parser, by rw [hpar, Function.update_self], hcoup'⟩⟩
  · have hpay : payloads c out = [] := by
      rcases hout with rfl | ⟨rfl, -⟩
      · rw [payloads_cons_of_ne (m := { msg with payload := payload }) (.inl hc), payloads_nil]
      · rfl
    rw [sessionStep_of_none hev hpay]
    refine h.frame (fun hm => happ ▸ hm) fun _ => ?_
    rw [hpar, Function.update_of_ne (Ne.symm hc)]

/-- One step keeps every session sound. -/
theorem Outcome.sound (h : Outcome g e g' out) (hs : Sound g c w) (hload : ¬LoadedApproval g e) :
    Sound g' c (sessionStep c w g e out) := by
  cases h with
  | quiet hp _ ha hev =>
    rw [sessionStep_of_none (hev c) rfl]
    exact hs.frame (fun hm => ha ▸ hm) fun _ => by rw [hp]
  | approvedCreate msg _ hact _ _ hp _ ha hev =>
    by_cases hc : msg.channel = c
    · rw [sessionStep, (hev c).trans (if_pos hc)]
      refine ⟨coupled_fresh.complies, fun _ => ⟨_, ?_, coupled_fresh⟩⟩
      rw [hp, hc, Function.update_self]
    · have hout : payloads c [Multiplexer.serialize msg,
          Multiplexer.serialize (g.approvalFor msg)] = [] := by
        rw [payloads_cons_of_ne (.inl hc), payloads_cons_of_ne (m := g.approvalFor msg) (.inl hc),
          payloads_nil]
      rw [sessionStep_of_none ((hev c).trans (if_neg hc)) hout]
      refine hs.frame (fun hm => ?_) fun _ => ?_
      · rw [ha, Finset.mem_insert, Finset.mem_erase] at hm
        exact (hm.resolve_left (Ne.symm hc)).2
      · rw [hp, Function.update_of_ne (Ne.symm hc)]
  | deniedCreate msg _ hact _ _ hp _ ha hev =>
    refine hs.removed (by simp) (hev c) ha hp ?_
    rw [payloads_cons_of_ne (.inr (by simp [hact])), payloads_cons_of_ne (.inr (by simp [approvalFor])),
      shutdown, payloads_cons_of_ne (.inr (by simp)), payloads_nil]
  | closed msg _ hact hp _ ha hev =>
    refine hs.removed (by simp) (hev c) ha hp ?_
    rw [payloads_cons_of_ne (.inr (by simp [hact])), payloads_nil]
  | corrupted msg _ _ _ _ hp _ ha hev =>
    refine hs.removed (by simp) (hev c) ha hp ?_
    rw [shutdown, payloads_cons_of_ne (.inr (by simp)), payloads_nil]
  | relayed msg payload parser hr hact hmem hcl hp _ ha hev hout =>
    obtain ⟨data, -, -, hcast⟩ := exists_datagram hr
    refine hs.relayed ?_ (Multiplexer.serialize_of_tryCast hcast).2 hmem hcl hp ha (hev c) hout
    refine hact.imp_right fun happr => ⟨happr, ?_⟩
    by_contra hne
    exact hload ⟨msg, hr, happr, hmem, hne⟩
  | tornDown order _ _ _ _ ha hev =>
    rw [sessionStep_of_end (hev c) (by simp)]
    simp [Sound, ha]
  | halted order _ _ hp _ ha hev =>
    rw [sessionStep_of_none (hev c) (payloads_shutdowns c order)]
    exact hs.frame (by simp [ha]) (by simp [ha])

end Outcome

/-- As long as no APPROVAL with payload arrives on an approved channel, the payload that every
session emits keeps to the policy. -/
theorem complies_of_clean (es : List Event)
    (h : machine.Always (fun _ g e => ¬LoadedApproval g e) es) :
    ∀ c w, session es c = some w → Complies w := by
  have hsound : ∀ c, Sound (machine.run es) c (session es c) := by
    refine Machine.invariant_of_always (M := machine) (Q := fun _ g e => ¬LoadedApproval g e)
      (P := fun es g => ∀ c, Sound g c (session es c)) ?_ ?_ h
    · intro c
      simp [session, Sound, machine]
    · intro es e ih hload c
      rw [session, Machine.observe_snoc]
      exact (outcome (machine.run es) e).sound (ih c) hload
  intro c w hw
  have hs := hsound c
  rw [hw] at hs
  exact hs.1

/-- A key press on channel 1. -/
def keyPress : BridgeMessage := { channel := 1, payload := ascii "3.key,2.97,1.1;" }

theorem clean_keyPress :
    machine.Always (fun _ g e => ¬LoadedApproval g e) (turn [] request ++ turn [] keyPress) := by
  change Machine.Always _ _ ([] ++ [_] ++ [_] ++ [_] ++ [_])
  rw [Machine.always_snoc, Machine.always_snoc, Machine.always_snoc, Machine.always_snoc]
  exact ⟨⟨⟨⟨Machine.always_nil, by decide⟩, by decide +kernel⟩, by decide +kernel⟩,
    by decide +kernel⟩

/-- A session with one key press. -/
theorem complies_keyPress :
    session (turn [] request ++ turn [] keyPress) 1 = some keyPress.payload ∧
      Complies keyPress.payload := by
  have hs : session (turn [] request ++ turn [] keyPress) 1 = some keyPress.payload := by
    decide +kernel
  exact ⟨hs, complies_of_clean _ clean_keyPress 1 _ hs⟩

/-- The head of a `name` instruction, sent as a verdict. -/
def hiddenHead : BridgeMessage := { channel := 1, action := .approval, payload := ascii "4.name,6." }

/-- What the parser takes for the rest of it, sent as payload. -/
def smuggled : BridgeMessage := { channel := 1, payload := ascii "3.nop;;" }

/-- A denied opcode reaches guacd behind a verdict that the parser has consumed. -/
theorem smuggled_not_complies :
    ¬∀ c w, session (turn [] request ++ turn [] hiddenHead ++ turn [] smuggled) c = some w →
      Complies w := by
  intro h
  obtain ⟨is, cur, hw, -, -⟩ := h 1 smuggled.payload (by decide +kernel)
  have hread := Cursor.read_start_eq_some_iff.mpr hw
  have hnone : (Cursor.start : Cursor maxElementSize).read smuggled.payload = none := by
    decide +kernel
  simp [hnone] at hread

end Guard

end GuacamoleDiode
