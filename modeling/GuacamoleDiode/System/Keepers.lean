import GuacamoleDiode.System.Tenants

/-!
# The sessions that the guard serves

The guard approves a channel for one session after the other. The session whose request it has
approved last keeps the channel: payload that the guard passes on is its own.

## Main definitions

- `Keeper`: the sessions whose requests the guard has approved last
- `Handled`: what the guard does with what honest readers send

## Main results

- `Keeper.of_payload`: payload that the guard passes on belongs to the session that it serves
- `Keeper.stepGml`, `Keeper.keep`, `Keeper.create`: what the steps preserve
-/

namespace GuacamoleDiode

open Wire

namespace Diode

open ForwardPath (Frame trim linkFrames approves_trim)
open Gcdbroker (Approves Routed)

-- ════════════════════════════════════════════════════════════════════════
-- Who is served by the guard
-- ════════════════════════════════════════════════════════════════════════

/-- The sessions whose requests the guard has approved last. -/
structure Keeper (s : Diode) (t : Trail) (out : List Routed) (user : ℕ → ℕ) (keeper : UInt16 → Option ℕ) :
    Prop where
  approved : ∀ c ∈ s.guard.approved, ∃ n, keeper c = some n
  /-- nothing is on its way to the guard from an earlier session -/
  ahead : ∀ c n, keeper c = some n → ∀ l ∈ letters Creates c t.asked, Lease.Before n l
  /-- nothing has come past the guard from a later session -/
  behind : ∀ c, ∀ m ∈ (opens out c).map user ++ (letters Approves c (t.answered s.gcd)).map Lease.Letter.who,
    ∃ n, keeper c = some n ∧ m ≤ n
  holder : ∀ c n m, s.gml.table c = some n → keeper c = some m → m ≤ n
  spent : ∀ c m, keeper c = some m →
    ∃ session, s.gml.sessions m = some session ∧ session.channel = c ∧ session.Spent

section

variable {s : Diode} {t : Trail} {ms : List BridgeMessage} {out : List Routed} {user : ℕ → ℕ}
  {reg : List (ℕ × Bytes)} {keeper : UInt16 → Option ℕ} {c : UInt16} {msg : BridgeMessage} {n m : ℕ}

/-- Payload that is on its way belongs to a session that has got its connection. -/
theorem Tenanted.opened_of_payload (h : Tenanted s t ms out user reg) {f : Frame}
    (hf : f ∈ t.answered s.gcd ++ t.asked) (haction : f.1.action = .none) :
    f.2 ∈ (opens out f.1.channel).map user := by
  refine (h.lease f.1.channel).payload f.2 ?_
  rcases List.mem_append.mp hf with hf | hf
  · exact List.mem_append_left _ (List.mem_filterMap.mpr ⟨f, hf, letter_payload rfl haction⟩)
  · exact List.mem_append_right _ (List.mem_filterMap.mpr ⟨f, hf, letter_payload rfl haction⟩)

/-- A session that has got a connection has got it on its own channel. -/
theorem Tenanted.channel_of_opened (h : Tenanted s t ms out user reg)
    (hn : n ∈ (opens out c).map user) :
    ∃ session, s.gml.sessions n = some session ∧ session.channel = c ∧ session.Spent :=
  h.spent c n (List.mem_append_left _ hn)

theorem Tenanted.channel_unique (h : Tenanted s t ms out user reg) {c' : UInt16}
    (hn : n ∈ (opens out c).map user) (hn' : n ∈ (opens out c').map user) : c = c' := by
  obtain ⟨session, hs, hc, -⟩ := h.channel_of_opened hn
  obtain ⟨session', hs', hc', -⟩ := h.channel_of_opened hn'
  cases hs.symm.trans hs'
  exact hc.symm.trans hc'

/-- Payload that the guard passes on belongs to the session that it serves. -/
theorem Keeper.of_payload (hk : Keeper s t out user keeper) (h : Tenanted s t ms out user reg)
    {f : Frame} {fs : List Frame} (hasked : t.asked = f :: fs) (haction : f.1.action = .none)
    (happroved : f.1.channel ∈ s.guard.approved) : keeper f.1.channel = some f.2 := by
  have hf : f ∈ t.asked := hasked ▸ List.mem_cons_self
  obtain ⟨n, hn⟩ := hk.approved f.1.channel happroved
  have hopened := h.opened_of_payload (List.mem_append_right _ hf) haction
  obtain ⟨n', hn', hle⟩ := hk.behind f.1.channel f.2 (List.mem_append_left _ hopened)
  cases hn.symm.trans hn'
  have hbefore : n ≤ f.2 := hk.ahead f.1.channel n hn (.payload f.2)
    (List.mem_filterMap.mpr ⟨f, hf, letter_payload rfl haction⟩)
  rw [hn, le_antisymm hbefore hle]

theorem Keeper.stepGml (hk : Keeper s t out user keeper) (hs : Honest s) (ids : ℕ → ℕ → Bytes)
    (e : Gmlbroker.Event) : Keeper (s.stepGml ids e) (t.stepGml s.gml e) out user keeper where
  approved := hk.approved
  behind := hk.behind
  ahead c n hn l hl := by
    rw [letters_stepGml] at hl
    rcases List.mem_append.mp hl with hl | hl
    · exact hk.ahead c n hn l hl
    · obtain ⟨f, hf, hletter⟩ := List.mem_filterMap.mp hl
      obtain ⟨msg, hmsg, rfl⟩ := List.mem_map.mp hf
      obtain ⟨m, session, pending, rfl, hm, hpending⟩ :=
        Gmlbroker.exists_enqueue_of_queued (Option.mem_toList.mp hmsg)
      have hmem : .enqueue msg ∈ session.pending := hpending ▸ List.mem_cons_self
      have hchannel := Gmlbroker.channel_of_enqueue hs.gml hm hmem
      have hle : msg.channel = c → msg.action ≠ .shutdownChannel → n ≤ m := by
        rintro rfl haction
        have htable := hs.gml.table_of_keeps hm (Gmlbroker.keeps_of_enqueue hs.gml hm hpending haction)
        rw [← hchannel] at htable
        exact hk.holder _ m n htable hn
      unfold letter at hletter
      split_ifs at hletter with hc haction hcreates
      · obtain rfl := Option.some.inj hletter
        refine hle hc ?_
        rw [show msg.action = .none from haction]
        exact nofun
      · obtain rfl := Option.some.inj hletter
        have haction' : msg.action = .createChannel := hcreates
        refine lt_of_le_of_ne (hle hc (by simp [haction'])) ?_
        rintro rfl
        -- the session that is served has no request left to send
        obtain ⟨session', hn', -, hspent⟩ := hk.spent c n hn
        cases hm.symm.trans hn'
        exact hspent.pending msg hmem haction'
  holder c n m hn hm := by
    rcases table_stepGml ids hn with hn | rfl
    · exact hk.holder c n m hn hm
    · obtain ⟨session, hsession, -⟩ := hk.spent c m hm
      exact (hs.gml.number m _ (Gmlbroker.holders_eq hsession)).le
  spent c m hm := by
    obtain ⟨session, hsession, rfl, hspent⟩ := hk.spent c m hm
    exact Gmlbroker.spent_step ids hs.gml hsession hspent e

-- ════════════════════════════════════════════════════════════════════════
-- The guard moves
-- ════════════════════════════════════════════════════════════════════════

/-- The message neither carries payload nor approves a channel. -/
def Controls (msg : BridgeMessage) : Prop := msg.action ≠ .none ∧ ¬Approves msg

/-- What a step of the guard does to the channels that are approved behind it. -/
inductive Handled (g : Guard) (e : Guard.Event) (g' : Guard) : List BridgeMessage → Prop where
  | idle (msgs : List BridgeMessage) (received : g.received e = none)
      (controls : ∀ m ∈ msgs, Controls m)
      (same : ∀ c ∈ g'.approved, c ∈ g.approved ∧ g'.parsers c = g.parsers c) : Handled g e g' msgs
  | closed (msgs : List BridgeMessage) (msg : BridgeMessage) (received : g.received e = some msg)
      (controls : ∀ m ∈ msgs, Controls m) (closed : msg.channel ∉ g'.approved)
      (same : ∀ c ∈ g'.approved, c ∈ g.approved ∧ g'.parsers c = g.parsers c) : Handled g e g' msgs
  | created (msg : BridgeMessage) (received : g.received e = some msg) (creates : Creates msg)
      (fresh : g'.parsers msg.channel = some GuardOpcodeParser.fresh)
      (same : ∀ c ∈ g'.approved, c ≠ msg.channel → c ∈ g.approved ∧ g'.parsers c = g.parsers c) :
      Handled g e g' [msg, approvalOf msg]
  | relayed (msgs : List BridgeMessage) (msg : BridgeMessage) (payload : Bytes)
      (parser parser' : OpcodeParser GuardMembers) (received : g.received e = some msg)
      (action : msg.action = .none) (approved : g'.approved = g.approved)
      (cleared : msg.channel ∈ g.approved) (before : g.parsers msg.channel = some parser)
      (cleanse : parser.cleanse GuardOpcodeParser.hooks msg.payload = some (payload, parser'))
      (parsers : g'.parsers = Function.update g.parsers msg.channel (some parser'))
      (sent : msgs = [{ msg with payload := payload }] ∨ msgs = [] ∧ payload = []) :
      Handled g e g' msgs

theorem controls_shutdown (c : UInt16) : Controls { channel := c, action := .shutdownChannel } :=
  ⟨by simp, ForwardPath.not_approves (by simp)⟩

/-- The channels are torn down all together. -/
theorem handled_shutdowns {g g' : Guard} {e : Guard.Event} (order : List UInt16)
    (hreceived : g.received e = none) (happroved : g'.approved = ∅) :
    ∃ msgs, order.map Guard.shutdown = msgs.map Multiplexer.serialize ∧ Handled g e g' msgs := by
  refine ⟨order.map fun c => { channel := c, action := .shutdownChannel }, by simp [Guard.shutdown], ?_⟩
  refine .idle _ hreceived (fun m hm => ?_) (by simp [happroved])
  obtain ⟨c, -, rfl⟩ := List.mem_map.mp hm
  exact controls_shutdown c

theorem same_of_erase {g k : Guard} {c : UInt16} {p : Option (OpcodeParser GuardMembers)}
    (happroved : k.approved = g.approved.erase c) (hparsers : k.parsers = Function.update g.parsers c p) :
    c ∉ k.approved ∧ ∀ d ∈ k.approved, d ∈ g.approved ∧ k.parsers d = g.parsers d := by
  rw [happroved]
  refine ⟨by simp, fun d hd => ?_⟩
  obtain ⟨hne, hd⟩ := Finset.mem_erase.mp hd
  rw [hparsers, Function.update_of_ne hne]
  exact ⟨hd, rfl⟩

/-- Payload on a channel. -/
theorem handled_payload {g : Guard} {e : Guard.Event} (hg : Guard.Consistent g)
    (hreceived : g.received e = some msg) (haction : msg.action = .none) :
    ∃ msgs, (g.step e).2 = msgs.map Multiplexer.serialize ∧ Handled g e (g.step e).1 msgs := by
  have hstep : g.step e = { g with receiving := false }.relay (Multiplexer.serialize msg) msg := by
    rw [Guard.step_of_received hreceived, Guard.dispatch, haction]
  rw [hstep, Guard.relay]
  dsimp only
  by_cases happroved : msg.channel ∈ g.approved
  · have hpoisoned : msg.channel ∉ g.poisoned := Finset.disjoint_left.mp hg.disjoint happroved
    obtain ⟨parser, hparser⟩ := Option.ne_none_iff_exists'.mp (hg.entry msg.channel happroved)
    rw [if_neg hpoisoned, if_pos happroved, hparser, Option.getD_some]
    generalize hresult : parser.parse GuardOpcodeParser.hooks msg.payload = r
    obtain ⟨state, parser'⟩ := r
    cases state with
    | streamCorrupted =>
      obtain ⟨hclosed, hsame⟩ := same_of_erase (g := g) (k := { g with
        receiving := false
        parsers := Function.update g.parsers msg.channel none
        approved := g.approved.erase msg.channel
        poisoned := insert msg.channel g.poisoned }) rfl rfl
      refine ⟨[{ channel := msg.channel, action := .shutdownChannel }], rfl,
        .closed _ msg hreceived (fun m hm => ?_) hclosed hsame⟩
      rw [List.mem_singleton.mp hm]
      exact controls_shutdown _
    | deniedData =>
      have hcleanse := OpcodeParser.cleanse_of_denied (congrArg Prod.fst hresult)
      rw [hresult] at hcleanse
      dsimp only [Guard.settle]
      split_ifs with hnil
      · exact ⟨[], rfl, .relayed [] msg _ parser _ hreceived haction rfl happroved hparser hcleanse rfl
          (.inr ⟨rfl, hnil⟩)⟩
      · exact ⟨[{ msg with payload := _ }], rfl, .relayed _ msg _ parser _ hreceived haction rfl happroved
          hparser hcleanse rfl (.inl rfl)⟩
    | _ =>
      have hcleanse := OpcodeParser.cleanse_of_clean (H := GuardOpcodeParser.hooks) (p := parser)
        (d := msg.payload) (by simp [hresult]) (by simp [hresult])
      rw [hresult] at hcleanse
      exact ⟨[{ msg with payload := _ }], rfl, .relayed _ msg _ parser _ hreceived haction rfl happroved
        hparser hcleanse rfl (.inl rfl)⟩
  · have hquiet : (if msg.channel ∈ g.poisoned then ({ g with receiving := false }, [])
        else if msg.channel ∈ g.approved then
          { g with receiving := false }.settle (Multiplexer.serialize msg) msg
            (((g.parsers msg.channel).getD GuardOpcodeParser.fresh).parse GuardOpcodeParser.hooks msg.payload)
        else ({ g with receiving := false }, [])) = ({ g with receiving := false }, []) := by
      split_ifs <;> rfl
    rw [hquiet]
    exact ⟨[], rfl, .closed [] msg hreceived (by simp) happroved fun c hc => ⟨hc, rfl⟩⟩

/-- What the guard does with what honest readers send. -/
theorem handled_step {g : Guard} (hg : Guard.Consistent g) (e : Guard.Event)
    (hsound : ∀ msg, g.received e = some msg → Gmlbroker.Sound Drawn msg) :
    ∃ msgs, (g.step e).2 = msgs.map Multiplexer.serialize ∧ Handled g e (g.step e).1 msgs := by
  have houtcome := Guard.outcome g e
  cases hreceived : g.received e with
  | none =>
    have hno : ∀ {msg}, g.received e ≠ some msg := fun hmsg => nomatch hreceived.symm.trans hmsg
    generalize (g.step e).2 = sent at houtcome
    generalize (g.step e).1 = g' at houtcome
    cases houtcome with
    | quiet hparsers _ happroved =>
      exact ⟨[], rfl, .idle [] hreceived (by simp) fun c hc => ⟨happroved ▸ hc, by rw [hparsers]⟩⟩
    | tornDown order _ _ _ _ happroved => exact handled_shutdowns order hreceived happroved
    | halted order _ _ _ _ happroved => exact handled_shutdowns order hreceived happroved
    | approvedCreate _ hmsg => exact absurd hmsg hno
    | deniedCreate _ hmsg => exact absurd hmsg hno
    | closed _ hmsg => exact absurd hmsg hno
    | corrupted _ hmsg => exact absurd hmsg hno
    | relayed _ _ _ hmsg => exact absurd hmsg hno
  | some msg =>
    have hmine : ∀ {msg'}, g.received e = some msg' → msg' = msg :=
      fun hmsg => Option.some.inj (hmsg.symm.trans hreceived)
    have hone := hsound msg hreceived
    cases haction : msg.action with
    | none => exact handled_payload hg hreceived haction
    | approval => exact absurd haction hone.approval
    | createChannel =>
      have hvalid : isValidRequestId msg.payload = true := hone.create haction
      have hevent := Guard.channelEvent_of_received hreceived msg.channel
      rw [if_pos rfl, Guard.messageEvent, haction, if_pos hvalid] at hevent
      generalize (g.step e).2 = sent at houtcome
      generalize (g.step e).1 = g' at houtcome
      cases houtcome with
      | quiet _ _ _ hquiet => cases (hquiet msg.channel).symm.trans hevent
      | approvedCreate msg' hmsg _ _ happrove hparsers _ happroved =>
        obtain rfl := hmine hmsg
        refine ⟨[msg', approvalOf msg'], ?_, .created msg' hreceived haction (by simp [hparsers]) ?_⟩
        · simp [Guard.approvalFor, approvalOf, happrove]
        · intro c hc hne
          rw [happroved, Finset.mem_insert, Finset.mem_erase] at hc
          rw [hparsers, Function.update_of_ne hne]
          exact ⟨(hc.resolve_left hne).2, rfl⟩
      | deniedCreate msg' hmsg _ _ hdeny hparsers _ happroved =>
        obtain rfl := hmine hmsg
        obtain ⟨hclosed, hsame⟩ := same_of_erase happroved hparsers
        refine ⟨[msg', g.approvalFor msg', { channel := msg'.channel, action := .shutdownChannel }], rfl,
          .closed _ msg' hreceived (fun m hm => ?_) hclosed hsame⟩
        have hne : approvalDeny ≠ approvalApprove := by decide
        simp only [List.mem_cons, List.not_mem_nil, or_false] at hm
        rcases hm with rfl | rfl | rfl
        · exact ⟨by simp [haction], ForwardPath.not_approves (by simp [haction])⟩
        · exact ⟨by simp [Guard.approvalFor],
            by simp [Approves, Guard.approvalFor, Gcdbroker.verdict, hdeny, hne]⟩
        · exact controls_shutdown _
      | closed msg' hmsg haction' => cases (hmine hmsg ▸ haction').symm.trans haction
      | corrupted msg' hmsg haction' =>
        rcases haction' with haction' | haction' <;> cases (hmine hmsg ▸ haction').symm.trans haction
      | relayed msg' _ _ hmsg haction' =>
        rcases haction' with haction' | haction' <;> cases (hmine hmsg ▸ haction').symm.trans haction
      | tornDown order he => simp [he, Guard.received] at hreceived
      | halted order he => simp [he, Guard.received] at hreceived
    | shutdownChannel =>
      have hevent := Guard.channelEvent_of_received hreceived msg.channel
      rw [if_pos rfl, Guard.messageEvent, haction] at hevent
      generalize (g.step e).2 = sent at houtcome
      generalize (g.step e).1 = g' at houtcome
      cases houtcome with
      | quiet _ _ _ hquiet => cases (hquiet msg.channel).symm.trans hevent
      | closed msg' hmsg _ hparsers _ happroved =>
        obtain rfl := hmine hmsg
        obtain ⟨hclosed, hsame⟩ := same_of_erase happroved hparsers
        refine ⟨[msg'], rfl, .closed _ msg' hreceived (fun m hm => ?_) hclosed hsame⟩
        rw [List.mem_singleton.mp hm]
        exact ⟨by simp [haction], ForwardPath.not_approves (by simp [haction])⟩
      | approvedCreate msg' hmsg haction' => cases (hmine hmsg ▸ haction').symm.trans haction
      | deniedCreate msg' hmsg haction' => cases (hmine hmsg ▸ haction').symm.trans haction
      | corrupted msg' hmsg haction' =>
        rcases haction' with haction' | haction' <;> cases (hmine hmsg ▸ haction').symm.trans haction
      | relayed msg' _ _ hmsg haction' =>
        rcases haction' with haction' | haction' <;> cases (hmine hmsg ▸ haction').symm.trans haction
      | tornDown order he => simp [he, Guard.received] at hreceived
      | halted order he => simp [he, Guard.received] at hreceived

theorem asked_subset_stepGuard (h : Tenanted s t ms out user reg) {e : Guard.Event}
    (happlies : s.applies (.guard e) = true) (c : UInt16) :
    letters Creates c (t.stepGuard s.guard e).asked ⊆ letters Creates c t.asked := by
  rw [asked_stepGuard h.toGuard happlies, letters_append]
  exact List.subset_append_right _ _

theorem letters_answered_stepGuard {g : Guard} {e : Guard.Event} {msgs : List BridgeMessage}
    (hout : (g.step e).2 = msgs.map Multiplexer.serialize) (b : Gcdbroker) (c : UInt16) :
    letters Approves c ((t.stepGuard g e).answered b) = letters Approves c (t.answered b) ++
      letters Approves c (msgs.map fun m => (m, t.author e)) := by
  have htrim : letters Approves c ((msgs.map fun m => (m, t.author e)).map fun f => (trim f.1, f.2)) =
      letters Approves c (msgs.map fun m => (m, t.author e)) := letters_trim fun _ _ => approves_trim
  rw [List.map_map] at htrim
  rw [answered_stepGuard hout, letters_append, ← htrim]
  rfl

/-- The guard goes on without a new session. -/
theorem Keeper.keep (hk : Keeper s t out user keeper) (h : Tenanted s t ms out user reg)
    {e : Guard.Event} (happlies : s.applies (.guard e) = true) {msgs : List BridgeMessage}
    (hout : (s.guard.step e).2 = msgs.map Multiplexer.serialize)
    (happroved : (s.guard.step e).1.approved ⊆ s.guard.approved)
    (hmsgs : ∀ c, ∀ l ∈ letters Approves c (msgs.map fun m => (m, t.author e)),
      ∃ n, keeper c = some n ∧ l.who ≤ n) :
    Keeper (s.stepGuard e) (t.stepGuard s.guard e) out user keeper where
  approved c hc := hk.approved c (happroved hc)
  ahead c n hn l hl := hk.ahead c n hn l (asked_subset_stepGuard h happlies c hl)
  behind c m hm := by
    change m ∈ _ ++ (letters Approves c ((t.stepGuard s.guard e).answered s.gcd)).map _ at hm
    rw [letters_answered_stepGuard hout, List.map_append, ← List.append_assoc] at hm
    rcases List.mem_append.mp hm with hm | hm
    · exact hk.behind c m hm
    · obtain ⟨l, hl, rfl⟩ := List.mem_map.mp hm
      exact hmsgs c l hl
  holder := hk.holder
  spent := hk.spent

theorem letters_controls {msgs : List BridgeMessage} (h : ∀ m ∈ msgs, Controls m) (a : ℕ) (c : UInt16) :
    letters Approves c (msgs.map fun m => (m, a)) = [] := by
  refine letters_eq_nil fun f hf => ?_
  obtain ⟨m, hm, rfl⟩ := List.mem_map.mp hf
  exact h m hm

/-- The guard starts to serve a session. -/
theorem Keeper.create (hk : Keeper s t out user keeper) (h : Tenanted s t ms out user reg)
    {e : Guard.Event} (happlies : s.applies (.guard e) = true)
    (hout : (s.guard.step e).2 = [msg, approvalOf msg].map Multiplexer.serialize)
    (hreceived : s.guard.received e = some msg) (hcreates : Creates msg)
    (happroved : ∀ c ∈ (s.guard.step e).1.approved, c ≠ msg.channel → c ∈ s.guard.approved) :
    Keeper (s.stepGuard e) (t.stepGuard s.guard e) out user
      (Function.update keeper msg.channel (some (t.author e))) := by
  have hasked := asked_stepGuard h.toGuard happlies
  rw [hreceived] at hasked
  have haction : msg.action = .createChannel := hcreates
  have hletter : letter Creates msg.channel (msg, t.author e) = some (.request (t.author e)) :=
    letter_request rfl (by simp [haction]) hcreates
  have hqueue : (t.lease s.gcd out user msg.channel).queue =
      letters Approves msg.channel (t.answered s.gcd) ++
        .request (t.author e) :: letters Creates msg.channel (t.stepGuard s.guard e).asked := by
    rw [Trail.lease, hasked]
    simp only [Option.toList_some, List.map_cons, List.map_nil, List.singleton_append, letters_cons,
      hletter]
  have hlease := h.lease msg.channel
  have hpairwise := hlease.queue
  rw [hqueue, List.pairwise_append, List.pairwise_cons] at hpairwise
  have hmem : .request (t.author e) ∈ (t.lease s.gcd out user msg.channel).queue := by
    rw [hqueue]
    exact List.mem_append_right _ List.mem_cons_self
  have hknown : t.author e ∈ (t.lease s.gcd out user msg.channel).known :=
    Lease.mem_known_of_mem_queue hmem
  have hother : ∀ {c n}, c ≠ msg.channel →
      Function.update keeper msg.channel (some (t.author e)) c = some n → keeper c = some n := by
    intro c n hc hn
    rwa [Function.update_of_ne hc] at hn
  refine ⟨fun c hc => ?_, fun c n hn l hl => ?_, fun c m hm => ?_, fun c n m hn hm => ?_, fun c m hm => ?_⟩
  · by_cases hchannel : c = msg.channel
    · exact ⟨t.author e, by rw [hchannel, Function.update_self]⟩
    · obtain ⟨n, hn⟩ := hk.approved c (happroved c hc hchannel)
      exact ⟨n, by rw [Function.update_of_ne hchannel, hn]⟩
  · by_cases hchannel : c = msg.channel
    · subst hchannel
      rw [Function.update_self] at hn
      obtain rfl := Option.some.inj hn
      exact hpairwise.2.1.1 l hl
    · exact hk.ahead c n (hother hchannel hn) l (asked_subset_stepGuard h happlies c hl)
  · change m ∈ _ ++ (letters Approves c ((t.stepGuard s.guard e).answered s.gcd)).map _ at hm
    rw [letters_answered_stepGuard hout, List.map_append, ← List.append_assoc] at hm
    by_cases hchannel : c = msg.channel
    · subst hchannel
      refine ⟨t.author e, Function.update_self .., ?_⟩
      have hskip : letter Approves msg.channel (msg, t.author e) = none :=
        letter_eq_none (by simp [haction]) (ForwardPath.not_approves (by simp [haction]))
      have happroval : letter Approves msg.channel (approvalOf msg, t.author e) =
          some (.request (t.author e)) :=
        letter_request rfl (by simp [approvalOf]) (approves_approvalOf msg)
      rcases List.mem_append.mp hm with hm | hm
      · rcases List.mem_append.mp hm with hm | hm
        · exact (hlease.opened m hm _ hmem).le
        · obtain ⟨l, hl, rfl⟩ := List.mem_map.mp hm
          have hbefore := hpairwise.2.2 l hl _ List.mem_cons_self
          exact hbefore.le
      · obtain rfl : m = t.author e := by
          simpa [letters, hskip, happroval, Lease.Letter.who] using hm
        exact le_rfl
    · have hnil : letters Approves c ([msg, approvalOf msg].map fun m => (m, t.author e)) = [] := by
        have hne : msg.channel ≠ c := Ne.symm hchannel
        simp [letters, letter, approvalOf, hne]
      rw [hnil, List.map_nil, List.append_nil] at hm
      obtain ⟨n, hn, hle⟩ := hk.behind c m hm
      exact ⟨n, by rw [Function.update_of_ne hchannel, hn], hle⟩
  · by_cases hchannel : c = msg.channel
    · subst hchannel
      rw [Function.update_self] at hm
      obtain rfl := Option.some.inj hm
      exact h.holder msg.channel n hn _ hknown
    · exact hk.holder c n m hn (hother hchannel hm)
  · by_cases hchannel : c = msg.channel
    · subst hchannel
      rw [Function.update_self] at hm
      obtain rfl := Option.some.inj hm
      exact h.spent msg.channel _ hknown
    · exact hk.spent c m (hother hchannel hm)

end

end Diode

end GuacamoleDiode
