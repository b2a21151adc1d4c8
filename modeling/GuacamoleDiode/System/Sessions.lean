import GuacamoleDiode.System.ForwardPath

/-!
# One connection, one parser

The guard starts the parser of a channel on a CREATE, gcdbroker dials guacd on the APPROVAL
that answers it. Both keep their own state for a channel, and the datagrams between them
keep it aligned: as long as gcdbroker refuses no approval and the low side forges none,
everything that gcdbroker writes from the bridge to one connection was sent under one
parser, which serves no other connection.

## Main definitions

- `frames`: the messages between the parser of a channel and its connection
- `Follows`: the frames of a channel lead from the parser of its connection to that of the
  guard
- `OneSession`: connections and parsers belong together

## Main results

- `oneSession_of_clean`
-/

namespace GuacamoleDiode

open Wire

namespace ForwardPath

open Gcdbroker

/-- A message, and the parser that it was sent under. -/
abbrev Frame := BridgeMessage × ℕ

-- ════════════════════════════════════════════════════════════════════════
-- The frames of one channel
-- ════════════════════════════════════════════════════════════════════════

/-- The parser whose payload may follow a frame of a channel, if gcdbroker has a connection
for it. -/
def current (c : UInt16) (cur : Option ℕ) (f : Frame) : Option ℕ :=
  if f.1.channel ≠ c then cur
  else if f.1.action = .shutdownChannel then none
  else if Approves f.1 then some f.2
  else cur

/-- Payload of the channel only comes from the parser that it may come from. -/
def Agrees (c : UInt16) : Option ℕ → List Frame → Prop
  | _, [] => True
  | cur, f :: fs =>
    (f.1.channel = c → f.1.action = .none → ∀ g, cur = some g → f.2 = g) ∧
      Agrees c (current c cur f) fs

/-- The frames lead to the parser that the guard has for an approved channel. -/
def Follows (approved : Prop) (session : ℕ) (c : UInt16) (cur : Option ℕ) (fs : List Frame) : Prop :=
  Agrees c cur fs ∧ (approved → ∀ g, fs.foldl (current c) cur = some g → g = session)

section

variable {c : UInt16} {cur : Option ℕ} {f : Frame} {fs fs' : List Frame} {approved : Prop}
  {session : ℕ}

theorem current_of_ne (h : f.1.channel ≠ c) : current c cur f = cur := if_pos h

theorem current_of_skip (hact : f.1.action ≠ .shutdownChannel) (happ : ¬Approves f.1) :
    current c cur f = cur := by
  simp [current, hact, happ]

theorem current_of_approves (hc : f.1.channel = c) (happ : Approves f.1) :
    current c cur f = some f.2 := by
  have hact : f.1.action ≠ .shutdownChannel := by simp [happ.1]
  simp [current, hc, hact, happ]

/-- Without a connection less is asked for. -/
theorem current_none (c : UInt16) (cur : Option ℕ) (f : Frame) :
    current c none f = current c cur f ∨ current c none f = none := by
  unfold current
  split_ifs <;> simp

theorem agrees_append : Agrees c cur (fs ++ fs') ↔
    Agrees c cur fs ∧ Agrees c (fs.foldl (current c) cur) fs' := by
  induction fs generalizing cur with
  | nil => simp [Agrees]
  | cons f fs ih => simp only [List.cons_append, Agrees, List.foldl_cons, ih, and_assoc]

theorem Agrees.unbound (h : Agrees c cur fs) : Agrees c none fs := by
  induction fs generalizing cur with
  | nil => trivial
  | cons f fs ih =>
    refine ⟨by simp, ?_⟩
    rcases current_none c cur f with heq | heq
    · rw [heq]
      exact h.2
    · rw [heq]
      exact ih h.2

theorem foldl_current_none {g : ℕ} (h : fs.foldl (current c) none = some g) :
    fs.foldl (current c) cur = some g := by
  induction fs generalizing cur with
  | nil => cases h
  | cons f fs ih =>
    rw [List.foldl_cons] at h ⊢
    rcases current_none c cur f with heq | heq
    · rw [← heq]
      exact h
    · rw [heq] at h
      exact ih h

theorem Follows.unbound (h : Follows approved session c cur fs) :
    Follows approved session c none fs :=
  ⟨h.1.unbound, fun ha g hg => h.2 ha g (foldl_current_none hg)⟩

theorem Follows.tail (h : Follows approved session c cur (f :: fs)) :
    Follows approved session c (current c cur f) fs :=
  ⟨h.1.2, h.2⟩

/-- Frames that carry no payload. -/
theorem agrees_of_control (h : ∀ f ∈ fs, f.1.action ≠ .none) : Agrees c cur fs := by
  induction fs generalizing cur with
  | nil => trivial
  | cons f fs ih =>
    exact ⟨fun _ hact => absurd hact (h f (by simp)), ih fun f hf => h f (by simp [hf])⟩

end

-- ════════════════════════════════════════════════════════════════════════
-- What the guard sends
-- ════════════════════════════════════════════════════════════════════════

/-- What gcdbroker receives of a message: the buffer holds one payload. -/
def trim (m : BridgeMessage) : BridgeMessage :=
  { m with payload := m.payload.take Multiplexer.maxPayloadSize }

theorem heard_serialize (m : BridgeMessage) : heard (Multiplexer.serialize m) = some (trim m) := by
  have hreceive : UDPReceiver.receive Gcdbroker.bufferSize (Multiplexer.serialize m) =
      Multiplexer.serialize (trim m) := rfl
  rw [heard, arrival, hreceive]
  exact Multiplexer.tryCast_serialize (List.length_take_le _ _)

theorem approves_trim {m : BridgeMessage} : Approves (trim m) ↔ Approves m := by
  have hverdict : verdict (trim m) = verdict m := by
    simp only [verdict, trim]
    cases m.payload <;> rfl
  rw [Approves, Approves, hverdict]
  rfl

/-- The frames of the datagrams on the link. -/
def linkFrames (link : List (Bytes × ℕ)) : List Frame :=
  link.filterMap fun d => (heard d.1).map fun m => (m, d.2)

theorem linkFrames_cons (d : Bytes) (x : ℕ) (link : List (Bytes × ℕ)) :
    linkFrames ((d, x) :: link) = ((heard d).map fun m => (m, x)).toList ++ linkFrames link := by
  cases h : heard d <;> simp [linkFrames, h]

/-- The frames of the messages that a step of the guard sends. -/
theorem linkFrames_serialize (session : UInt16 → ℕ) (msgs : List BridgeMessage) :
    linkFrames ((msgs.map Multiplexer.serialize).map fun d => (d, label session d)) =
      msgs.map fun m => (trim m, session m.channel) := by
  induction msgs with
  | nil => rfl
  | cons m msgs ih =>
    have hlabel : label session (Multiplexer.serialize m) = session m.channel := by
      simp [label, heard_serialize, trim]
    simp only [linkFrames, List.map_cons, List.filterMap_cons, heard_serialize, Option.map_some,
      hlabel] at ih ⊢
    rw [ih]

/-- A step that starts a parser creates the channel. -/
theorem channelEvent_of_starts {g : Guard} {e : Guard.Event} {c : UInt16}
    (h : g.starts e = some c) : ∃ b, g.channelEvent e c = some (.created b) := by
  unfold Guard.starts at h
  split at h
  · next msg hmsg =>
    split_ifs at h with hcreate
    cases h
    rw [Guard.channelEvent_of_received hmsg, if_pos rfl]
    simp [Guard.messageEvent, hcreate.1, hcreate.2]
  · cases h

theorem starts_eq_none {g : Guard} {e : Guard.Event}
    (h : ∀ c b, g.channelEvent e c ≠ some (.created b)) : g.starts e = none := by
  rw [Option.eq_none_iff_forall_ne_some]
  intro c hc
  obtain ⟨b, hb⟩ := channelEvent_of_starts hc
  exact h c b hb

theorem starts_of_create {g : Guard} {e : Guard.Event} {msg : BridgeMessage}
    (hmsg : g.received e = some msg) (hact : msg.action = .createChannel)
    (hid : isValidRequestId msg.payload = true) : g.starts e = some msg.channel := by
  simp [Guard.starts, hmsg, hact, hid]

/-- What a step of the guard sends: a CREATE with an approval, messages without payload, or
payload of an approved channel. -/
inductive Sent (g : Guard) (e : Guard.Event) (g' : Guard) : List BridgeMessage → Prop where
  | approved (msg verdict : BridgeMessage) (action : msg.action = .createChannel)
      (approves : Approves verdict) (channel : verdict.channel = msg.channel)
      (starts : g.starts e = some msg.channel)
      (approved : g'.approved = insert msg.channel (g.approved.erase msg.channel)) :
      Sent g e g' [msg, verdict]
  | control (msgs : List BridgeMessage) (actions : ∀ m ∈ msgs, m.action ≠ .none ∧ ¬Approves m)
      (approved : ∀ c ∈ g'.approved, c ∈ g.approved ∧ g.starts e ≠ some c) : Sent g e g' msgs
  | payload (msg : BridgeMessage) (action : msg.action = .none) (cleared : msg.channel ∈ g.approved)
      (approved : g'.approved = g.approved) (starts : g.starts e = none) : Sent g e g' [msg]

section

variable {g g' : Guard} {e : Guard.Event} {out : List Bytes} {started : ℕ} {session : UInt16 → ℕ}

theorem sessions_self {c : UInt16} (h : g.starts e = some c) :
    sessions g e started session c = started := by
  simp [sessions, h]

theorem sessions_of_ne {c : UInt16} (h : g.starts e ≠ some c) :
    sessions g e started session c = session c := by
  cases hs : g.starts e with
  | none => simp [sessions, hs]
  | some c' =>
    have hne : c ≠ c' := by
      rintro rfl
      exact h hs
    simp [sessions, hs, hne]

/-- A message with another action than an approval does not approve. -/
theorem not_approves {m : BridgeMessage} (h : m.action ≠ .approval) : ¬Approves m := fun h' => h h'.1

theorem sent_shutdowns (order : List UInt16) (h : g'.approved = ∅) :
    ∃ msgs, order.map Guard.shutdown = msgs.map Multiplexer.serialize ∧ Sent g e g' msgs := by
  refine ⟨order.map fun c => { channel := c, action := .shutdownChannel }, ?_, ?_⟩
  · simp [Guard.shutdown]
  · refine .control _ ?_ (by simp [h])
    intro m hm
    obtain ⟨c, -, rfl⟩ := List.mem_map.mp hm
    exact ⟨by simp, not_approves (by simp)⟩

/-- What the guard sends, as long as the low side forges no approval. -/
theorem sent (h : Guard.Outcome g e g' out) (hforged : ¬Guard.ForgedApproval g e) :
    ∃ msgs, out = msgs.map Multiplexer.serialize ∧ Sent g e g' msgs := by
  cases h with
  | quiet _ _ ha hev =>
    have hnone : g.starts e = none := starts_eq_none (by simp [hev])
    exact ⟨[], rfl, .control [] (by simp) fun c hc => ⟨ha ▸ hc, by simp [hnone]⟩⟩
  | approvedCreate msg hr hact hid hverdict _ _ ha =>
    refine ⟨[msg, g.approvalFor msg], rfl,
      .approved msg _ hact ?_ rfl (starts_of_create hr hact hid) ha⟩
    simp [Approves, Guard.approvalFor, verdict, hverdict]
  | deniedCreate msg hr hact hid hverdict _ _ ha =>
    refine ⟨[msg, g.approvalFor msg, { channel := msg.channel, action := .shutdownChannel }], rfl,
      .control _ ?_ ?_⟩
    · have hdeny : ¬Approves (g.approvalFor msg) := by
        have hne : approvalDeny ≠ approvalApprove := by decide
        simp [Approves, Guard.approvalFor, verdict, hverdict, hne]
      simp only [List.mem_cons, List.not_mem_nil, or_false, forall_eq_or_imp, forall_eq]
      exact ⟨⟨by simp [hact], not_approves (by simp [hact])⟩, ⟨by simp [Guard.approvalFor], hdeny⟩,
        by simp, not_approves (by simp)⟩
    · intro c hc
      rw [ha, Finset.mem_erase] at hc
      refine ⟨hc.2, ?_⟩
      rw [starts_of_create hr hact hid]
      simpa [eq_comm] using hc.1
  | closed msg hr hact _ _ ha hev =>
    have hnone : g.starts e = none := starts_eq_none fun c b => by rw [hev]; split_ifs <;> simp
    refine ⟨[msg], rfl, .control _ ?_ fun c hc => ?_⟩
    · simpa [hact] using not_approves (by simp [hact])
    · rw [ha, Finset.mem_erase] at hc
      exact ⟨hc.2, by simp [hnone]⟩
  | corrupted msg _ _ _ _ _ _ ha hev =>
    have hnone : g.starts e = none := starts_eq_none fun c b => by rw [hev]; split_ifs <;> simp
    refine ⟨[{ channel := msg.channel, action := .shutdownChannel }], rfl,
      .control _ ?_ fun c hc => ?_⟩
    · simpa using not_approves (by simp)
    · rw [ha, Finset.mem_erase] at hc
      exact ⟨hc.2, by simp [hnone]⟩
  | relayed msg payload parser hr hact hc _ _ _ ha hev hout =>
    have hnone : g.starts e = none := starts_eq_none (by simp [hev])
    rcases hout with rfl | ⟨rfl, -⟩
    · rcases hact with hact | hact
      · exact ⟨[{ msg with payload := payload }], rfl, .payload _ hact hc ha hnone⟩
      · exact absurd ⟨msg, hr, hact, hc⟩ hforged
    · exact ⟨[], rfl, .control [] (by simp) fun c hc => ⟨ha ▸ hc, by simp [hnone]⟩⟩
  | tornDown order _ _ _ _ ha => exact sent_shutdowns order ha
  | halted order _ _ _ _ ha => exact sent_shutdowns order ha

/-- Messages without payload end a session, or leave it as it is. -/
theorem foldl_current_control {c : UInt16} {cur : Option ℕ} {fs : List Frame} {x : ℕ}
    (h : ∀ f ∈ fs, ¬Approves f.1) (hx : fs.foldl (current c) cur = some x) : cur = some x := by
  induction fs generalizing cur with
  | nil => exact hx
  | cons f fs ih =>
    have hcur := ih (fun f hf => h f (by simp [hf])) hx
    unfold current at hcur
    split_ifs at hcur with h₁ h₂ h₃
    · exact hcur
    · exact absurd h₃ (h f (by simp))
    · exact hcur

/-- The frames of messages that the guard sends in a step. -/
def sentFrames (g : Guard) (e : Guard.Event) (started : ℕ) (session : UInt16 → ℕ)
    (msgs : List BridgeMessage) : List Frame :=
  msgs.map fun m => (trim m, sessions g e started session m.channel)

/-- The frames that the guard adds lead on to the parser that it has then. -/
theorem Sent.follows {msgs : List BridgeMessage} (h : Sent g e g' msgs) {c : UInt16}
    {cur : Option ℕ} {fs : List Frame}
    (hfollows : Follows (c ∈ g.approved) (session c) c cur fs) :
    Follows (c ∈ g'.approved) (sessions g e started session c) c cur
      (fs ++ sentFrames g e started session msgs) := by
  obtain ⟨hagrees, hfinal⟩ := hfollows
  rw [Follows, agrees_append, List.foldl_append]
  generalize fs.foldl (current c) cur = x at hfinal ⊢
  cases h with
  | approved msg verdict hact happ hchannel hstarts ha =>
    have hcreate : ∀ y g, current c y (trim msg, g) = y := fun y g =>
      current_of_skip (by simp [trim, hact]) (not_approves (by simp [trim, hact]))
    refine ⟨⟨hagrees, agrees_of_control ?_⟩, ?_⟩
    · simp [sentFrames, trim, hact, happ.1]
    · intro hc y hy
      simp only [sentFrames, List.map_cons, List.map_nil, List.foldl_cons, List.foldl_nil,
        hcreate] at hy
      by_cases heq : msg.channel = c
      · rw [current_of_approves (hchannel.trans heq) (approves_trim.mpr happ)] at hy
        cases hy
        rw [hchannel, heq]
      · rw [current_of_ne (by simpa [trim, hchannel] using heq)] at hy
        rw [ha, Finset.mem_insert, Finset.mem_erase] at hc
        rw [sessions_of_ne (by simpa [hstarts] using heq)]
        exact hfinal (hc.resolve_left (Ne.symm heq)).2 y hy
  | control _ hactions ha =>
    have hframe : ∀ f ∈ sentFrames g e started session msgs, f.1.action ≠ .none ∧ ¬Approves f.1 := by
      intro f hf
      obtain ⟨m, hm, rfl⟩ := List.mem_map.mp hf
      exact ⟨(hactions m hm).1, fun h => (hactions m hm).2 (approves_trim.mp h)⟩
    refine ⟨⟨hagrees, agrees_of_control fun f hf => (hframe f hf).1⟩, ?_⟩
    intro hc y hy
    rw [sessions_of_ne (ha c hc).2]
    exact hfinal (ha c hc).1 y (foldl_current_control (fun f hf => (hframe f hf).2) hy)
  | payload msg hact hc ha hstarts =>
    have hsession : ∀ c, sessions g e started session c = session c := fun c =>
      sessions_of_ne (by simp [hstarts])
    refine ⟨⟨hagrees, ⟨fun heq _ y hy => ?_, trivial⟩⟩, ?_⟩
    · obtain rfl : msg.channel = c := heq
      exact (hsession _).trans (hfinal hc y hy).symm
    · intro hc' y hy
      simp only [sentFrames, List.map_cons, List.map_nil, List.foldl_cons, List.foldl_nil] at hy
      rw [current_of_skip (by simp [trim, hact]) (not_approves (by simp [trim, hact]))] at hy
      rw [hsession]
      exact hfinal (ha ▸ hc') y hy

/-- Only a new parser approves, and only once. -/
theorem Sent.approvals {msgs : List BridgeMessage} (h : Sent g e g' msgs) (started : ℕ)
    (session : UInt16 → ℕ) :
    (∀ f ∈ sentFrames g e started session msgs, ¬Approves f.1) ∨
      (∃ c, g.starts e = some c) ∧ ∃ f f', sentFrames g e started session msgs = [f, f'] ∧
        ¬Approves f.1 ∧ f'.2 = started := by
  cases h with
  | approved msg verdict hact _ hchannel hstarts _ =>
    refine .inr ⟨⟨_, hstarts⟩, _, _, rfl, not_approves (by simp [trim, hact]), ?_⟩
    dsimp only
    rw [hchannel]
    exact sessions_self hstarts
  | control _ hactions _ =>
    refine .inl fun f hf => ?_
    obtain ⟨m, hm, rfl⟩ := List.mem_map.mp hf
    exact fun h => (hactions m hm).2 (approves_trim.mp h)
  | payload msg hact _ _ _ =>
    refine .inl fun f hf => ?_
    obtain ⟨m, hm, rfl⟩ := List.mem_map.mp hf
    rw [List.mem_singleton] at hm
    exact not_approves (by simp [trim, hm, hact])

end

-- ════════════════════════════════════════════════════════════════════════
-- What the router does with the frames
-- ════════════════════════════════════════════════════════════════════════

section

variable {approved : Prop} {session : ℕ} {c : UInt16} {cur : Option ℕ} {fr : Item → Frame}
  {item : Item} {rest : List Item} {L : List Frame}

/-- An item leaves the queue that does not change the parser of the channel. -/
theorem Follows.pop (h : Follows approved session c cur ((bridgeOf (item :: rest)).map fr ++ L))
    (hskip : current c cur (fr item) = cur) :
    Follows approved session c cur ((bridgeOf rest).map fr ++ L) := by
  cases horigin : item.origin with
  | bridge n =>
    rw [bridgeOf_cons_bridge horigin] at h
    have htail := Follows.tail h
    rwa [hskip] at htail
  | reader k =>
    rwa [bridgeOf_cons_reader horigin] at h

theorem Follows.pop_unbound
    (h : Follows approved session c cur ((bridgeOf (item :: rest)).map fr ++ L)) :
    Follows approved session c none ((bridgeOf rest).map fr ++ L) := by
  cases horigin : item.origin with
  | bridge n =>
    rw [bridgeOf_cons_bridge horigin] at h
    exact (Follows.tail h).unbound
  | reader k =>
    rw [bridgeOf_cons_reader horigin] at h
    exact h.unbound

/-- The moves of the router keep connections and parsers together, unless gcdbroker refuses an
approval. -/
theorem follows_move {refused : Prop} {r r' : Router} {pushed : List Item} {out out' : List Routed}
    {ms : List BridgeMessage} {approved : UInt16 → Prop} {session : UInt16 → ℕ} {inst : ℕ → ℕ}
    (hmove : Move refused r r' pushed out') (hrefused : ¬refused) (hledger : Ledger ms out r)
    (hfr : ∀ item, (fr item).1 = item.msg)
    (h : ∀ c, Follows (approved c) (session c) c ((r.bound c).map inst)
      ((bridgeOf (r.pending ++ pushed)).map fr ++ L)) :
    ∃ inst' : ℕ → ℕ, (∀ k < r.next, inst' k = inst k) ∧
      (∀ c, Follows (approved c) (session c) c ((r'.bound c).map inst')
        ((bridgeOf r'.pending).map fr ++ L)) ∧
      (∀ k item, .opened k item ∈ out' → inst' k = (fr item).2) ∧
      ∀ k item data n, .wrote k item data ∈ out' → item.origin = .bridge n →
        (fr item).2 = inst' k := by
  -- a channel that keeps its connection keeps its parser
  have hkeep : Shrinks r.bound r'.bound → ∀ c, r'.bound c = none ∨
      (r'.bound c).map inst = (r.bound c).map inst := by
    intro hbound c
    cases hk : r'.bound c with
    | none => exact .inl rfl
    | some k => exact .inr (by rw [hbound c k hk])
  cases hmove with
  | push hp hbound _ =>
    refine ⟨inst, fun _ _ => rfl, fun c => ?_, by simp, by simp⟩
    rw [hp]
    rcases hkeep hbound c with hnone | hsame
    · rw [hnone]
      exact (h c).unbound
    · rw [hsame]
      exact h c
  | drop item hp hact hunbound happ hbound _ =>
    simp only [List.append_nil, hp] at h
    refine ⟨inst, fun _ _ => rfl, fun c => ?_, by simp, by simp⟩
    rcases hkeep hbound c with hnone | hsame
    · rw [hnone]
      exact (h c).pop_unbound
    · rw [hsame]
      by_cases hc : item.msg.channel = c
      · subst hc
        by_cases happroves : Approves item.msg
        · rw [(happ happroves).resolve_left hrefused]
          exact (h _).pop_unbound
        · exact (h _).pop (current_of_skip (by rwa [hfr]) (by rwa [hfr]))
      · exact (h c).pop (current_of_ne (by rwa [hfr]))
  | bind item k hp happ _ hbound hk _ =>
    simp only [List.append_nil, hp] at h
    obtain ⟨n, hn⟩ := hledger.origin_of_approves hp happ
    refine ⟨Function.update inst k (fr item).2, fun k' hk' => ?_, fun c => ?_, ?_, by simp⟩
    · exact Function.update_of_ne (by omega) ..
    · rw [hbound]
      by_cases hc : c = item.msg.channel
      · subst hc
        rw [Function.update_self, Option.map_some, Function.update_self]
        have htail := h item.msg.channel
        rw [bridgeOf_cons_bridge hn, List.map_cons, List.cons_append] at htail
        have hnow := htail.tail
        rwa [current_of_approves (by rw [hfr]) (by rwa [hfr])] at hnow
      · rw [Function.update_of_ne hc]
        have hsame : (r.bound c).map (Function.update inst k (fr item).2) = (r.bound c).map inst := by
          cases hb : r.bound c with
          | none => rfl
          | some k' =>
            obtain ⟨item', hitem', -⟩ := hledger.bound c k' hb
            have hlt := hledger.numbers k' item' hitem'
            simp only [Option.map_some, Option.some.injEq]
            exact Function.update_of_ne (by omega) ..
        rw [hsame]
        exact (h c).pop (current_of_ne (by rw [hfr]; exact Ne.symm hc))
    · intro k' item' hk'
      simp only [List.mem_singleton, Routed.opened.injEq] at hk'
      obtain ⟨rfl, rfl⟩ := hk'
      exact Function.update_self ..
  | shut item hp _ hbound _ =>
    simp only [List.append_nil, hp] at h
    refine ⟨inst, fun _ _ => rfl, fun c => ?_, by simp, by simp⟩
    rw [hbound]
    by_cases hc : c = item.msg.channel
    · subst hc
      rw [Function.update_self]
      exact (h _).pop_unbound
    · rw [Function.update_of_ne hc]
      exact (h c).pop (current_of_ne (by rw [hfr]; exact Ne.symm hc))
  | write item k data hp hact hconn _ _ hbound _ =>
    simp only [List.append_nil, hp] at h
    refine ⟨inst, fun _ _ => rfl, fun c => ?_, by simp, ?_⟩
    · rcases hkeep hbound c with hnone | hsame
      · rw [hnone]
        exact (h c).pop_unbound
      · rw [hsame]
        refine (h c).pop (current_of_skip (by simp [hfr, hact]) ?_)
        rw [hfr]
        exact not_approves (by simp [hact])
    · intro k' item' data' n hk' hn
      simp only [List.mem_singleton, Routed.wrote.injEq] at hk'
      obtain ⟨rfl, rfl, -⟩ := hk'
      have hhead := (h item'.msg.channel).1
      rw [bridgeOf_cons_bridge hn, List.map_cons, List.cons_append] at hhead
      exact hhead.1 (by rw [hfr]) (by rw [hfr]; exact hact) _ (by rw [hconn]; rfl)

end

end ForwardPath

end GuacamoleDiode
