import GuacamoleDiode.Gmlbroker.Alignment

/-!
# What a browser session sends across the bridge

The messages that one reader enqueues for the bridge, over every run of its loop: at most
a CREATE, then the captured handshake in chunks, then what is left of the later reads
behind the keepalive filter, and at most one SHUTDOWN at the end.
-/

namespace GuacamoleDiode

open Wire

namespace ReadHandler

/-- The messages for the bridge. -/
def sent (effects : List Effect) : List BridgeMessage :=
  effects.filterMap fun
    | .enqueue message => some message
    | _ => none

/-- The request ids that have been registered. -/
def registered (effects : List Effect) : List Bytes :=
  effects.filterMap fun
    | .setRequestId id => some id
    | _ => none

/-- The data that a step takes from the socket. -/
def readOf (s : ReadHandler) : Event → Option Bytes
  | .poll (.read data _) => if s.closed = false ∧ data ≠ [] then some data else none
  | _ => none

/-- The reads of a run, in order. -/
def reads (ids : ℕ → Bytes) (channel : UInt16) (es : List Event) : List Bytes :=
  (machine ids channel).observe (fun ds s e _ => ds ++ (readOf s e).toList) [] es

/-- The request for an approval. -/
def createMessage (channel : UInt16) (id : Bytes) : BridgeMessage where
  channel := channel
  action := .createChannel
  payload := id

/-- Guacamole traffic. -/
def payloadMessage (channel : UInt16) (data : Bytes) : BridgeMessage where
  channel := channel
  action := .none
  payload := data

/-- The end of a session. -/
def shutdownMessage (channel : UInt16) : BridgeMessage where
  channel := channel
  action := .shutdownChannel

/-- What a session has sent, in the three phases that it can be in. `fin` comes last. -/
inductive Outbound (ids : ℕ → Bytes) (channel : UInt16) (es : List Event)
    (fin : List BridgeMessage) : Prop where
  | nothing (registered_eq : registered ((machine ids channel).emitted es) = [])
      (sent_eq : sent ((machine ids channel).emitted es) = fin)
  | requested (id : Bytes) (registered_eq : registered ((machine ids channel).emitted es) = [id])
      (sent_eq : sent ((machine ids channel).emitted es) = createMessage channel id :: fin)
  /-- The event `e` replays the handshake; `later` is what is read from it on. -/
  | piped (id : Bytes) (chunks later : List Bytes) (pre : List Event) (e : Event)
      (post : List Event) (split : es = pre ++ e :: post)
      (registered_eq : registered ((machine ids channel).emitted es) = [id])
      (before : sent ((machine ids channel).emitted pre) = [createMessage channel id])
      (approved : ((machine ids channel).run pre).approved = true)
      (chunks_flatten : chunks.flatten = ((machine ids channel).run es).forger.handshakeRaw)
      (chunks_le : ∀ chunk ∈ chunks, chunk.length ≤ Multiplexer.maxPayloadSize)
      (later_eq : reads ids channel es = reads ids channel pre ++ later)
      (sent_eq : sent ((machine ids channel).emitted es) = createMessage channel id ::
        (chunks.map (payloadMessage channel) ++
          (ForwardKeepaliveFilter.payloads ForwardKeepaliveFilter.fresh later).map
            (payloadMessage channel)) ++ fin)

@[simp] theorem sent_nil : sent [] = [] := rfl

@[simp] theorem registered_nil : registered [] = [] := rfl

@[simp] theorem sent_append (xs ys : List Effect) : sent (xs ++ ys) = sent xs ++ sent ys :=
  List.filterMap_append

@[simp] theorem registered_append (xs ys : List Effect) :
    registered (xs ++ ys) = registered xs ++ registered ys :=
  List.filterMap_append

theorem sent_leave (channel : UInt16) (announce : Bool) (s : ReadHandler) :
    sent (leave channel announce s).2 = if announce then [shutdownMessage channel] else [] := by
  cases announce <;> rfl

theorem registered_leave (channel : UInt16) (announce : Bool) (s : ReadHandler) :
    registered (leave channel announce s).2 = [] := by
  cases announce <;> rfl

theorem sent_replayHandshake (channel : UInt16) (handshake : Bytes) :
    sent (replayHandshake channel handshake) =
      (substrs Multiplexer.maxPayloadSize handshake.length handshake).map
        (payloadMessage channel) := by
  rw [sent, replayHandshake, List.filterMap_map, ← List.filterMap_eq_map]
  rfl

theorem registered_replayHandshake (channel : UInt16) (handshake : Bytes) :
    registered (replayHandshake channel handshake) = [] := by
  simp [registered, replayHandshake]

theorem length_le_of_mem_substrs {n fuel : ℕ} {w chunk : Bytes} (h : chunk ∈ substrs n fuel w) :
    chunk.length ≤ n := by
  induction fuel generalizing w with
  | zero => simp [substrs] at h
  | succ fuel ih =>
    rw [substrs] at h
    split_ifs at h
    · simp at h
    · rcases List.mem_cons.mp h with rfl | h
      · exact List.length_take_le n w
      · exact ih h

/-- The filter behind some reads. -/
def filterAfter (ds : List Bytes) : OpcodeParser Unit :=
  ds.foldl (fun p d => (ForwardKeepaliveFilter.filter p d).2) ForwardKeepaliveFilter.fresh

theorem payloads_append (p : OpcodeParser Unit) (ds ds' : List Bytes) :
    ForwardKeepaliveFilter.payloads p (ds ++ ds') = ForwardKeepaliveFilter.payloads p ds ++
      ForwardKeepaliveFilter.payloads
        (ds.foldl (fun p d => (ForwardKeepaliveFilter.filter p d).2) p) ds' := by
  induction ds generalizing p with
  | nil => rfl
  | cons a ds ih =>
    simp only [List.cons_append, ForwardKeepaliveFilter.payloads, ih, List.foldl_cons]
    split_ifs <;> rfl

/-- Where an open session stands. -/
inductive Phase (ids : ℕ → Bytes) (channel : UInt16) (es : List Event) (s : ReadHandler) : Prop where
  | handshake (state : s.forger.hsState ≠ .established) (replayed : s.replayed = false)
      (filter : s.keepaliveFilter = ForwardKeepaliveFilter.fresh)
      (registered_eq : registered ((machine ids channel).emitted es) = [])
      (sent_eq : sent ((machine ids channel).emitted es) = [])
  | waiting (state : s.forger.hsState = .established) (replayed : s.replayed = false)
      (filter : s.keepaliveFilter = ForwardKeepaliveFilter.fresh) (id : Bytes)
      (registered_eq : registered ((machine ids channel).emitted es) = [id])
      (sent_eq : sent ((machine ids channel).emitted es) = [createMessage channel id])
  | piping (state : s.forger.hsState = .established) (replayed : s.replayed = true)
      (id : Bytes) (chunks later : List Bytes) (pre : List Event) (e : Event) (post : List Event)
      (split : es = pre ++ e :: post)
      (registered_eq : registered ((machine ids channel).emitted es) = [id])
      (before : sent ((machine ids channel).emitted pre) = [createMessage channel id])
      (approved : ((machine ids channel).run pre).approved = true)
      (chunks_flatten : chunks.flatten = s.forger.handshakeRaw)
      (chunks_le : ∀ chunk ∈ chunks, chunk.length ≤ Multiplexer.maxPayloadSize)
      (later_eq : reads ids channel es = reads ids channel pre ++ later)
      (filter : s.keepaliveFilter = filterAfter later)
      (sent_eq : sent ((machine ids channel).emitted es) = createMessage channel id ::
        (chunks.map (payloadMessage channel) ++
          (ForwardKeepaliveFilter.payloads ForwardKeepaliveFilter.fresh later).map
            (payloadMessage channel)))

section Phase

variable {ids : ℕ → Bytes} {channel : UInt16} {es : List Event} {e : Event} {s : ReadHandler}
  {fin : List BridgeMessage}

theorem reads_snoc (es : List Event) (e : Event) : reads ids channel (es ++ [e]) =
    reads ids channel es ++ (readOf ((machine ids channel).run es) e).toList :=
  Machine.observe_snoc ..

theorem Phase.outbound (h : Phase ids channel es ((machine ids channel).run es)) :
    Outbound ids channel es [] := by
  cases h with
  | handshake _ _ _ hreg hsent => exact .nothing hreg hsent
  | waiting _ _ _ id hreg hsent => exact .requested id hreg hsent
  | piping _ _ id chunks later pre e post hes hreg hpre happ hch hle hlater _ hsent =>
    exact .piped id chunks later pre e post hes hreg hpre happ hch hle hlater (by simpa using hsent)

/-- A step that reads nothing, and sends nothing but perhaps a shutdown. -/
theorem Outbound.snoc (h : Outbound ids channel es fin) {s' : ReadHandler} {out : List Effect}
    (hstep : step ids channel ((machine ids channel).run es) e = (s', out))
    (hreg : registered out = []) (hforger : s'.forger = ((machine ids channel).run es).forger)
    (hread : readOf ((machine ids channel).run es) e = none) :
    Outbound ids channel (es ++ [e]) (fin ++ sent out) := by
  have hemit : (machine ids channel).emitted (es ++ [e]) = (machine ids channel).emitted es ++ out := by
    rw [Machine.emitted_snoc]
    exact congrArg (_ ++ ·.2) hstep
  have hrun : (machine ids channel).run (es ++ [e]) = s' := by
    rw [Machine.run_snoc]
    exact congrArg Prod.fst hstep
  cases h with
  | nothing hreg₀ hsent₀ =>
    refine .nothing ?_ ?_
    · rw [hemit, registered_append, hreg₀, hreg, List.append_nil]
    · rw [hemit, sent_append, hsent₀]
  | requested id hreg₀ hsent₀ =>
    refine .requested id ?_ ?_
    · rw [hemit, registered_append, hreg₀, hreg, List.append_nil]
    · rw [hemit, sent_append, hsent₀, List.cons_append]
  | piped id chunks later pre a post hes hreg₀ hpre happ hch hle hlater hsent₀ =>
    refine .piped id chunks later pre a (post ++ [e]) (by simp [hes]) ?_ hpre happ ?_ hle ?_ ?_
    · rw [hemit, registered_append, hreg₀, hreg, List.append_nil]
    · rw [hrun, hforger, hch]
    · rw [reads_snoc, hread, Option.toList_none, List.append_nil, hlater]
    · rw [hemit, sent_append, hsent₀, List.append_assoc]

/-- A step that leaves the phase as it is. -/
theorem Phase.quiet (h : Phase ids channel es ((machine ids channel).run es)) {s' : ReadHandler}
    {out : List Effect} (hstep : step ids channel ((machine ids channel).run es) e = (s', out))
    (hsent : sent out = []) (hreg : registered out = [])
    (hforger : s'.forger = ((machine ids channel).run es).forger)
    (hreplayed : s'.replayed = ((machine ids channel).run es).replayed)
    (hfilter : s'.keepaliveFilter = ((machine ids channel).run es).keepaliveFilter)
    (hread : readOf ((machine ids channel).run es) e = none) :
    Phase ids channel (es ++ [e]) s' := by
  have hemit : (machine ids channel).emitted (es ++ [e]) = (machine ids channel).emitted es ++ out := by
    rw [Machine.emitted_snoc]
    exact congrArg (_ ++ ·.2) hstep
  have hreg' : registered ((machine ids channel).emitted (es ++ [e])) =
      registered ((machine ids channel).emitted es) := by
    rw [hemit, registered_append, hreg, List.append_nil]
  have hsent' : sent ((machine ids channel).emitted (es ++ [e])) =
      sent ((machine ids channel).emitted es) := by
    rw [hemit, sent_append, hsent, List.append_nil]
  cases h with
  | handshake hst hrep hfil hreg₀ hsent₀ =>
    exact .handshake (hforger ▸ hst) (hreplayed ▸ hrep) (hfilter ▸ hfil) (hreg' ▸ hreg₀)
      (hsent' ▸ hsent₀)
  | waiting hst hrep hfil id hreg₀ hsent₀ =>
    exact .waiting (hforger ▸ hst) (hreplayed ▸ hrep) (hfilter ▸ hfil) id (hreg' ▸ hreg₀)
      (hsent' ▸ hsent₀)
  | piping hst hrep id chunks later pre a post hes hreg₀ hpre happ hch hle hlater hfil hsent₀ =>
    refine .piping (hforger ▸ hst) (hreplayed ▸ hrep) id chunks later pre a (post ++ [e])
      (by simp [hes]) (hreg' ▸ hreg₀) hpre happ (hforger ▸ hch) hle ?_ (hfilter ▸ hfil)
      (hsent' ▸ hsent₀)
    rw [reads_snoc, hread, Option.toList_none, List.append_nil, hlater]

/-- The invariant of the session. -/
def Follows (ids : ℕ → Bytes) (channel : UInt16) (es : List Event) (s : ReadHandler) : Prop :=
  (s.closed = false ∧ Phase ids channel es s) ∨
    (s.closed = true ∧ ∃ fin, (fin = [] ∨ fin = [shutdownMessage channel]) ∧
      Outbound ids channel es fin)

theorem sent_pipe (channel : UInt16) (d : Bytes) (s : ReadHandler) :
    sent (pipe channel d s).2 =
      (ForwardKeepaliveFilter.payloads s.keepaliveFilter [d]).map (payloadMessage channel) := by
  simp only [pipe, sent_append, ForwardKeepaliveFilter.payloads]
  split_ifs <;> simp_all [sent, payloadMessage]

theorem registered_pipe (channel : UInt16) (d : Bytes) (s : ReadHandler) :
    registered (pipe channel d s).2 = [] := by
  simp only [pipe, registered_append]
  split_ifs <;> rfl

/-- The handshake is replayed, and perhaps a read is piped behind it. -/
theorem Phase.replay (hst : ((machine ids channel).run es).forger.hsState = .established) {id : Bytes}
    (hreg₀ : registered ((machine ids channel).emitted es) = [id])
    (hsent₀ : sent ((machine ids channel).emitted es) = [createMessage channel id])
    (happ : ((machine ids channel).run es).approved = true) {s' : ReadHandler} {out : List Effect}
    (hstep : step ids channel ((machine ids channel).run es) e = (s', out)) {later : List Bytes}
    (hlater : (readOf ((machine ids channel).run es) e).toList = later) (hreg : registered out = [])
    (hforger : s'.forger = ((machine ids channel).run es).forger) (hreplayed : s'.replayed = true)
    (hfilter : s'.keepaliveFilter = filterAfter later)
    (hsent : sent out = (substrs Multiplexer.maxPayloadSize s'.forger.handshakeRaw.length
        s'.forger.handshakeRaw).map (payloadMessage channel) ++
      (ForwardKeepaliveFilter.payloads ForwardKeepaliveFilter.fresh later).map
        (payloadMessage channel)) :
    Phase ids channel (es ++ [e]) s' := by
  have hemit : (machine ids channel).emitted (es ++ [e]) = (machine ids channel).emitted es ++ out := by
    rw [Machine.emitted_snoc]
    exact congrArg (_ ++ ·.2) hstep
  refine .piping (hforger ▸ hst) hreplayed id (substrs Multiplexer.maxPayloadSize
    s'.forger.handshakeRaw.length s'.forger.handshakeRaw) later es e [] rfl ?_ hsent₀ happ ?_
    (fun chunk hchunk => length_le_of_mem_substrs hchunk) ?_ hfilter ?_
  · rw [hemit, registered_append, hreg₀, hreg, List.append_nil]
  · exact flatten_substrs (by decide) _ _ le_rfl
  · rw [reads_snoc, hlater]
  · rw [hemit, sent_append, hsent₀, hsent]
    rfl

theorem Phase.timeout (h : Phase ids channel es ((machine ids channel).run es))
    (hopen : ((machine ids channel).run es).closed = false) :
    Phase ids channel (es ++ [.poll .timeout]) (maybeReplay channel ((machine ids channel).run es)).1 := by
  have hstep : step ids channel ((machine ids channel).run es) (.poll .timeout) =
      maybeReplay channel ((machine ids channel).run es) := by
    simp [step, hopen, turn]
  by_cases hr : ((machine ids channel).run es).replayed = false ∧
      ((machine ids channel).run es).forger.hsState = .established ∧
      ((machine ids channel).run es).approved = true
  · obtain ⟨hrep, hst, happ⟩ := hr
    rw [maybeReplay, if_pos ⟨hrep, hst, happ⟩] at hstep ⊢
    cases h with
    | handshake hne => exact absurd hst hne
    | waiting _ _ hfil id hreg₀ hsent₀ =>
      refine Phase.replay hst hreg₀ hsent₀ happ hstep rfl (registered_replayHandshake _ _) rfl rfl
        hfil ?_
      rw [sent_replayHandshake]
      exact (List.append_nil _).symm
    | piping _ hrep' => simp [hrep] at hrep'
  · rw [maybeReplay, if_neg hr] at hstep ⊢
    exact h.quiet hstep rfl rfl rfl rfl rfl rfl

theorem established_of_replays {d : Bytes}
    (h : s.replayed = false ∧ s.forger.hsState = .established ∧ s.approved = true) :
    ReadHandler.established channel d s =
      ((pipe channel d { s with replayed := true }).1,
        replayHandshake channel s.forger.handshakeRaw ++
          (pipe channel d { s with replayed := true }).2) := by
  rw [ReadHandler.established, maybeReplay, if_pos h]
  rfl

theorem established_of_waiting {d : Bytes} (hrep : s.replayed = false) (happ : s.approved = false) :
    ReadHandler.established channel d s = (s, []) := by
  have hno : maybeReplay channel s = (s, []) := if_neg (by simp [happ])
  simp [ReadHandler.established, hno, hrep]

theorem established_of_piping {d : Bytes} (hrep : s.replayed = true) :
    ReadHandler.established channel d s = pipe channel d s := by
  have hno : maybeReplay channel s = (s, []) := if_neg (by simp [hrep])
  simp [ReadHandler.established, hno, hrep]

/-- A read behind the handshake. -/
theorem Phase.established (h : Phase ids channel es ((machine ids channel).run es))
    (hst : ((machine ids channel).run es).forger.hsState = .established) {d : Bytes}
    (hread : readOf ((machine ids channel).run es) e = some d) {s' : ReadHandler} {out : List Effect}
    (hstep : step ids channel ((machine ids channel).run es) e = (s', out))
    (hs : s = { (machine ids channel).run es with
      socket := ((machine ids channel).run es).socket ++ d })
    (hout : ReadHandler.established channel d s = (s', out)) :
    Phase ids channel (es ++ [e]) s' := by
  have hemit : (machine ids channel).emitted (es ++ [e]) = (machine ids channel).emitted es ++ out := by
    rw [Machine.emitted_snoc]
    exact congrArg (_ ++ ·.2) hstep
  cases h with
  | handshake hne => exact absurd hst hne
  | waiting _ hrep hfil id hreg₀ hsent₀ =>
    cases happ : ((machine ids channel).run es).approved with
    | true =>
      rw [established_of_replays (by rw [hs]; exact ⟨hrep, hst, happ⟩), hs] at hout
      cases hout
      refine Phase.replay hst hreg₀ hsent₀ happ hstep (congrArg Option.toList hread) ?_ rfl rfl ?_ ?_
      · rw [registered_append, registered_replayHandshake, registered_pipe]
        rfl
      · rw [Option.toList_some, filterAfter, List.foldl_cons, ← hfil]
        rfl
      · rw [sent_append, sent_replayHandshake, sent_pipe, Option.toList_some, ← hfil]
        rfl
    | false =>
      rw [established_of_waiting (by rw [hs]; exact hrep) (by rw [hs]; exact happ), hs] at hout
      cases hout
      rw [List.append_nil] at hemit
      exact .waiting hst hrep hfil id (hemit ▸ hreg₀) (hemit ▸ hsent₀)
  | piping _ hrep id chunks later pre a post hes hreg₀ hpre happ hch hle hlater hfil hsent₀ =>
    rw [established_of_piping (by rw [hs]; exact hrep), hs] at hout
    have hs' := congrArg Prod.fst hout
    have hout' := congrArg Prod.snd hout
    dsimp only at hs' hout'
    rw [← hout'] at hemit
    rw [← hs']
    refine .piping hst hrep id chunks (later ++ [d]) pre a (post ++ [e]) (by simp [hes]) ?_ hpre happ
      hch hle ?_ ?_ ?_
    · rw [hemit, registered_append, hreg₀, registered_pipe]
      rfl
    · rw [reads_snoc, hread, hlater, List.append_assoc]
      rfl
    · rw [filterAfter, List.foldl_append, ← filterAfter, ← hfil]
      rfl
    · rw [hemit, sent_append, hsent₀, sent_pipe, payloads_append, List.map_append, ← filterAfter,
        ← hfil, List.cons_append, List.append_assoc]

/-- Leaving the loop, behind some bytes for the browser. -/
theorem Phase.leave (h : Phase ids channel es ((machine ids channel).run es)) (announce : Bool)
    {sends : List Effect} (hsends : sent sends = [] ∧ registered sends = [])
    (hstep : step ids channel ((machine ids channel).run es) e =
      ((ReadHandler.leave channel announce ((machine ids channel).run es)).1,
        sends ++ (ReadHandler.leave channel announce ((machine ids channel).run es)).2))
    (hread : readOf ((machine ids channel).run es) e = none) :
    Follows ids channel (es ++ [e])
      (ReadHandler.leave channel announce ((machine ids channel).run es)).1 := by
  have hreg : registered (sends ++
      (ReadHandler.leave channel announce ((machine ids channel).run es)).2) = [] := by
    rw [registered_append, hsends.2, registered_leave, List.append_nil]
  have hout := h.outbound.snoc hstep hreg rfl hread
  rw [sent_append, hsends.1, sent_leave, List.nil_append, List.nil_append] at hout
  refine .inr ⟨rfl, _, ?_, hout⟩
  cases announce <;> simp

/-- A read of the handshake. -/
theorem Phase.feedForger (h : Phase ids channel es ((machine ids channel).run es))
    (hst : ((machine ids channel).run es).forger.hsState ≠ .established) {d requestId : Bytes}
    {s' : ReadHandler} {out : List Effect} (hopen : ((machine ids channel).run es).closed = false)
    (hstep : step ids channel ((machine ids channel).run es) e = (s', out))
    (hs : s = { (machine ids channel).run es with
      socket := ((machine ids channel).run es).socket ++ d })
    (hout : ReadHandler.feedForger ids channel d requestId s = (s', out)) :
    Follows ids channel (es ++ [e]) s' := by
  have hopen : s.closed = false := by rw [hs]; exact hopen
  have hfil : s.keepaliveFilter = ((machine ids channel).run es).keepaliveFilter := by rw [hs]
  have hrep : s.replayed = ((machine ids channel).run es).replayed := by rw [hs]
  have hemit : (machine ids channel).emitted (es ++ [e]) = (machine ids channel).emitted es ++ out := by
    rw [Machine.emitted_snoc]
    exact congrArg (_ ++ ·.2) hstep
  have hreply : ∀ w : Bytes, sent (if w ≠ [] then [.send w] else []) = [] ∧
      registered (if w ≠ [] then [.send w] else []) = [] := by
    intro w
    split_ifs <;> exact ⟨rfl, rfl⟩
  cases h with
  | handshake _ hrep₀ hfil₀ hreg₀ hsent₀ =>
    simp only [ReadHandler.feedForger] at hout
    have hnone := hreply (HandshakeForger.feed ids s.forger d).1
    generalize (if (HandshakeForger.feed ids s.forger d).1 ≠ [] then
      [Effect.send (HandshakeForger.feed ids s.forger d).1] else []) = reply at hout hnone
    split_ifs at hout with hinv hest
    · cases hout
      refine .inr ⟨rfl, [shutdownMessage channel], .inr rfl, .nothing ?_ ?_⟩
      · rw [hemit, registered_append, hreg₀, registered_append, hnone.2, registered_leave]
        rfl
      · rw [hemit, sent_append, hsent₀, sent_append, hnone.1, sent_leave]
        rfl
    · cases hout
      refine .inl ⟨hopen, .waiting hest (hrep.trans hrep₀) (hfil.trans hfil₀) requestId ?_ ?_⟩
      · rw [hemit, registered_append, hreg₀, registered_append, hnone.2]
        rfl
      · rw [hemit, sent_append, hsent₀, sent_append, hnone.1]
        rfl
    · cases hout
      refine .inl ⟨hopen, .handshake hest (hrep.trans hrep₀) (hfil.trans hfil₀) ?_ ?_⟩
      · rw [hemit, registered_append, hreg₀, hnone.2]
        rfl
      · rw [hemit, sent_append, hsent₀, hnone.1]
        rfl
  | waiting hest => exact absurd hest hst
  | piping hest => exact absurd hest hst

/-- One turn of an open session. -/
theorem Phase.turn (h : Phase ids channel es ((machine ids channel).run es))
    (hopen : ((machine ids channel).run es).closed = false) (p : Poll) :
    Follows ids channel (es ++ [.poll p])
      (step ids channel ((machine ids channel).run es) (.poll p)).1 := by
  have hstep : step ids channel ((machine ids channel).run es) (.poll p) =
      ReadHandler.turn ids channel ((machine ids channel).run es) p := by
    simp [step, hopen]
  cases p with
  | heartbeat ms =>
    rw [ReadHandler.turn] at hstep
    split_ifs at hstep
    · rw [hstep]
      exact .inl ⟨hopen, h.quiet hstep rfl rfl rfl rfl rfl rfl⟩
    · rw [hstep]
      exact .inl ⟨hopen, h.quiet hstep rfl rfl rfl rfl rfl rfl⟩
  | timeout =>
    rw [hstep]
    exact .inl ⟨(maybeReplay_frame channel _).2.trans hopen, h.timeout hopen⟩
  | read d requestId =>
    rw [ReadHandler.turn] at hstep
    by_cases hd : d = []
    · rw [if_pos hd] at hstep
      rw [hstep]
      exact h.leave true ⟨sent_nil, registered_nil⟩ hstep (by simp [readOf, hd])
    · rw [if_neg hd] at hstep
      have hread : readOf ((machine ids channel).run es) (.poll (.read d requestId)) = some d := by
        simp [readOf, hopen, hd]
      by_cases hst : ((machine ids channel).run es).forger.hsState = .established
      · have hest := hstep.trans (if_pos hst)
        rw [hest]
        refine .inl ⟨?_, h.established hst hread (hest.trans (Prod.eta _).symm) rfl rfl⟩
        exact (established_frame channel d _).2.trans hopen
      · have hne := hstep.trans (if_neg hst)
        rw [hne]
        exact h.feedForger hst hopen (hne.trans (Prod.eta _).symm) rfl rfl
  | drain chunks failed teardown =>
    have hsends : sent (chunks.map Effect.send) = [] ∧ registered (chunks.map Effect.send) = [] := by
      simp [sent, registered]
    cases teardown with
    | some announce =>
      rw [hstep]
      exact h.leave announce hsends hstep rfl
    | none =>
      rw [ReadHandler.turn] at hstep
      split_ifs at hstep
      · rw [hstep]
        exact h.leave true hsends hstep rfl
      · rw [hstep]
        exact .inl ⟨hopen, h.quiet hstep hsends.1 hsends.2 rfl rfl rfl rfl⟩
  | stop =>
    rw [ReadHandler.turn] at hstep
    rw [hstep]
    exact h.leave true ⟨sent_nil, registered_nil⟩ hstep rfl

theorem follows_run (ids : ℕ → Bytes) (channel : UInt16) (es : List Event) :
    Follows ids channel es ((machine ids channel).run es) := by
  refine Machine.invariant (P := Follows ids channel) ?_ ?_ es
  · exact .inl ⟨rfl, .handshake nofun rfl rfl rfl rfl⟩
  · intro es e ih
    rcases ih with ⟨hopen, hphase⟩ | ⟨hclosed, fin, hfin, hout⟩
    · cases e with
      | approve => exact .inl ⟨hopen, hphase.quiet rfl rfl rfl rfl rfl rfl rfl⟩
      | poll p => exact hphase.turn hopen p
    · have hread : readOf ((machine ids channel).run es) e = none := by
        rcases e with _ | (_ | _ | _ | _ | _) <;> simp [readOf, hclosed]
      cases e with
      | approve =>
        exact .inr ⟨hclosed, fin, hfin, by simpa using hout.snoc rfl rfl rfl hread⟩
      | poll p =>
        have hstep : step ids channel ((machine ids channel).run es) (.poll p) =
            ((machine ids channel).run es, []) := if_pos hclosed
        refine .inr ⟨?_, fin, hfin, by simpa using hout.snoc hstep rfl rfl hread⟩
        exact (congrArg (·.1.closed) hstep).trans hclosed

end Phase

/-- Over every run, a session sends nothing, or a CREATE with the id that it has
registered, or that CREATE, the captured handshake and the filtered reads, each followed by
at most one SHUTDOWN. -/
theorem outbound_protocol (ids : ℕ → Bytes) (channel : UInt16) (es : List Event) :
    ∃ fin, (fin = [] ∨ fin = [shutdownMessage channel]) ∧ Outbound ids channel es fin := by
  rcases follows_run ids channel es with ⟨-, hphase⟩ | ⟨-, fin, hfin, hout⟩
  · exact ⟨[], .inl rfl, hphase.outbound⟩
  · exact ⟨fin, hfin, hout⟩

end ReadHandler

end GuacamoleDiode
