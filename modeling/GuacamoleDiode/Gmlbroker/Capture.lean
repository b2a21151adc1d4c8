import GuacamoleDiode.Gmlbroker.Outbound
import GuacamoleDiode.Gmlbroker.HandshakeOrder

/-!
# Where the captured handshake ends

The reader feeds the forger until the handshake is established, one read at a time, and keeps
each read whole. The copy of the handshake therefore ends where the read ends that completes the
`connect`, and what the browser has sent behind it in the same read is replayed with the
handshake, past the keepalive filter and the faker of clipboard acks.

## Main definitions

- `ReadHandler.capture`: the reads that the forger gets, and those behind the handshake
- `ReadHandler.inputs`: the reads of a run that come behind the handshake
- `ReadHandler.Captured`: the copy ends with the `connect`

## Main results

- `ReadHandler.captured_iff`
-/

namespace GuacamoleDiode

open Wire

namespace ReadHandler

/-- The forger is fed read by read until the handshake is established: the forger, and the reads
that are left. -/
def capture (ids : ℕ → Bytes) : HandshakeForger → List Bytes → HandshakeForger × List Bytes
  | f, [] => (f, [])
  | f, d :: ds => if f.hsState = .established then (f, d :: ds) else capture ids (f.feed ids d).2 ds

/-- A read of a step behind the handshake. -/
def inputOf (s : ReadHandler) (e : Event) : Option Bytes :=
  if s.forger.hsState = .established then readOf s e else none

/-- The reads of a run that come behind the handshake. -/
def inputs (ids : ℕ → Bytes) (channel : UInt16) (es : List Event) : List Bytes :=
  (machine ids channel).collect (fun s e => (inputOf s e).toList) es

/-- The faker of clipboard acks behind some reads. -/
def fakerAfter (ds : List Bytes) : OpcodeParser ClipboardAckMembers :=
  ds.foldl (fun p d => (ClipboardAckFaker.feed p d).2) { members := {} }

/-- The copy of the handshake is `handshake`, and all that the browser has sent behind it, which
is `later`, has been read as input. Of the input the first reads are dropped, and the others pass
the faker and the filter before they are forwarded. -/
structure Captured (ids : ℕ → Bytes) (channel : UInt16) (es : List Event) (handshake later : Bytes) :
    Prop where
  established : ((machine ids channel).run es).forger.hsState = .established
  handshake_eq : ((machine ids channel).run es).forger.handshakeRaw = handshake
  later_eq : (inputs ids channel es).flatten = later
  filtered : ∃ dropped piped, inputs ids channel es = dropped ++ piped ∧
    ((machine ids channel).run es).keepaliveFilter = filterAfter piped ∧
    ((machine ids channel).run es).clipboardFaker = fakerAfter piped ∧
    forwarded ((machine ids channel).emitted es) =
      (if ((machine ids channel).run es).replayed then handshake else []) ++
        (ForwardKeepaliveFilter.payloads ForwardKeepaliveFilter.fresh piped).flatten

-- ════════════════════════════════════════════════════════════════════════
-- The forger read by read
-- ════════════════════════════════════════════════════════════════════════

section

variable {ids : ℕ → Bytes} {f : HandshakeForger} {is js : List (Instruction maxElementSize)}
  {cur cur' : Cursor maxElementSize}

/-- Reads are left only behind the handshake. -/
theorem capture_eq_nil (h : (capture ids f ds).1.hsState ≠ .established) : (capture ids f ds).2 = [] := by
  induction ds generalizing f with
  | nil => rfl
  | cons d ds ih =>
    rw [capture] at h ⊢
    split_ifs at h ⊢ with hf
    · exact absurd hf h
    · exact ih h

variable (ids) in
theorem capture_snoc (f : HandshakeForger) (ds : List Bytes) (d : Bytes) :
    capture ids f (ds ++ [d]) = if (capture ids f ds).1.hsState = .established
      then ((capture ids f ds).1, (capture ids f ds).2 ++ [d])
      else (((capture ids f ds).1.feed ids d).2, []) := by
  induction ds generalizing f with
  | nil => rfl
  | cons c ds ih =>
    rw [List.cons_append, capture, capture]
    by_cases hf : f.hsState = .established
    · rw [if_pos hf, if_pos hf, if_pos hf]
      rfl
    · rw [if_neg hf, if_neg hf]
      exact ih (f.feed ids c).2

/-- The forger gets the first reads, up to the one that establishes the handshake. -/
theorem exists_used (ids : ℕ → Bytes) (f : HandshakeForger) (ds : List Bytes) :
    ∃ used, ds = used ++ (capture ids f ds).2 ∧
      (capture ids f ds).1 = (HandshakeForger.feedAll ids f used).2 ∧
      ∀ u d v, used = u ++ d :: v → (HandshakeForger.feedAll ids f u).2.hsState ≠ .established := by
  induction ds generalizing f with
  | nil => exact ⟨[], rfl, rfl, by simp⟩
  | cons d ds ih =>
    rw [capture]
    split_ifs with hf
    · exact ⟨[], rfl, rfl, by simp⟩
    · obtain ⟨used, hsplit, hforger, hearlier⟩ := ih (f.feed ids d).2
      refine ⟨d :: used, congrArg (d :: ·) hsplit, hforger, fun u d' v hu => ?_⟩
      cases u with
      | nil => exact hf
      | cons a u =>
        obtain ⟨rfl, hrest⟩ := List.cons.inj hu
        exact hearlier u d' v hrest

/-- The forger keeps what it has been fed. -/
theorem handshakeRaw_feedAll (ids : ℕ → Bytes) (f : HandshakeForger) (ds : List Bytes) :
    (HandshakeForger.feedAll ids f ds).2.handshakeRaw = f.handshakeRaw ++ ds.flatten := by
  induction ds generalizing f with
  | nil => simp [HandshakeForger.feedAll]
  | cons d ds ih =>
    rw [HandshakeForger.feedAll]
    dsimp only
    rw [ih, List.flatten_cons, ← List.append_assoc]
    rfl

theorem fed_feedAll (h : HandshakeForger.Fed ids is cur f) {ds : List Bytes}
    (hr : cur.read ds.flatten = some (js, cur')) :
    HandshakeForger.Fed ids (is ++ js) cur' (HandshakeForger.feedAll ids f ds).2 := by
  induction ds generalizing is cur f js with
  | nil =>
    cases hr
    rw [List.append_nil]
    exact h
  | cons d ds ih =>
    rw [List.flatten_cons] at hr
    obtain ⟨⟨ks, cur₁⟩, hd⟩ := Cursor.exists_read_of_read_append hr
    rw [Cursor.read_append_of_eq_some hd] at hr
    obtain ⟨⟨ls, cur₂⟩, hrest, heq⟩ := Option.map_eq_some_iff.mp hr
    cases heq
    have hfed := ih (h.feed hd) hrest
    rwa [List.append_assoc] at hfed

/-- Bytes within the grammar leave the forger in the state of the instructions in them. -/
theorem hsState_feedAll {ds : List Bytes} (hr : Cursor.start.read ds.flatten = some (js, cur')) :
    (HandshakeForger.feedAll ids {} ds).2.hsState = HandshakeForger.phase js := by
  have hstart : HandshakeForger.Fed ids [] .start {} := HandshakeForger.fed_nil
  have hfed := fed_feedAll hstart hr
  rw [hfed.hsState, List.nil_append]

end

-- ════════════════════════════════════════════════════════════════════════
-- The turns of the reader
-- ════════════════════════════════════════════════════════════════════════

/-- What a step does with the handshake and with the input. -/
inductive Hears (ids : ℕ → Bytes) (s : ReadHandler) (e : Event) (s' : ReadHandler)
    (out : List Effect) : Prop where
  /-- nothing is read and nothing is forwarded -/
  | quiet (nothing : readOf s e = none) (forger : s'.forger = s.forger)
      (replayed : s'.replayed = s.replayed) (filter : s'.keepaliveFilter = s.keepaliveFilter)
      (faker : s'.clipboardFaker = s.clipboardFaker) (forwarded_eq : forwarded out = [])
  /-- the replay -/
  | replay (nothing : readOf s e = none) (replays : s.Replays) (forger : s'.forger = s.forger)
      (replayed : s'.replayed = true) (filter : s'.keepaliveFilter = s.keepaliveFilter)
      (faker : s'.clipboardFaker = s.clipboardFaker)
      (forwarded_eq : forwarded out = s.forger.handshakeRaw)
  /-- a read of the handshake -/
  | handshake (d : Bytes) (read : readOf s e = some d) (state : s.forger.hsState ≠ .established)
      (forger : s'.forger = (s.forger.feed ids d).2) (replayed : s'.replayed = s.replayed)
      (filter : s'.keepaliveFilter = s.keepaliveFilter)
      (faker : s'.clipboardFaker = s.clipboardFaker) (forwarded_eq : forwarded out = [])
  /-- input in front of the replay -/
  | dropped (d : Bytes) (read : readOf s e = some d) (state : s.forger.hsState = .established)
      (waiting : s.replayed = false) (forger : s'.forger = s.forger) (replayed : s'.replayed = false)
      (filter : s'.keepaliveFilter = s.keepaliveFilter)
      (faker : s'.clipboardFaker = s.clipboardFaker) (forwarded_eq : forwarded out = [])
  /-- input behind the replay, or with it -/
  | piped (d : Bytes) (read : readOf s e = some d) (state : s.forger.hsState = .established)
      (forger : s'.forger = s.forger) (replayed : s'.replayed = true)
      (filter : s'.keepaliveFilter = (ForwardKeepaliveFilter.filter s.keepaliveFilter d).2)
      (faker : s'.clipboardFaker = (ClipboardAckFaker.feed s.clipboardFaker d).2)
      (forwarded_eq : forwarded out = (if s.replayed then [] else s.forger.handshakeRaw) ++
        (ForwardKeepaliveFilter.filter s.keepaliveFilter d).1)

section

variable {ids : ℕ → Bytes} {channel : UInt16} {s : ReadHandler} {e : Event} {d : Bytes}

theorem forwarded_leave (channel : UInt16) (announce : Bool) (s : ReadHandler) :
    forwarded (leave channel announce s).2 = [] := by
  cases announce <;> rfl

theorem hears_leave (sends : List Effect) (hnothing : readOf s e = none)
    (hsends : forwarded sends = []) (announce : Bool) :
    Hears ids s e (leave channel announce s).1 (sends ++ (leave channel announce s).2) := by
  refine .quiet hnothing rfl rfl rfl rfl ?_
  rw [forwarded_append, hsends, forwarded_leave]
  rfl

theorem hears_timeout (hnothing : readOf s e = none) :
    Hears ids s e (maybeReplay channel s).1 (maybeReplay channel s).2 := by
  rw [maybeReplay]
  split_ifs with hr
  · exact .replay hnothing ⟨hr.1, hr.2.2, hr.2.1⟩ rfl rfl rfl rfl (forwarded_replayHandshake _ _)
  · exact .quiet hnothing rfl rfl rfl rfl rfl

/-- The socket lists what has been read, and has no other use. -/
theorem hears_feedForger (hread : readOf s e = some d) (hstate : s.forger.hsState ≠ .established)
    (requestId : Bytes) {s₁ : ReadHandler} (hs₁ : s₁ = { s with socket := s.socket ++ d }) :
    Hears ids s e (feedForger ids channel d requestId s₁).1 (feedForger ids channel d requestId s₁).2 := by
  subst hs₁
  have hreply : ∀ w : Bytes, forwarded (if w ≠ [] then [Effect.send w] else []) = [] := by
    intro w
    split_ifs <;> rfl
  have hnone := hreply (s.forger.feed ids d).1
  rw [feedForger]
  dsimp only
  generalize (if (s.forger.feed ids d).1 ≠ [] then [Effect.send (s.forger.feed ids d).1] else []) =
    reply at hnone
  split_ifs
  · refine .handshake d hread hstate rfl rfl rfl rfl ?_
    rw [forwarded_append, hnone, forwarded_leave]
    rfl
  · refine .handshake d hread hstate rfl rfl rfl rfl ?_
    rw [forwarded_append, hnone]
    rfl
  · exact .handshake d hread hstate rfl rfl rfl rfl hnone

theorem hears_established (hread : readOf s e = some d) (hstate : s.forger.hsState = .established)
    {s₁ : ReadHandler} (hs₁ : s₁ = { s with socket := s.socket ++ d }) :
    Hears ids s e (established channel d s₁).1 (established channel d s₁).2 := by
  have hsame : s₁.replayed = s.replayed ∧ s₁.approved = s.approved ∧
      s₁.forger.hsState = .established := by
    rw [hs₁]
    exact ⟨rfl, rfl, hstate⟩
  cases hreplayed : s.replayed with
  | true =>
    rw [established_of_piping (hsame.1.trans hreplayed), hs₁]
    refine .piped d hread hstate rfl hreplayed rfl rfl ?_
    rw [forwarded_pipe, hreplayed]
    rfl
  | false =>
    cases happroved : s.approved with
    | true =>
      rw [established_of_replays ⟨hsame.1.trans hreplayed, hsame.2.2, hsame.2.1.trans happroved⟩, hs₁]
      refine .piped d hread hstate rfl rfl rfl rfl ?_
      rw [forwarded_append, forwarded_replayHandshake, forwarded_pipe, hreplayed]
      rfl
    | false =>
      rw [established_of_waiting (hsame.1.trans hreplayed) (hsame.2.1.trans happroved), hs₁]
      exact .dropped d hread hstate hreplayed rfl hreplayed rfl rfl rfl

/-- Each step of the reader is one of these. -/
theorem hears_step (ids : ℕ → Bytes) (channel : UInt16) (s : ReadHandler) (e : Event) :
    Hears ids s e (step ids channel s e).1 (step ids channel s e).2 := by
  cases e with
  | approve => exact .quiet rfl rfl rfl rfl rfl rfl
  | poll p =>
    rw [step]
    by_cases hclosed : s.closed = true
    · rw [if_pos hclosed]
      have hnothing : readOf s (.poll p) = none := by
        cases p with
        | read data requestId => exact if_neg (by simp [hclosed])
        | _ => rfl
      exact .quiet hnothing rfl rfl rfl rfl rfl
    · rw [if_neg hclosed]
      cases p with
      | heartbeat ms =>
        rw [turn]
        split_ifs <;> exact .quiet rfl rfl rfl rfl rfl rfl
      | timeout => exact hears_timeout rfl
      | read data requestId =>
        rw [turn]
        by_cases hdata : data = []
        · rw [if_pos hdata]
          have hnothing : readOf s (.poll (.read data requestId)) = none := if_neg (by simp [hdata])
          exact hears_leave [] hnothing rfl true
        · rw [if_neg hdata]
          have hread : readOf s (.poll (.read data requestId)) = some data :=
            if_pos ⟨by simpa using hclosed, hdata⟩
          dsimp only
          split_ifs with hstate
          · exact hears_established hread hstate rfl
          · exact hears_feedForger hread hstate requestId rfl
      | drain chunks failed teardown =>
        have hsends : forwarded (chunks.map Effect.send) = [] := forwarded_send chunks
        cases teardown with
        | some announce => exact hears_leave _ rfl hsends announce
        | none =>
          rw [turn]
          split_ifs
          · exact hears_leave _ rfl hsends true
          · exact .quiet rfl rfl rfl rfl rfl hsends
      | stop => exact hears_leave [] rfl rfl true

/-- What has become of the reads `ds`, of which `ins` came behind the handshake. -/
structure Heard (ids : ℕ → Bytes) (ds ins : List Bytes) (s : ReadHandler) (fwd : Bytes) : Prop where
  forger : s.forger = (capture ids {} ds).1
  inputs_eq : ins = (capture ids {} ds).2
  established : s.replayed = true → s.forger.hsState = .established
  filtered : ∃ dropped piped, ins = dropped ++ piped ∧ s.keepaliveFilter = filterAfter piped ∧
    s.clipboardFaker = fakerAfter piped ∧ (s.replayed = false → piped = []) ∧
    fwd = (if s.replayed then s.forger.handshakeRaw else []) ++
      (ForwardKeepaliveFilter.payloads ForwardKeepaliveFilter.fresh piped).flatten

theorem inputs_snoc (es : List Event) (e : Event) : inputs ids channel (es ++ [e]) =
    inputs ids channel es ++ (inputOf ((machine ids channel).run es) e).toList :=
  Machine.collect_snoc ..

theorem inputOf_of_none (h : readOf s e = none) : inputOf s e = none := by
  rw [inputOf, h, ite_self]

/-- One read more has been piped. -/
theorem flatten_payloads_snoc (ds : List Bytes) (d : Bytes) :
    (ForwardKeepaliveFilter.payloads ForwardKeepaliveFilter.fresh (ds ++ [d])).flatten =
      (ForwardKeepaliveFilter.payloads ForwardKeepaliveFilter.fresh ds).flatten ++
        (ForwardKeepaliveFilter.filter (filterAfter ds) d).1 := by
  have hone : ∀ p : OpcodeParser Unit, (ForwardKeepaliveFilter.payloads p [d]).flatten =
      (ForwardKeepaliveFilter.filter p d).1 := by
    intro p
    rw [ForwardKeepaliveFilter.payloads]
    by_cases hout : (ForwardKeepaliveFilter.filter p d).1 = [] <;>
      simp [ForwardKeepaliveFilter.payloads, hout]
  rw [payloads_append, List.flatten_append, hone]
  rfl

theorem Heard.step {ds ins : List Bytes} {fwd : Bytes} {s' : ReadHandler} {out : List Effect}
    (h : Heard ids ds ins s fwd) (hstep : Hears ids s e s' out) :
    Heard ids (ds ++ (readOf s e).toList) (ins ++ (inputOf s e).toList) s' (fwd ++ forwarded out) := by
  obtain ⟨hforger, hinputs, hestablished, dropped, piped, hsplit, hfilter, hfaker, hwaiting, hfwd⟩ := h
  cases hstep with
  | quiet hnothing hf hr hk hc hout =>
    rw [hnothing, inputOf_of_none hnothing, hout, Option.toList_none, List.append_nil,
      List.append_nil, List.append_nil]
    refine ⟨hf.trans hforger, hinputs, ?_, dropped, piped, hsplit, hk.trans hfilter,
      hc.trans hfaker, ?_, ?_⟩
    · rwa [hr, hf]
    · rwa [hr]
    · rwa [hr, hf]
  | replay hnothing hreplays hf hr hk hc hout =>
    obtain ⟨hwait, -, hstate⟩ := hreplays
    obtain rfl := hwaiting hwait
    rw [hwait] at hfwd
    rw [hnothing, inputOf_of_none hnothing, hout, Option.toList_none, List.append_nil,
      List.append_nil]
    refine ⟨hf.trans hforger, hinputs, fun _ => hf ▸ hstate, dropped, [], hsplit, hk.trans hfilter,
      hc.trans hfaker, fun _ => rfl, ?_⟩
    rw [hr, hf, hfwd, if_pos rfl, if_neg Bool.false_ne_true]
    exact (List.append_nil _).symm
  | handshake d hread hstate hf hr hk hc hout =>
    have hnoinput : inputOf s e = none := if_neg hstate
    have hwait : s.replayed = false := by
      by_contra hreplayed
      exact hstate (hestablished (by simpa using hreplayed))
    rw [hforger] at hstate
    rw [hread, hnoinput, hout, Option.toList_some, Option.toList_none, List.append_nil,
      List.append_nil]
    have hsnoc := capture_snoc ids {} ds d
    rw [if_neg hstate] at hsnoc
    refine ⟨?_, ?_, ?_, dropped, piped, hsplit, hk.trans hfilter, hc.trans hfaker, ?_, ?_⟩
    · rw [hf, hforger, hsnoc]
    · rw [hinputs, hsnoc, capture_eq_nil hstate]
    · simp [hr, hwait]
    · rwa [hr]
    · rw [hwait] at hfwd
      rwa [hr, hwait]
  | dropped d hread hstate hw hf hr hk hc hout =>
    have hinput : inputOf s e = some d := (if_pos hstate).trans hread
    obtain rfl := hwaiting hw
    rw [hforger] at hstate
    have hsnoc := capture_snoc ids {} ds d
    rw [if_pos hstate] at hsnoc
    rw [hread, hinput, hout, Option.toList_some, List.append_nil]
    refine ⟨?_, ?_, ?_, dropped ++ [d], [], ?_, hk.trans hfilter, hc.trans hfaker, fun _ => rfl, ?_⟩
    · rw [hf, hforger, hsnoc]
    · rw [hinputs, hsnoc]
    · simp [hr]
    · rw [hsplit, List.append_nil, List.append_nil]
    · rw [hw] at hfwd
      rwa [hr]
  | piped d hread hstate hf hr hk hc hout =>
    have hinput : inputOf s e = some d := (if_pos hstate).trans hread
    have hsnoc := capture_snoc ids {} ds d
    rw [← hforger, if_pos hstate] at hsnoc
    rw [hread, hinput, hout, Option.toList_some]
    refine ⟨?_, ?_, fun _ => hf ▸ hstate, dropped, piped ++ [d], ?_, ?_, ?_, ?_, ?_⟩
    · rw [hf, hsnoc]
    · rw [hinputs, hsnoc]
    · rw [hsplit, List.append_assoc]
    · rw [hk, hfilter, filterAfter, filterAfter, List.foldl_append]
      rfl
    · rw [hc, hfaker, fakerAfter, fakerAfter, List.foldl_append]
      rfl
    · simp [hr]
    · rw [hfwd, hr, hf, if_pos rfl, flatten_payloads_snoc, hfilter]
      cases hreplayed : s.replayed with
      | true => simp
      | false =>
        rw [hwaiting hreplayed]
        simp [ForwardKeepaliveFilter.payloads]

theorem heard (ids : ℕ → Bytes) (channel : UInt16) (es : List Event) :
    Heard ids (reads ids channel es) (inputs ids channel es) ((machine ids channel).run es)
      (forwarded ((machine ids channel).emitted es)) := by
  induction es using List.reverseRecOn with
  | nil => exact ⟨rfl, rfl, by simp [machine], [], [], rfl, rfl, rfl, fun _ => rfl, rfl⟩
  | append_singleton es e ih =>
    rw [reads_snoc, inputs_snoc, Machine.run_snoc, Machine.emitted_snoc, forwarded_append]
    exact ih.step (hears_step ids channel _ e)

end

section

variable {ids : ℕ → Bytes} {channel : UInt16} {is : List (Instruction maxElementSize)}
  {connect : Instruction maxElementSize} {ds : List Bytes} {tail : Bytes}

/-- The first `connect` establishes the handshake, and no byte in front of its end does. -/
theorem established_iff (his : ∀ i ∈ is, i.opcode ≠ ascii "connect")
    (hconnect : connect.opcode = ascii "connect") {u : List Bytes} {v : Bytes}
    (hu : u.flatten ++ v = wire is ++ connect.encode) :
    (HandshakeForger.feedAll ids {} u).2.hsState = .established ↔ v = [] := by
  have hwire : wire is ++ connect.encode = wire (is ++ [connect]) := by simp
  have hfull := Cursor.read_wire (is ++ [connect])
  rw [← hwire, ← hu] at hfull
  obtain ⟨⟨js, cur⟩, hread⟩ := Cursor.exists_read_of_read_append hfull
  rw [hsState_feedAll hread]
  constructor
  · intro hphase
    obtain ⟨c, hc, hopcode⟩ := HandshakeForger.exists_connect_of_established hphase
    rw [Cursor.read_append_of_eq_some hread] at hfull
    obtain ⟨⟨ks, cur'⟩, hv, heq⟩ := Option.map_eq_some_iff.mp hfull
    obtain ⟨hsplit, -⟩ := Prod.mk.inj heq
    have hjs : js = is ++ [connect] := by
      rcases List.append_eq_append_iff.mp hsplit with ⟨x, rfl, -⟩ | ⟨x, rfl, hx⟩
      · exact absurd hopcode (his c (List.mem_append_left x hc))
      · cases x with
        | nil =>
          rw [List.append_nil] at hc
          exact absurd hopcode (his c hc)
        | cons y x =>
          obtain ⟨rfl, hnil⟩ := List.cons.inj hx
          rw [(List.append_eq_nil_iff.mp hnil.symm).1]
    have hbytes := Cursor.read_bytes hread
    rw [Cursor.bytes_start, List.nil_append, hjs, ← hwire, ← hu, List.append_assoc] at hbytes
    have hnil := List.self_eq_append_right.mp hbytes
    exact (List.append_eq_nil_iff.mp hnil).1
  · rintro rfl
    rw [List.append_nil] at hu
    rw [hu, hwire, Cursor.read_wire] at hread
    cases hread
    exact HandshakeForger.phase_of_connect hconnect (by simp)

/-- The copy of the handshake ends with the first `connect`, and what follows is input, if and
only if the read that completes the `connect` ends there. -/
theorem captured_iff (ids : ℕ → Bytes) (channel : UInt16) (es : List Event)
    (is : List (Instruction maxElementSize)) (connect : Instruction maxElementSize) (tail : Bytes)
    (hreads : (reads ids channel es).flatten = wire is ++ connect.encode ++ tail)
    (his : ∀ i ∈ is, i.opcode ≠ ascii "connect") (hconnect : connect.opcode = ascii "connect") :
    Captured ids channel es (wire is ++ connect.encode) tail ↔
      ∃ before after, reads ids channel es = before ++ after ∧
        before.flatten = wire is ++ connect.encode := by
  obtain ⟨hforger, hinputs, -, dropped, piped, hsplit, hfilter, hfaker, -, hforwarded⟩ :=
    heard ids channel es
  obtain ⟨used, hused, hfed, hearlier⟩ := exists_used ids {} (reads ids channel es)
  have hraw : ((machine ids channel).run es).forger.handshakeRaw = used.flatten := by
    rw [hforger, hfed, handshakeRaw_feedAll]
    rfl
  constructor
  · intro h
    exact ⟨used, inputs ids channel es, by rw [hinputs]; exact hused, by rw [← hraw, h.handshake_eq]⟩
  · rintro ⟨before, after, hbefore, hflatten⟩
    have hlater : after.flatten = tail := by
      rw [hbefore, List.flatten_append, hflatten] at hreads
      exact List.append_cancel_left hreads
    -- the forger has not been fed a read behind the `connect`
    obtain ⟨x, rfl, hrest⟩ : ∃ x, before = used ++ x ∧ inputs ids channel es = x ++ after := by
      rw [← hinputs] at hused
      rcases List.append_eq_append_iff.mp (hused.symm.trans hbefore) with ⟨x, hx, hrest⟩ | ⟨x, hx, hrest⟩
      · exact ⟨x, hx, hrest⟩
      · cases x with
        | nil => exact ⟨[], by simpa using hx.symm, by simpa using hrest.symm⟩
        | cons d x =>
          have hnot := hearlier before d x hx
          exact absurd ((established_iff his hconnect (by rw [hflatten, List.append_nil])).mpr rfl) hnot
    have hstate : (HandshakeForger.feedAll ids {} used).2.hsState = .established ↔ x.flatten = [] :=
      established_iff his hconnect (by rw [← List.flatten_append, hflatten])
    rw [← hfed, ← hforger] at hstate
    have hx : x.flatten = [] := by
      by_contra hne
      have hnone : (capture ids {} (reads ids channel es)).2 = [] := by
        apply capture_eq_nil
        rw [← hforger]
        exact fun hest => hne (hstate.mp hest)
      rw [← hinputs, hrest, List.append_eq_nil_iff] at hnone
      exact hne (by rw [hnone.1]; rfl)
    rw [List.flatten_append, hx, List.append_nil] at hflatten
    refine ⟨hstate.mpr hx, hraw.trans hflatten, ?_, dropped, piped, hsplit, hfilter, hfaker, ?_⟩
    · rw [hrest, List.flatten_append, hx, hlater]
      rfl
    · rw [hforwarded, hraw, hflatten]

end

theorem connectHost_ne_nil : [ascii "connect", ascii "host"] ≠ [] := List.cons_ne_nil _ _

theorem fits_connectHost : ∀ v ∈ [ascii "connect", ascii "host"], Fits maxElementSize v := by
  decide +kernel

/-- A `connect` with its one argument. -/
def connectHost : Instruction maxElementSize :=
  .ofValues [ascii "connect", ascii "host"] connectHost_ne_nil fits_connectHost

theorem selectSsh_ne_nil : [ascii "select", ascii "ssh"] ≠ [] := List.cons_ne_nil _ _

theorem fits_selectSsh : ∀ v ∈ [ascii "select", ascii "ssh"], Fits maxElementSize v := by
  decide +kernel

/-- A `select` with its one argument. -/
def selectSsh : Instruction maxElementSize :=
  .ofValues [ascii "select", ascii "ssh"] selectSsh_ne_nil fits_selectSsh

/-- A keepalive of the browser. -/
def browserSync : Bytes := ascii "4.sync,1.1;"

/-- The id that is drawn. -/
def requestId : Bytes := ascii "0123456789ab"

/-- The handshake in two reads, and the keepalive in a third. -/
def alignedReads : List Event :=
  [.poll (.read selectSsh.encode requestId), .poll (.read connectHost.encode requestId),
    .poll (.read browserSync requestId)]

/-- The handshake in one read, with the keepalive behind it. -/
def pipelinedRead : List Event :=
  [.poll (.read (selectSsh.encode ++ connectHost.encode ++ browserSync) requestId)]

theorem captured_alignedReads :
    Captured (fun _ => []) 1 alignedReads (wire [selectSsh] ++ connectHost.encode) browserSync :=
  (captured_iff (fun _ => []) 1 alignedReads [selectSsh] connectHost browserSync (by decide +kernel)
    (by decide +kernel) (by decide +kernel)).mpr
      ⟨[selectSsh.encode, connectHost.encode], [browserSync], by decide +kernel, by decide +kernel⟩

/-- The copy of the handshake ends with the keepalive. -/
theorem not_captured_pipelinedRead :
    ((machine (fun _ => []) 1).run pipelinedRead).forger.handshakeRaw =
        selectSsh.encode ++ connectHost.encode ++ browserSync ∧
      ¬Captured (fun _ => []) 1 pipelinedRead (wire [selectSsh] ++ connectHost.encode) browserSync := by
  have hraw : ((machine (fun _ => []) 1).run pipelinedRead).forger.handshakeRaw =
      selectSsh.encode ++ connectHost.encode ++ browserSync := by
    decide +kernel
  refine ⟨hraw, fun h => ?_⟩
  have heq := hraw.symm.trans h.handshake_eq
  revert heq
  decide +kernel

end ReadHandler

end GuacamoleDiode
