import GuacamoleDiode.Gmlbroker.ReadHandler

/-!
# Alignment across the approval wait

What a reader forwards of a browser stream: the handshake replay, then the input
read behind the approval. It is a sequence of whole instructions as long as three
borders of the stream fall between instructions: the end of the read that completes
the handshake, the end of what has been read when the handshake is replayed, and the
end of a read that cuts a keepalive.
-/

namespace GuacamoleDiode

open Wire

namespace ReadHandler

/-- The bytes end between two instructions. -/
def Aligned (w : Bytes) : Prop := ∃ is : List (Instruction maxElementSize), w = wire is

/-- The whole instructions in the bytes complete the handshake. -/
def CompletesHandshake (w : Bytes) : Prop :=
  ∃ (is : List (Instruction maxElementSize)) (cur : Cursor maxElementSize),
    w = wire is ++ cur.bytes ∧ HandshakeForger.phase is = .established

/-- A read behind the bytes `w` completes or reveals a keepalive that has begun before it,
or ends inside a keepalive behind its opcode. -/
def CutsKeepalive (w d : Bytes) : Prop :=
  ∃ (is js : List (Instruction maxElementSize)) (cur cur' : Cursor maxElementSize),
    w = wire is ++ cur.bytes ∧ cur.bytes ++ d = wire js ++ cur'.bytes ∧
    ((cur.bytes ≠ [] ∧ ∃ i ∈ js.head?, ForwardKeepaliveFilter.keepalive none i.values = true) ∨
      ForwardKeepaliveFilter.keepalive none cur'.values = true)

/-- The next event replays the handshake. -/
def Replays (s : ReadHandler) : Prop :=
  s.replayed = false ∧ s.approved = true ∧ s.forger.hsState = .established

/-- The three borders fall between instructions. -/
def Clean (s : ReadHandler) : Event → Prop
  | .poll .timeout => s.Replays → Aligned s.socket
  | .poll (.read d _) =>
    (s.forger.hsState ≠ .established → CompletesHandshake (s.socket ++ d) →
      Aligned (s.socket ++ d)) ∧
    (s.Replays → Aligned s.socket) ∧
    (s.replayed = true ∨ s.Replays → CutsKeepalive s.socket d → Aligned (s.socket ++ d))
  | _ => True

/-- What has been forwarded is a sequence of whole instructions of the browser stream, plus
at most the part received so far of the instruction in progress. -/
def WholeInstructions (socket forwarded : Bytes) : Prop :=
  ∃ (is js : List (Instruction maxElementSize)) (cur : Cursor maxElementSize) (t : Bytes),
    socket = wire is ++ cur.bytes ∧ js.Sublist is ∧ (t = [] ∨ t = cur.bytes) ∧
      forwarded = wire js ++ t

theorem forwarded_append (xs ys : List Effect) :
    forwarded (xs ++ ys) = forwarded xs ++ forwarded ys := by
  simp [forwarded]

theorem flatten_substrs {n : ℕ} (hn : 0 < n) (fuel : ℕ) (w : Bytes) (h : w.length ≤ fuel) :
    (substrs n fuel w).flatten = w := by
  induction fuel generalizing w with
  | zero =>
    have : w = [] := List.eq_nil_of_length_eq_zero (Nat.le_zero.mp h)
    rw [this]
    rfl
  | succ fuel ih =>
    rw [substrs]
    split_ifs with hw
    · rw [hw]
      rfl
    · have hpos : 0 < w.length := List.length_pos_iff.mpr hw
      rw [List.flatten_cons, ih (w.drop n) (by rw [List.length_drop]; omega), List.take_append_drop]

/-- The replay forwards the captured handshake. -/
theorem forwarded_replayHandshake (channel : UInt16) (handshake : Bytes) :
    forwarded (replayHandshake channel handshake) = handshake := by
  have h := flatten_substrs (n := Multiplexer.maxPayloadSize) (by decide) _ handshake le_rfl
  rw [← h]
  simp only [forwarded, replayHandshake, List.flatMap_map, if_true, h]
  rw [List.flatMap_id', h]

/-- How far a reader has come that has read `is` and the part of an instruction in `cur`. -/
inductive Stage (ids : ℕ → Bytes) (s : ReadHandler) (fwd : Bytes)
    (is : List (Instruction maxElementSize)) (cur : Cursor maxElementSize) : Prop where
  | handshake (fed : HandshakeForger.Fed ids is cur s.forger)
      (state : HandshakeForger.phase is ≠ .established) (replayed : s.replayed = false)
      (filter : s.keepaliveFilter = ForwardKeepaliveFilter.fresh) (fwd_eq : fwd = [])
  | waiting (hs : List (Instruction maxElementSize)) (sublist : hs.Sublist is)
      (raw : s.forger.handshakeRaw = wire hs) (state : s.forger.hsState = .established)
      (replayed : s.replayed = false)
      (filter : s.keepaliveFilter = ForwardKeepaliveFilter.fresh) (fwd_eq : fwd = [])
  | piping (js : List (Instruction maxElementSize)) (sublist : js.Sublist is)
      (state : s.forger.hsState = .established) (replayed : s.replayed = true)
      (session : OpcodeParser.Session ForwardKeepaliveFilter.hooks () cur s.keepaliveFilter)
      (fwd_eq : fwd = wire js ++ cur.bytes)

/-- The invariant: `fwd` has been forwarded. -/
def Inv (ids : ℕ → Bytes) (s : ReadHandler) (fwd : Bytes) : Prop :=
  (s.closed = true ∧ WholeInstructions s.socket fwd) ∨
    (s.closed = false ∧ ∃ is cur, s.socket = wire is ++ cur.bytes ∧ Stage ids s fwd is cur)

section Invariant

variable {ids : ℕ → Bytes} {channel : UInt16} {s : ReadHandler} {fwd d : Bytes}
  {is js : List (Instruction maxElementSize)} {cur cur' : Cursor maxElementSize}

theorem Stage.wholeInstructions (h : Stage ids s fwd is cur)
    (hsock : s.socket = wire is ++ cur.bytes) : WholeInstructions s.socket fwd := by
  cases h with
  | handshake _ _ _ _ hfwd => exact ⟨is, [], cur, [], hsock, List.nil_sublist _, .inl rfl, hfwd⟩
  | waiting _ _ _ _ _ _ hfwd => exact ⟨is, [], cur, [], hsock, List.nil_sublist _, .inl rfl, hfwd⟩
  | piping js hjs _ _ _ hfwd => exact ⟨is, js, cur, cur.bytes, hsock, hjs, .inr rfl, hfwd⟩

theorem Inv.wholeInstructions (h : Inv ids s fwd) : WholeInstructions s.socket fwd := by
  rcases h with ⟨-, h⟩ | ⟨-, is, cur, hsock, h⟩
  · exact h
  · exact h.wholeInstructions hsock

/-- Bytes that end between two instructions leave no instruction in progress. -/
theorem start_of_aligned {w : Bytes} (h : Aligned w) (hw : w = wire is ++ cur.bytes) :
    cur = .start := by
  obtain ⟨js, rfl⟩ := h
  have : wire js ++ (Cursor.start : Cursor maxElementSize).bytes = wire is ++ cur.bytes := by
    simpa using hw
  exact (Cursor.split_unique this).2.symm

/-- Leaving the loop forwards nothing more. -/
theorem inv_leave (h : WholeInstructions s.socket fwd) (announce : Bool) :
    Inv ids (leave channel announce s).1 (fwd ++ forwarded (leave channel announce s).2) := by
  have hnone : forwarded (leave channel announce s).2 = [] := by
    cases announce <;> rfl
  rw [hnone, List.append_nil]
  exact .inl ⟨rfl, h⟩

/-- The replay starts the piping. -/
theorem Stage.replay (channel : UInt16) (h : Stage ids s fwd is cur) (hclean : s.Replays → cur = .start) :
    Stage ids (maybeReplay channel s).1 (fwd ++ forwarded (maybeReplay channel s).2) is cur := by
  by_cases hr : s.replayed = false ∧ s.forger.hsState = .established ∧ s.approved = true
  · have hcur := hclean ⟨hr.1, hr.2.2, hr.2.1⟩
    rw [maybeReplay, if_pos hr, forwarded_replayHandshake]
    cases h with
    | handshake hfed hne =>
      rw [hfed.hsState] at hr
      exact absurd hr.2.1 hne
    | waiting hs hsub hraw hst _ hfilter hfwd =>
      subst hcur
      refine .piping hs hsub hst rfl ?_ ?_
      · rw [hfilter]
        exact ForwardKeepaliveFilter.session_fresh
      · rw [hfwd, hraw]
        simp
    | piping _ _ _ hrep =>
      rw [hrep] at hr
      exact absurd hr.1 (by simp)
  · rw [maybeReplay, if_neg hr]
    simpa [forwarded] using h

/-- What is left of a piped read is forwarded. -/
theorem forwarded_pipe (channel : UInt16) (d : Bytes) (s : ReadHandler) :
    forwarded (pipe channel d s).2 = (ForwardKeepaliveFilter.filter s.keepaliveFilter d).1 := by
  by_cases h₁ : (ClipboardAckFaker.feed s.clipboardFaker d).1 = [] <;>
    by_cases h₂ : (ForwardKeepaliveFilter.filter s.keepaliveFilter d).1 = [] <;>
      simp [pipe, forwarded, h₁, h₂]

/-- A piped read. -/
theorem Stage.piped (h : Stage ids s fwd is cur) (hrep : s.replayed = true)
    (hr : cur.read d = some (js, cur'))
    (hcut : ForwardKeepaliveFilter.hooks.Cuts () cur js cur' → cur' = .start) :
    Stage ids (pipe channel d s).1 (fwd ++ forwarded (pipe channel d s).2) (is ++ js) cur' := by
  rw [forwarded_pipe]
  cases h with
  | handshake _ _ hf => simp [hf] at hrep
  | waiting _ _ _ _ hf => simp [hf] at hrep
  | piping js₀ hsub hst hrep hsess hfwd₀ =>
    rcases ForwardKeepaliveFilter.filter_session hsess hr with ⟨hc, hout, hreset⟩ | ⟨-, hpass⟩
    · -- the read is forwarded as it is, and the filter starts over at its end
      have hstart := hcut hc
      refine .piping (js₀ ++ js) (hsub.append (List.Sublist.refl js)) hst hrep ?_ ?_
      · rw [hstart]
        exact hreset
      · rw [hout, hfwd₀, List.append_assoc, Cursor.read_bytes hr, wire_append, List.append_assoc]
    · refine .piping (js₀ ++ ForwardKeepaliveFilter.hooks.survivors () js)
        (hsub.append (Hooks.survivors_sublist _ () js)) hst hrep hpass.session ?_
      rw [hfwd₀, List.append_assoc, hpass.kept, wire_append, List.append_assoc]

/-- A read of the handshake. -/
theorem Inv.feedForger (requestId : Bytes) (hclosed : s.closed = false)
    (hsock : s.socket = wire (is ++ js) ++ cur'.bytes)
    (hfed : HandshakeForger.Fed ids is cur s.forger) (hr : cur.read d = some (js, cur'))
    (hrep : s.replayed = false) (hfilter : s.keepaliveFilter = ForwardKeepaliveFilter.fresh)
    (hclean : CompletesHandshake s.socket → Aligned s.socket) :
    Inv ids (feedForger ids channel d requestId s).1
      (forwarded (feedForger ids channel d requestId s).2) := by
  have hfed' := hfed.feed hr
  have hst := hfed'.hsState
  have hinv : ¬(s.forger.feed ids d).2.hsState = .invalidHandshake := by
    rw [hst]
    exact HandshakeForger.phase_ne_invalidHandshake _
  have hfwd : forwarded (ReadHandler.feedForger ids channel d requestId s).2 = [] := by
    unfold ReadHandler.feedForger
    by_cases h₁ : (s.forger.feed ids d).1 = [] <;>
      by_cases h₂ : (s.forger.feed ids d).2.hsState = .established <;>
        simp [forwarded, h₁, h₂, hinv]
  rw [hfwd]
  by_cases hest : (s.forger.feed ids d).2.hsState = .established
  · have hstate : (ReadHandler.feedForger ids channel d requestId s).1 =
        { s with forger := (s.forger.feed ids d).2 } := by
      simp [ReadHandler.feedForger, hest]
    have hphase : HandshakeForger.phase (is ++ js) = .established := by rw [← hst, hest]
    have hcur := start_of_aligned (hclean ⟨is ++ js, cur', hsock, hphase⟩) hsock
    rw [hstate]
    refine .inr ⟨hclosed, is ++ js, cur', hsock,
      .waiting (is ++ js) (List.Sublist.refl _) ?_ hest hrep hfilter rfl⟩
    rw [hfed'.raw, hcur]
    simp
  · have hstate : (ReadHandler.feedForger ids channel d requestId s).1 =
        { s with forger := (s.forger.feed ids d).2 } := by
      simp [ReadHandler.feedForger, hest, hinv]
    rw [hstate]
    refine .inr ⟨hclosed, is ++ js, cur', hsock, .handshake hfed' ?_ hrep hfilter rfl⟩
    rwa [← hst]

/-- A dropped read. -/
theorem Stage.dropped (h : Stage ids s fwd is cur) (hst : s.forger.hsState = .established)
    (hrep : s.replayed = false) (js : List (Instruction maxElementSize))
    (cur' : Cursor maxElementSize) : Stage ids s fwd (is ++ js) cur' := by
  cases h with
  | handshake hfed hne => exact absurd (hfed.hsState ▸ hst) hne
  | waiting hs hsub hraw _ _ hfilter hfwd =>
    exact .waiting hs (hsub.trans (List.sublist_append_left is js)) hraw hst hrep hfilter hfwd
  | piping _ _ _ hrep' => simp [hrep] at hrep'

/-- The stage only depends on the forger, the filter and the replay. -/
theorem Stage.congr {s' : ReadHandler} (h : Stage ids s fwd is cur) (hf : s'.forger = s.forger)
    (hk : s'.keepaliveFilter = s.keepaliveFilter) (hr : s'.replayed = s.replayed) :
    Stage ids s' fwd is cur := by
  cases h with
  | handshake hfed hne hrep hfilter hfwd =>
    exact .handshake (hf ▸ hfed) hne (hr.trans hrep) (hk.trans hfilter) hfwd
  | waiting hs hsub hraw hst hrep hfilter hfwd =>
    exact .waiting hs hsub (hf ▸ hraw) (hf ▸ hst) (hr.trans hrep) (hk.trans hfilter) hfwd
  | piping js hsub hst hrep hsess hfwd =>
    exact .piping js hsub (hf ▸ hst) (hr.trans hrep) (hk ▸ hsess) hfwd

theorem maybeReplay_replayed (channel : UInt16) (s : ReadHandler) :
    (maybeReplay channel s).1.replayed = true ↔
      s.replayed = true ∨ s.Replays := by
  unfold maybeReplay Replays
  split_ifs with h
  · simp [h]
  · cases hrep : s.replayed with
    | true => simp
    | false =>
      simp [hrep] at h ⊢
      exact fun happ hst => by simp [h hst] at happ

/-- A read behind the handshake. -/
theorem Stage.established (h : Stage ids s fwd is cur) (hst : s.forger.hsState = .established)
    (hr : cur.read d = some (js, cur')) (hreplay : s.Replays → cur = .start)
    (hcut : s.replayed = true ∨ s.Replays →
      ForwardKeepaliveFilter.hooks.Cuts () cur js cur' → cur' = .start) :
    Stage ids (established channel d s).1 (fwd ++ forwarded (established channel d s).2)
      (is ++ js) cur' := by
  have hstage := h.replay channel hreplay
  rw [ReadHandler.established]
  dsimp only
  split_ifs with hrep
  · rw [forwarded_append, ← List.append_assoc]
    exact hstage.piped hrep hr (hcut ((maybeReplay_replayed channel s).mp hrep))
  · have hno : ¬(s.replayed = false ∧ s.forger.hsState = .established ∧ s.approved = true) :=
      fun hn => hrep ((maybeReplay_replayed channel s).mpr (.inr ⟨hn.1, hn.2.2, hn.2.1⟩))
    have hsame : maybeReplay channel s = (s, []) := if_neg hno
    rw [hsame] at hstage hrep ⊢
    exact hstage.dropped hst (by simpa using hrep) js cur'

theorem maybeReplay_frame (channel : UInt16) (s : ReadHandler) :
    (maybeReplay channel s).1.socket = s.socket ∧ (maybeReplay channel s).1.closed = s.closed := by
  unfold maybeReplay
  split_ifs <;> exact ⟨rfl, rfl⟩

theorem established_frame (channel : UInt16) (d : Bytes) (s : ReadHandler) :
    (established channel d s).1.socket = s.socket ∧
      (established channel d s).1.closed = s.closed := by
  unfold established
  dsimp only
  split_ifs
  · exact maybeReplay_frame channel s
  · exact maybeReplay_frame channel s

theorem forwarded_send (chunks : List Bytes) : forwarded (chunks.map Effect.send) = [] := by
  simp [forwarded, List.flatMap_map]

theorem turn_read_socket (hne : d ≠ []) {requestId : Bytes} :
    (turn ids channel s (.read d requestId)).1.socket = s.socket ++ d := by
  rw [turn, if_neg hne]
  dsimp only
  split_ifs
  · exact (established_frame channel d _).1
  · unfold feedForger
    dsimp only
    split_ifs <;> rfl

/-- A read that stays inside the grammar keeps the invariant. -/
theorem Inv.read (hclosed : s.closed = false) (hsock : s.socket = wire is ++ cur.bytes)
    (h : Stage ids s fwd is cur) (requestId : Bytes) (hne : d ≠ [])
    (hclean : Clean s (.poll (.read d requestId))) (hr : cur.read d = some (js, cur')) :
    Inv ids (turn ids channel s (.read d requestId)).1
      (fwd ++ forwarded (turn ids channel s (.read d requestId)).2) := by
  obtain ⟨hcomplete, hreplay, hcut⟩ := hclean
  have hsock' : s.socket ++ d = wire (is ++ js) ++ cur'.bytes := by
    rw [hsock, List.append_assoc, Cursor.read_bytes hr, wire_append, List.append_assoc]
  have h' : Stage ids { s with socket := s.socket ++ d } fwd is cur := h.congr rfl rfl rfl
  rw [turn, if_neg hne]
  dsimp only
  split_ifs with hst
  · obtain ⟨hs₁, hs₂⟩ := established_frame channel d { s with socket := s.socket ++ d }
    refine .inr ⟨hs₂.trans hclosed, is ++ js, cur', hs₁.trans hsock', ?_⟩
    refine h'.established hst hr (fun hrep => start_of_aligned (hreplay hrep) hsock) ?_
    intro hrep hcuts
    rw [ForwardKeepaliveFilter.cuts_iff] at hcuts
    exact start_of_aligned
      (hcut hrep ⟨is, js, cur, cur', hsock, Cursor.read_bytes hr, hcuts⟩) hsock'
  · cases h with
    | handshake hfed _ hrep hfilter hfwd =>
      rw [hfwd, List.nil_append]
      exact Inv.feedForger requestId hclosed hsock' hfed hr hrep hfilter (hcomplete hst)
    | waiting _ _ _ hst' => exact absurd hst' hst
    | piping _ _ hst' => exact absurd hst' hst

/-- One step keeps the invariant, as long as the browser stream is well-formed. -/
theorem inv_step (h : Inv ids s fwd) (e : Event) (hclean : Clean s e)
    {stream : List (Instruction maxElementSize)}
    (hwell : (step ids channel s e).1.socket <+: wire stream) :
    Inv ids (step ids channel s e).1 (fwd ++ forwarded (step ids channel s e).2) := by
  cases e with
  | approve =>
    have hnone : forwarded (step ids channel s .approve).2 = [] := rfl
    rw [hnone, List.append_nil]
    exact h.imp_right fun ⟨hclosed, is, cur, hsock, hst⟩ =>
      ⟨hclosed, is, cur, hsock, hst.congr rfl rfl rfl⟩
  | poll p =>
    rcases h with ⟨hclosed, hw⟩ | ⟨hclosed, is, cur, hsock, hst⟩
    · rw [step, if_pos hclosed]
      exact .inl ⟨hclosed, by simpa [forwarded] using hw⟩
    · have hwhole := hst.wholeInstructions hsock
      have hopen : Inv ids s fwd := .inr ⟨hclosed, is, cur, hsock, hst⟩
      rw [step, if_neg (by simp [hclosed])] at hwell ⊢
      cases p with
      | heartbeat ms =>
        rw [turn]
        split_ifs <;> simpa [forwarded] using hopen
      | timeout =>
        obtain ⟨hs₁, hs₂⟩ := maybeReplay_frame channel s
        exact .inr ⟨hs₂.trans hclosed, is, cur, hs₁.trans hsock,
          hst.replay channel fun hr => start_of_aligned (hclean hr) hsock⟩
      | read d requestId =>
        by_cases hne : d = []
        · rw [turn, if_pos hne]
          exact inv_leave hwhole true
        · have hread : ∃ js cur', cur.read d = some (js, cur') := by
            rw [turn_read_socket hne] at hwell
            obtain ⟨⟨is', cur'⟩, hr⟩ := Cursor.exists_read_iff.mpr ⟨stream, hwell⟩
            rw [Cursor.read_append_of_eq_some (Cursor.read_start_eq_some_iff.mpr hsock),
              Option.map_eq_some_iff] at hr
            obtain ⟨⟨js, cur'⟩, hr, -⟩ := hr
            exact ⟨js, cur', hr⟩
          obtain ⟨js, cur', hr⟩ := hread
          exact Inv.read hclosed hsock hst requestId hne hclean hr
      | drain chunks failed teardown =>
        cases teardown with
        | some announce =>
          rw [turn, forwarded_append, forwarded_send, List.nil_append]
          exact inv_leave hwhole announce
        | none =>
          rw [turn]
          split_ifs
          · rw [forwarded_append, forwarded_send, List.nil_append]
            exact inv_leave hwhole true
          · rw [forwarded_send, List.append_nil]
            exact hopen
      | stop => exact inv_leave hwhole true

/-- Steps only add to the bytes read so far. -/
theorem socket_prefix_step (s : ReadHandler) (e : Event) :
    s.socket <+: (step ids channel s e).1.socket := by
  cases e with
  | approve => exact List.prefix_rfl
  | poll p =>
    rw [step]
    split_ifs
    · exact List.prefix_rfl
    · cases p with
      | read d requestId =>
        by_cases hne : d = []
        · rw [turn, if_pos hne]
          exact List.prefix_rfl
        · rw [turn_read_socket hne]
          exact List.prefix_append _ _
      | heartbeat ms =>
        rw [turn]
        split_ifs <;> exact List.prefix_rfl
      | timeout => rw [turn, (maybeReplay_frame channel s).1]
      | drain chunks failed teardown =>
        cases teardown with
        | some announce => exact List.prefix_rfl
        | none =>
          rw [turn]
          split_ifs <;> exact List.prefix_rfl
      | stop => exact List.prefix_rfl

end Invariant

/-- In every run whose borders fall between instructions, whatever has been forwarded of a
well-formed browser stream is a sequence of whole instructions. -/
theorem wholeInstructions_of_clean (ids : ℕ → Bytes) (channel : UInt16) (es : List Event)
    (stream : List (Instruction maxElementSize))
    (hwell : ((machine ids channel).run es).socket <+: wire stream)
    (hclean : (machine ids channel).Always (fun _ s e => Clean s e) es) :
    WholeInstructions ((machine ids channel).run es).socket
      (forwarded ((machine ids channel).emitted es)) := by
  let P : List Event → ReadHandler → Prop := fun es s =>
    s.socket <+: wire stream → Inv ids s (forwarded ((machine ids channel).emitted es))
  have hinv : P es ((machine ids channel).run es) := by
    refine Machine.invariant_of_always (Q := fun _ s e => Clean s e) ?_ ?_ hclean
    · intro _
      exact .inr ⟨rfl, [], .start, rfl, .handshake HandshakeForger.fed_nil nofun rfl rfl rfl⟩
    · intro es e ih hc hw
      rw [Machine.emitted_snoc, forwarded_append]
      exact inv_step (ih ((socket_prefix_step _ e).trans hw)) e hc hw
  exact (hinv hwell).wholeInstructions

/-- A short handshake. -/
def handshake : List (Instruction maxElementSize) :=
  [.ofValues [ascii "select", ascii "ssh"] (by decide) (by decide +kernel),
    .ofValues [ascii "connect", ascii "host"] (by decide) (by decide +kernel)]

/-- A key press and a mouse move. -/
def input : List (Instruction maxElementSize) :=
  [.ofValues [ascii "key", ascii "98", ascii "1"] (by decide) (by decide +kernel),
    .ofValues [ascii "mouse", ascii "5", ascii "7"] (by decide) (by decide +kernel)]

/-- The approval arrives between two reads that end between instructions. -/
def alignedSession : List Event :=
  [.poll (.read (wire handshake) (ascii "0123456789ab")), .approve,
    .poll (.read (wire input) (ascii "0123456789ab"))]

theorem clean_of_aligned {s : ReadHandler} {d requestId : Bytes} (h : Aligned s.socket)
    (h' : Aligned (s.socket ++ d)) : Clean s (.poll (.read d requestId)) :=
  ⟨fun _ _ => h', fun _ => h, fun _ _ => h'⟩

theorem alignedSession_clean :
    (machine (fun _ => []) 1).Always (fun _ s e => Clean s e) alignedSession := by
  have hnil : Aligned ((machine (fun _ => []) 1).run []).socket := ⟨[], rfl⟩
  have h₁ : ((machine (fun _ => []) 1).run [.poll (.read (wire handshake) (ascii "0123456789ab")),
      .approve]).socket = wire handshake := by decide +kernel
  change Machine.Always _ _ ([] ++ [_] ++ [_] ++ [_])
  rw [Machine.always_snoc, Machine.always_snoc, Machine.always_snoc]
  refine ⟨⟨⟨Machine.always_nil, clean_of_aligned hnil ⟨handshake, rfl⟩⟩, trivial⟩, ?_⟩
  refine clean_of_aligned ⟨handshake, h₁⟩ ⟨handshake ++ input, ?_⟩
  rw [wire_append]
  exact congrArg (· ++ wire input) h₁

/-- The condition holds of a session, which forwards both of its parts. -/
theorem wholeInstructions_alignedSession :
    ((machine (fun _ => []) 1).run alignedSession).socket <+: wire (handshake ++ input) ∧
      WholeInstructions ((machine (fun _ => []) 1).run alignedSession).socket
        (forwarded ((machine (fun _ => []) 1).emitted alignedSession)) := by
  have hwell : ((machine (fun _ => []) 1).run alignedSession).socket <+:
      wire (handshake ++ input) := by decide +kernel
  exact ⟨hwell, wholeInstructions_of_clean _ 1 alignedSession (handshake ++ input) hwell
    alignedSession_clean⟩

theorem WholeInstructions.readable {socket fwd : Bytes} (h : WholeInstructions socket fwd) :
    (Cursor.start : Cursor maxElementSize).read fwd ≠ none := by
  obtain ⟨is, js, cur, t, -, -, ht, rfl⟩ := h
  rcases ht with rfl | rfl
  · simp [Cursor.read_wire]
  · simp [Cursor.read_wire_append_bytes]

/-- The key press is cut by the read that completes the handshake, and its rest is dropped
with the input that comes before the approval. -/
def cutSession : List Event :=
  [.poll (.read (wire handshake ++ (wire input).take 4) (ascii "0123456789ab")),
    .poll (.read (((wire input).drop 4).take 11) (ascii "0123456789ab")), .approve,
    .poll (.read ((wire input).drop 15) (ascii "0123456789ab"))]

/-- The mouse move is forwarded behind half of a key press. -/
theorem not_wholeInstructions_cutSession :
    ((machine (fun _ => []) 1).run cutSession).socket = wire (handshake ++ input) ∧
      ¬WholeInstructions ((machine (fun _ => []) 1).run cutSession).socket
        (forwarded ((machine (fun _ => []) 1).emitted cutSession)) := by
  refine ⟨by decide +kernel, fun h => h.readable ?_⟩
  decide +kernel

end ReadHandler

end GuacamoleDiode
