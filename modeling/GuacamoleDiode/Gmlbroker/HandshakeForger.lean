import GuacamoleDiode.Lib.Decimal
import GuacamoleDiode.Parser.Stream

/-!
# The forged handshake

gmlbroker answers the handshake of the web server itself. The forger is a parser
that allows every opcode; it replies to `select` and `connect` and keeps a verbatim
copy of what it has been fed, to be replayed once the connection is approved.

## Design notes

- `make_fake_id` draws from a random generator. The ids are a parameter here, and
  `drawn` counts those that have been used.
-/

namespace GuacamoleDiode

open Wire

/-- States that the forged handshake can be in. -/
inductive HandshakeState where
  /-- before `select` -/
  | unestablished
  /-- args sent, awaiting `connect` -/
  | exchangingParameters
  /-- ready and waiting screen sent -/
  | established
  /-- input could not be parsed -/
  | invalidHandshake
  deriving DecidableEq, Repr

/-- The members that `HandshakeForger` adds to its base, except the copy of the handshake. -/
structure ForgerMembers where
  hsState : HandshakeState := .unestablished
  currentOpcode : Bytes := []
  protocol : Bytes := []
  connectValues : List Bytes := []
  sizeArgs : List Bytes := []
  fakeId : Bytes := []
  drawn : ℕ := 0
  /-- response accumulator for one `feed` -/
  out : Bytes := []
  deriving DecidableEq, Repr

structure HandshakeForger where
  parser : OpcodeParser ForgerMembers := { members := {} }
  /-- verbatim client handshake, for replay -/
  handshakeRaw : Bytes := []

namespace HandshakeForger

/-- Build one instruction from its elements. -/
def instr : List Bytes → Bytes
  | [] => []
  | [e] => decimal e.length ++ dot :: e ++ [semicolon]
  | e :: e' :: es => decimal e.length ++ dot :: e ++ comma :: instr (e' :: es)

/-- Canned `args` reply for ssh. -/
def sshArgs : Bytes := List.flatMap ascii [
  "4.args,13.VERSION_1_5_0,8.hostname,8.host-key,4.port,7.timeout,8.username,",
  "8.password,9.font-name,9.font-size,11.enable-sftp,19.sftp-root-directory,",
  "21.sftp-disable-download,19.sftp-disable-upload,11.private-key,",
  "10.passphrase,10.public-key,12.color-scheme,7.command,15.typescript-path,",
  "15.typescript-name,22.create-typescript-path,25.typescript-write-existing,",
  "14.recording-path,14.recording-name,24.recording-exclude-output,",
  "23.recording-exclude-mouse,22.recording-include-keys,",
  "21.create-recording-path,24.recording-write-existing,9.read-only,",
  "21.server-alive-interval,9.backspace,13.terminal-type,10.scrollback,",
  "6.locale,8.timezone,12.disable-copy,13.disable-paste,15.wol-send-packet,",
  "12.wol-mac-addr,18.wol-broadcast-addr,12.wol-udp-port,13.wol-wait-time;"]

/-- Canned `args` reply for rdp. -/
def rdpArgs : Bytes := List.flatMap ascii [
  "4.args,13.VERSION_1_5_0,8.hostname,4.port,7.timeout,6.domain,",
  "8.username,8.password,5.width,6.height,3.dpi,15.initial-program,",
  "11.color-depth,13.disable-audio,15.enable-printing,12.printer-name,",
  "12.enable-drive,10.drive-name,10.drive-path,17.create-drive-path,",
  "16.disable-download,14.disable-upload,7.console,13.console-audio,",
  "13.server-layout,8.security,11.ignore-cert,9.cert-tofu,",
  "17.cert-fingerprints,12.disable-auth,10.remote-app,",
  "14.remote-app-dir,15.remote-app-args,15.static-channels,",
  "11.client-name,16.enable-wallpaper,14.enable-theming,",
  "21.enable-font-smoothing,23.enable-full-window-drag,",
  "26.enable-desktop-composition,22.enable-menu-animations,",
  "22.disable-bitmap-caching,25.disable-offscreen-caching,",
  "21.disable-glyph-caching,11.disable-gfx,16.preconnection-id,",
  "18.preconnection-blob,8.timezone,11.enable-sftp,13.sftp-hostname,",
  "13.sftp-host-key,9.sftp-port,12.sftp-timeout,13.sftp-username,",
  "13.sftp-password,16.sftp-private-key,15.sftp-passphrase,",
  "15.sftp-public-key,14.sftp-directory,19.sftp-root-directory,",
  "26.sftp-server-alive-interval,21.sftp-disable-download,",
  "19.sftp-disable-upload,14.recording-path,14.recording-name,",
  "24.recording-exclude-output,23.recording-exclude-mouse,",
  "23.recording-exclude-touch,22.recording-include-keys,",
  "21.create-recording-path,24.recording-write-existing,",
  "13.resize-method,18.enable-audio-input,12.enable-touch,9.read-only,",
  "16.gateway-hostname,12.gateway-port,14.gateway-domain,",
  "16.gateway-username,16.gateway-password,17.load-balance-info,",
  "12.disable-copy,13.disable-paste,15.wol-send-packet,12.wol-mac-addr,",
  "18.wol-broadcast-addr,12.wol-udp-port,13.wol-wait-time,",
  "14.force-lossless,19.normalize-clipboard;"]

/-- `CannedArgs`: per-protocol reply, with ssh as the fallback. -/
def cannedArgs (m : ForgerMembers) : Bytes :=
  if m.protocol = ascii "rdp" then rdpArgs else sshArgs

/-- `WaitingScreen`: a solid colour on the default layer. -/
def waitingScreen (m : ForgerMembers) : Bytes :=
  let w := m.sizeArgs.getD 0 (ascii "1024")
  let h := m.sizeArgs.getD 1 (ascii "768")
  instr [ascii "size", ascii "0", w, h] ++
    instr [ascii "rect", ascii "0", ascii "0", ascii "0", w, h] ++
    instr (["cfill", "14", "0", "40", "40", "40", "255"].map ascii) ++
    instr [ascii "sync", ascii "0"]

def onInstructionBegin (opcode : Bytes) (m : ForgerMembers) : Bool × ForgerMembers :=
  (true, { m with currentOpcode := opcode })

def onArgument (arg : Bytes) (m : ForgerMembers) : Bool × ForgerMembers :=
  (true,
    if m.currentOpcode = ascii "select" then { m with protocol := arg }
    else if m.currentOpcode = ascii "connect" then
      { m with connectValues := m.connectValues ++ [arg] }
    else if m.currentOpcode = ascii "size" then { m with sizeArgs := m.sizeArgs ++ [arg] }
    else m)

/-- `OnInstructionEnd`: the replies to `select` and `connect`. -/
def onInstructionEnd (ids : ℕ → Bytes) (m : ForgerMembers) : ForgerMembers :=
  if m.currentOpcode = ascii "select" then
    { m with out := m.out ++ cannedArgs m, hsState := .exchangingParameters }
  else if m.currentOpcode = ascii "connect" then
    let id := ids m.drawn
    { m with
      fakeId := id
      drawn := m.drawn + 1
      out := m.out ++ instr [ascii "ready", id] ++ waitingScreen m
      hsState := .established }
  else m

def hooks (ids : ℕ → Bytes) : Hooks ForgerMembers where
  onInstructionBegin := onInstructionBegin
  onArgument := onArgument
  onInstructionEnd := fun _ m => onInstructionEnd ids m

/-- `HandshakeForger::Feed`: the bytes to write back, and the forger. -/
def feed (ids : ℕ → Bytes) (f : HandshakeForger) (data : Bytes) : Bytes × HandshakeForger :=
  let p := { f.parser with members := { f.parser.members with out := [] } }
  let p := (p.parse (hooks ids) data).2
  let p := if p.state = .streamCorrupted then
    { p with members := { p.members with hsState := .invalidHandshake } } else p
  (p.members.out, { parser := p, handshakeRaw := f.handshakeRaw ++ data })

/-- `GetHandshakeState`. -/
def hsState (f : HandshakeForger) : HandshakeState := f.parser.members.hsState

variable {limit : ℕ}

/-- The handshake state behind one more instruction. -/
def advance (st : HandshakeState) (i : Instruction limit) : HandshakeState :=
  if i.opcode = ascii "select" then .exchangingParameters
  else if i.opcode = ascii "connect" then .established
  else st

/-- The handshake state behind a sequence of instructions. -/
def phase (is : List (Instruction limit)) : HandshakeState := is.foldl advance .unestablished

@[simp] theorem phase_append (is js : List (Instruction limit)) :
    phase (is ++ js) = js.foldl advance (phase is) := by
  simp [phase]

theorem phase_ne_invalidHandshake (is : List (Instruction limit)) :
    phase is ≠ .invalidHandshake := by
  induction is using List.reverseRecOn with
  | nil => exact nofun
  | append_singleton is i ih =>
    rw [phase_append, List.foldl_cons, List.foldl_nil, advance]
    split_ifs
    · decide
    · decide
    · exact ih

section Judge

variable {ids : ℕ → Bytes}

theorem close_opcode (v : Bytes) (m : ForgerMembers) :
    (hooks ids).close true v (m, false) = ({ m with currentOpcode := v }, false) := rfl

theorem close_argument (v : Bytes) (m : ForgerMembers) :
    (hooks ids).close false v (m, false) = ((onArgument v m).2, false) := rfl

theorem onArgument_hsState (v : Bytes) (m : ForgerMembers) :
    (onArgument v m).2.hsState = m.hsState ∧
      (onArgument v m).2.currentOpcode = m.currentOpcode := by
  unfold onArgument
  dsimp only
  split_ifs <;> exact ⟨rfl, rfl⟩

theorem onArgument_out (v o : Bytes) (m : ForgerMembers) :
    (onArgument v { m with out := o }).2 = { (onArgument v m).2 with out := o } := by
  unfold onArgument
  dsimp only
  split_ifs <;> rfl

/-- The forger denies nothing, and the handshake state waits for the end of the instruction. -/
theorem judge_eq (ids : ℕ → Bytes) (m : ForgerMembers) (vs : List Bytes) :
    ((hooks ids).judge m vs).2 = false ∧ ((hooks ids).judge m vs).1.hsState = m.hsState ∧
      ∀ v ∈ vs.head?, ((hooks ids).judge m vs).1.currentOpcode = v := by
  induction vs using List.reverseRecOn with
  | nil => simp
  | append_singleton vs v ih =>
    obtain ⟨hden, hst, hop⟩ := ih
    rw [Hooks.judge_append_singleton]
    generalize (hooks ids).judge m vs = x at hden hst hop
    obtain ⟨m', denied⟩ := x
    cases hden
    cases vs with
    | nil =>
      rw [List.isEmpty_nil, close_opcode]
      exact ⟨rfl, hst, by simp⟩
    | cons w vs =>
      rw [List.isEmpty_cons, close_argument]
      obtain ⟨h₁, h₂⟩ := onArgument_hsState v m'
      refine ⟨rfl, h₁.trans hst, ?_⟩
      intro u hu
      rw [h₂]
      exact hop u (by simpa using hu)

/-- The replies have no bearing on how the elements are judged. -/
theorem judge_out (m : ForgerMembers) (o : Bytes) (vs : List Bytes) :
    (hooks ids).judge { m with out := o } vs =
      ({ ((hooks ids).judge m vs).1 with out := o }, false) := by
  induction vs using List.reverseRecOn with
  | nil => rfl
  | append_singleton vs v ih =>
    have hden := (judge_eq ids m vs).1
    rw [Hooks.judge_append_singleton, Hooks.judge_append_singleton, ih]
    generalize (hooks ids).judge m vs = x at hden
    obtain ⟨m', denied⟩ := x
    cases hden
    cases vs with
    | nil => rfl
    | cons w vs =>
      rw [List.isEmpty_cons, close_argument, close_argument, onArgument_out]

theorem after_hsState (m : ForgerMembers) (i : Instruction maxElementSize) :
    ((hooks ids).after m i).hsState = advance m.hsState i := by
  obtain ⟨hden, hst, hop⟩ := judge_eq ids m (seen i.elements)
  have hopcode := hop i.opcode (by
    rw [seen_eq_map le_rfl, List.head?_map, List.head?_eq_some_head i.elements_ne_nil]
    rfl)
  rw [Hooks.after, if_neg (by simp [hden])]
  change (onInstructionEnd ids _).hsState = _
  rw [onInstructionEnd, advance, hopcode]
  split_ifs
  · rfl
  · rfl
  · exact hst

theorem afterAll_hsState (m : ForgerMembers) (is : List (Instruction maxElementSize)) :
    ((hooks ids).afterAll m is).hsState = is.foldl advance m.hsState := by
  induction is generalizing m with
  | nil => rfl
  | cons i is ih => rw [Hooks.afterAll_cons, ih, after_hsState, List.foldl_cons]

theorem stationary : (hooks ids).Stationary := fun _ _ => rfl

end Judge

/-- The forger has been fed `is` and the part of an instruction that `cur` holds. -/
structure Fed (ids : ℕ → Bytes) (is : List (Instruction maxElementSize))
    (cur : Cursor maxElementSize) (f : HandshakeForger) : Prop where
  raw : f.handshakeRaw = wire is ++ cur.bytes
  session : ∃ s, s.hsState = phase is ∧ OpcodeParser.Session (hooks ids) s cur f.parser

variable {ids : ℕ → Bytes} {is js : List (Instruction maxElementSize)}
  {cur cur' : Cursor maxElementSize} {f : HandshakeForger} {d : Bytes}

theorem fed_nil : Fed ids [] .start {} :=
  ⟨rfl, {}, rfl, OpcodeParser.tracks_start ({} : ForgerMembers), rfl⟩

theorem Fed.hsState (h : Fed ids is cur f) : f.hsState = phase is := by
  obtain ⟨-, s, hs, -, hjudge⟩ := h
  have hst := (judge_eq ids s (seen cur.closed)).2.1
  rw [hjudge] at hst
  rw [HandshakeForger.hsState, hst, hs]

/-- Feeding bytes that stay inside the grammar. -/
theorem Fed.feed (h : Fed ids is cur f) (hr : cur.read d = some (js, cur')) :
    Fed ids (is ++ js) cur' (feed ids f d).2 := by
  obtain ⟨hraw, s, hs, htr, hjudge⟩ := h
  have hsess : OpcodeParser.Session (hooks ids) { s with out := [] } cur
      { f.parser with members := { f.parser.members with out := [] } } :=
    ⟨htr, by rw [judge_out, hjudge]⟩
  refine ⟨?_, (hooks ids).afterAll { s with out := [] } js, ?_, ?_⟩
  · change f.handshakeRaw ++ d = _
    rw [hraw, List.append_assoc, Cursor.read_bytes hr, wire_append, List.append_assoc]
  · rw [afterAll_hsState, phase_append, ← hs]
  · rcases hsess.returns stationary (.inl le_rfl) hr with ⟨hcut, -⟩ | ⟨-, -, -, l, hl, hin⟩
    · rcases hcut with ⟨-, i, -, hden⟩ | hden
      · simp [Hooks.denies, (judge_eq _ _ _).1] at hden
      · simp [(judge_eq _ _ _).1] at hden
    · have hok := hin.tracks.state_ne.1
      change OpcodeParser.Session (hooks ids) _ cur' (if _ then _ else _)
      rw [if_neg hok]
      exact hin.session hl

end HandshakeForger

end GuacamoleDiode
