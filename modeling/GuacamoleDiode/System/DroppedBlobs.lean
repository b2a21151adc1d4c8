import GuacamoleDiode.Gmlbroker.ReadHandler
import GuacamoleDiode.Guard.Filter
import GuacamoleDiode.Parser.Observer

/-!
# Acks for the blobs that the guard drops

The ack faker and the parser of the guard follow the clipboard stream with code of their own:
the one observes, the other denies and skips the rest of what it has denied. They agree all the
same. The faker acks a blob if and only if the guard drops it for the size of its payload, and
both hold the same stream open after every instruction.

## Main definitions

- `GuardOpcodeParser.caps`: the guard denies the payload of an instruction
- `GuardOpcodeParser.dropped`: the streams of the blobs that the guard drops for their size
- `ClipboardAckFaker.feedAll`: the acks for all pieces of a stream
- `Alike`: what the two make of the elements of an instruction

## Main results

- `acks_eq_dropped`
-/

namespace GuacamoleDiode

open Wire

namespace GuardOpcodeParser

/-- The first argument that is denied is denied as the payload of a clipboard blob. -/
def capsArgs (m : GuardMembers) : List Bytes → Bool
  | [] => false
  | arg :: args =>
    let verdict := onArgument arg m
    if verdict.1 then capsArgs verdict.2 args else m.capNextArg

/-- An instruction is denied because the payload of a blob on the clipboard stream exceeds the
cap. -/
def caps (m : GuardMembers) : List Bytes → Bool
  | [] => false
  | opcode :: args =>
    let verdict := onInstructionBegin opcode m
    verdict.1 && capsArgs verdict.2 args

/-- An instruction that is delivered whole. The guard parses it and excises what is denied. -/
def deliver (p : OpcodeParser GuardMembers) (i : Instruction maxElementSize) :
    ParserState × OpcodeParser GuardMembers :=
  let r := p.parse hooks i.encode
  (r.1, (r.2.excise i.encode i.encode.length).2.2)

/-- The parser behind some instructions, each delivered whole. -/
def deliverAll (p : OpcodeParser GuardMembers) (is : List (Instruction maxElementSize)) :
    OpcodeParser GuardMembers :=
  is.foldl (fun p i => (deliver p i).2) p

/-- The clipboard stream of each blob that is dropped because its payload exceeds the cap. -/
def dropped : OpcodeParser GuardMembers → List (Instruction maxElementSize) → List ℤ
  | _, [] => []
  | p, i :: is =>
    let r := deliver p i
    (if r.1 = .deniedData ∧ caps p.members i.values = true then [p.members.clipboardSidx] else []) ++
      dropped r.2 is

end GuardOpcodeParser

namespace ClipboardAckFaker

/-- A faker in front of its first byte. -/
def fresh : OpcodeParser ClipboardAckMembers := { members := {} }

/-- `Feed` for each piece of a stream: all acks, and the faker. -/
def feedAll : OpcodeParser ClipboardAckMembers → List Bytes → Bytes × OpcodeParser ClipboardAckMembers
  | p, [] => ([], p)
  | p, data :: pieces =>
    let r := feed p data
    let q := feedAll r.2 pieces
    (r.1 ++ q.1, q.2)

/-- A call of `Feed` starts without acks. -/
def cleared (p : OpcodeParser ClipboardAckMembers) : OpcodeParser ClipboardAckMembers :=
  { p with members := { p.members with acks := [] } }

/-- The faker inside a call of `Feed`, once the loop of `Parse` has read `u`. -/
def reading (p : OpcodeParser ClipboardAckMembers) (u : Bytes) : OpcodeParser ClipboardAckMembers :=
  (OpcodeParser.through hooks 0 u { cleared p with deniedRanges := [] } {}).parser

end ClipboardAckFaker

-- ════════════════════════════════════════════════════════════════════════
-- The elements of one instruction
-- ════════════════════════════════════════════════════════════════════════

/-- No further argument of the instruction concerns the faker. -/
def Idle (f : ClipboardAckMembers) : Prop :=
  (1 ≤ f.currentArg ∨ f.currentOpcode ≠ ascii "clipboard" ∧ f.currentOpcode ≠ ascii "blob" ∧
    f.currentOpcode ≠ ascii "end") ∧ (2 ≤ f.currentArg ∨ f.blobOnClipboard = false)

/-- The faker and the guard inside an instruction that has not been denied. -/
structure Going (f : ClipboardAckMembers) (g : GuardMembers) : Prop where
  sidx : f.clipboardSidx = g.clipboardSidx
  opcode : f.currentOpcode = g.currentOpcode
  arg : f.currentArg = g.currentArg
  /-- behind the index of a blob on the clipboard stream comes the payload -/
  payload : g.capNextArg = (f.blobOnClipboard && f.currentArg == 1)
  blob : f.blobOnClipboard = true → f.currentOpcode = ascii "blob" ∧ f.currentArg ≠ 0

/-- The faker and the guard inside an instruction, which the guard may have denied. -/
def Alike (f : ClipboardAckMembers) (x : GuardMembers × Bool) : Prop :=
  if x.2 then f.clipboardSidx = x.1.clipboardSidx ∧ Idle f else Going f x.1

section

variable {f : ClipboardAckMembers} {g : GuardMembers}

/-- The faker has no business with the rest of a denied instruction. -/
theorem Idle.onArgument (h : Idle f) (arg : Bytes) :
    Idle (ClipboardAckFaker.onArgument arg f).2 ∧
      (ClipboardAckFaker.onArgument arg f).2.clipboardSidx = f.clipboardSidx ∧
      (ClipboardAckFaker.onArgument arg f).2.acks = f.acks := by
  obtain ⟨hindex, hpayload⟩ := h
  have hidle : Idle { f with currentArg := f.currentArg + 1 } :=
    ⟨.inl (Nat.le_add_left 1 _), hpayload.imp_left fun h => Nat.le_succ_of_le h⟩
  have hfirst : f.currentArg + 1 = 1 → ¬1 ≤ f.currentArg := by omega
  unfold ClipboardAckFaker.onArgument
  dsimp only
  split_ifs with hone hclipboard hblob hend hsecond
  · exact absurd hclipboard (hindex.resolve_left (hfirst hone)).1
  · exact absurd hblob (hindex.resolve_left (hfirst hone)).2.1
  · exact absurd hend.1 (hindex.resolve_left (hfirst hone)).2.2
  · exact ⟨hidle, rfl, rfl⟩
  · have hnot := hpayload.resolve_left (by omega)
    rw [hnot] at hsecond
    cases hsecond.2.1
  · exact ⟨hidle, rfl, rfl⟩

/-- What the guard denies as a payload is acked. -/
def ackFor (g : GuardMembers) (capped : Bool) : Bytes :=
  if capped then ClipboardAckFaker.makeAck g.clipboardSidx else []

/-- The payload of a blob on the clipboard stream. -/
theorem Going.onPayload (h : Going f g) (hcap : g.capNextArg = true) (arg : Bytes) :
    Alike (ClipboardAckFaker.onArgument arg f).2
        ((GuardOpcodeParser.onArgument arg g).2, !(GuardOpcodeParser.onArgument arg g).1) ∧
      (ClipboardAckFaker.onArgument arg f).2.acks =
        f.acks ++ ackFor g (!(GuardOpcodeParser.onArgument arg g).1) := by
  have hpayload := h.payload
  rw [hcap] at hpayload
  obtain ⟨hblob, hone⟩ := Bool.and_eq_true_iff.mp hpayload.symm
  have harg : f.currentArg = 1 := by simpa using hone
  rw [GuardOpcodeParser.onArgument_payload hcap]
  by_cases hlong : arg.length ≤ maxClipboardBytes
  · have hfaker : (ClipboardAckFaker.onArgument arg f).2 = { f with currentArg := 2 } := by
      simp [ClipboardAckFaker.onArgument, harg, Nat.not_lt.mpr hlong]
    rw [hfaker]
    simp only [hlong, decide_true, Bool.not_true]
    refine ⟨⟨h.sidx, h.opcode, ?_, ?_, fun hb => ⟨(h.blob hb).1, by simp⟩⟩, (List.append_nil _).symm⟩
    · show 2 = g.currentArg + 1
      rw [← h.arg, harg]
    · simp
  · have hfaker : (ClipboardAckFaker.onArgument arg f).2 =
        { f with currentArg := 2, acks := f.acks ++ ClipboardAckFaker.makeAck f.clipboardSidx } := by
      simp [ClipboardAckFaker.onArgument, harg, hblob, Nat.lt_of_not_le hlong]
    rw [hfaker]
    simp only [hlong, decide_false, Bool.not_false]
    refine ⟨⟨h.sidx, .inl (by simp), .inl (by simp)⟩, ?_⟩
    rw [h.sidx]
    rfl

/-- An argument behind the first that is no payload. -/
theorem Going.onLater (h : Going f g) (hcap : g.capNextArg = false) (hlater : g.currentArg ≠ 0)
    (arg : Bytes) :
    Alike (ClipboardAckFaker.onArgument arg f).2
        ((GuardOpcodeParser.onArgument arg g).2, !(GuardOpcodeParser.onArgument arg g).1) ∧
      (ClipboardAckFaker.onArgument arg f).2.acks = f.acks := by
  have hpayload := h.payload
  rw [hcap] at hpayload
  have hne : f.currentArg ≠ 0 := h.arg ▸ hlater
  have hfaker : (ClipboardAckFaker.onArgument arg f).2 = { f with currentArg := f.currentArg + 1 } := by
    have hsecond : ¬(f.currentArg + 1 = 2 ∧ f.blobOnClipboard = true ∧
        maxClipboardBytes < arg.length) := by
      rintro ⟨htwo, hblob, -⟩
      have hone : f.currentArg = 1 := by omega
      simp [hone, hblob] at hpayload
    simp only [ClipboardAckFaker.onArgument, Nat.add_eq_right, hne, if_false, hsecond]
  rw [hfaker, GuardOpcodeParser.onArgument_free hcap hlater]
  refine ⟨⟨h.sidx, h.opcode, congrArg (· + 1) h.arg, ?_, fun hb => ⟨(h.blob hb).1, by simp⟩⟩, rfl⟩
  have hbehind : (f.currentArg + 1 == 1) = false := by simpa using hne
  show g.capNextArg = (f.blobOnClipboard && f.currentArg + 1 == 1)
  rw [hcap, hbehind, Bool.and_false]

theorem onArgument_first (hfirst : f.currentArg = 0) (arg : Bytes) :
    (ClipboardAckFaker.onArgument arg f).2 =
      if f.currentOpcode = ascii "clipboard" then
        { f with currentArg := 1, clipboardSidx := parseStreamIndex arg }
      else if f.currentOpcode = ascii "blob" then
        { f with
          currentArg := 1
          blobOnClipboard := 0 ≤ parseStreamIndex arg && parseStreamIndex arg == f.clipboardSidx }
      else if f.currentOpcode = ascii "end" ∧ parseStreamIndex arg = f.clipboardSidx then
        { f with currentArg := 1, clipboardSidx := -1 }
      else { f with currentArg := 1 } := by
  rw [ClipboardAckFaker.onArgument]
  dsimp only
  rw [hfirst, if_pos rfl]
  rfl

/-- The first argument. -/
theorem Going.onFirst (h : Going f g) (hcap : g.capNextArg = false) (hfirst : g.currentArg = 0)
    (arg : Bytes) :
    Alike (ClipboardAckFaker.onArgument arg f).2
        ((GuardOpcodeParser.onArgument arg g).2, !(GuardOpcodeParser.onArgument arg g).1) ∧
      (ClipboardAckFaker.onArgument arg f).2.acks = f.acks := by
  have hzero : f.currentArg = 0 := h.arg.trans hfirst
  have hblob : f.blobOnClipboard = false := by
    cases hb : f.blobOnClipboard with
    | false => rfl
    | true => exact absurd hzero (h.blob hb).2
  rw [onArgument_first hzero, GuardOpcodeParser.onArgument_first hcap hfirst, ← h.opcode, ← h.sidx]
  by_cases hclipboard : f.currentOpcode = ascii "clipboard"
  · rw [if_pos hclipboard, if_pos hclipboard]
    exact ⟨⟨rfl, rfl, rfl, by simp [hcap, hblob], by simp [hblob]⟩, rfl⟩
  rw [if_neg hclipboard, if_neg hclipboard]
  by_cases hopcode : f.currentOpcode = ascii "blob"
  · rw [if_pos hopcode, if_pos hopcode]
    by_cases hother : parseStreamIndex arg < 0 ∨ parseStreamIndex arg ≠ f.clipboardSidx
    · -- a blob on another stream
      have hidle : (0 ≤ parseStreamIndex arg && parseStreamIndex arg == f.clipboardSidx) = false := by
        rw [Bool.and_eq_false_iff]
        rcases hother with hneg | hne
        · exact .inl (by simpa using hneg)
        · exact .inr (by simpa using hne)
      rw [if_pos hother, hidle]
      exact ⟨⟨rfl, .inl le_rfl, .inr rfl⟩, rfl⟩
    · have hpayload : (0 ≤ parseStreamIndex arg && parseStreamIndex arg == f.clipboardSidx) = true := by
        simpa using hother
      rw [if_neg hother, hpayload]
      exact ⟨⟨rfl, rfl, rfl, rfl, fun _ => ⟨hopcode, by simp⟩⟩, rfl⟩
  rw [if_neg hopcode, if_neg hopcode]
  by_cases hend : f.currentOpcode = ascii "end" ∧ parseStreamIndex arg = f.clipboardSidx
  · rw [if_pos hend, if_pos hend]
    exact ⟨⟨rfl, rfl, rfl, by simp [hcap, hblob], by simp [hblob]⟩, rfl⟩
  · rw [if_neg hend, if_neg hend]
    exact ⟨⟨rfl, rfl, rfl, by simp [hcap, hblob], by simp [hblob]⟩, rfl⟩

/-- One argument. The faker acks it if and only if the guard denies it as a payload. -/
theorem Going.onArgument (h : Going f g) (arg : Bytes) :
    Alike (ClipboardAckFaker.onArgument arg f).2
        ((GuardOpcodeParser.onArgument arg g).2, !(GuardOpcodeParser.onArgument arg g).1) ∧
      (ClipboardAckFaker.onArgument arg f).2.acks =
        f.acks ++ ackFor g (!(GuardOpcodeParser.onArgument arg g).1 && g.capNextArg) := by
  cases hcap : g.capNextArg with
  | true =>
    rw [Bool.and_true]
    exact h.onPayload hcap arg
  | false =>
    have hnone : f.acks ++ ackFor g (!(GuardOpcodeParser.onArgument arg g).1 && false) = f.acks := by
      rw [Bool.and_false]
      exact List.append_nil _
    rw [hnone]
    by_cases hfirst : g.currentArg = 0
    · exact h.onFirst hcap hfirst arg
    · exact h.onLater hcap hfirst arg

end

namespace GuardOpcodeParser

theorem currentArg_onArgument (arg : Bytes) (m : GuardMembers) :
    (onArgument arg m).2.currentArg = m.currentArg + 1 := by
  unfold onArgument
  dsimp only
  split_ifs <;> rfl

/-- The index that announces a payload leaves the stream open. -/
theorem clipboardSidx_of_capNextArg {arg : Bytes} {m : GuardMembers}
    (h : (onArgument arg m).2.capNextArg = true) :
    (onArgument arg m).2.clipboardSidx = m.clipboardSidx := by
  unfold onArgument at h ⊢
  dsimp only at h ⊢
  split_ifs at h ⊢ <;> first | rfl | exact absurd h (by assumption)

/-- Behind the first argument, only a payload can be denied. -/
theorem capNextArg_of_capsArgs {m : GuardMembers} (hlater : m.currentArg ≠ 0) {args : List Bytes}
    (h : capsArgs m args = true) : m.capNextArg = true := by
  induction args generalizing m with
  | nil => cases h
  | cons arg args ih =>
    cases hcap : m.capNextArg with
    | true => rfl
    | false =>
      rw [capsArgs, onArgument_free hcap hlater] at h
      have hnext := ih (m := { m with currentArg := m.currentArg + 1 }) (Nat.succ_ne_zero _) h
      exact hcap.symm.trans hnext

/-- What is denied so is the payload of a `blob` that names the open clipboard stream. -/
theorem caps_iff {m : GuardMembers} {vs : List Bytes} : caps m vs = true ↔
    ∃ index payload args, vs = ascii "blob" :: index :: payload :: args ∧
      0 ≤ m.clipboardSidx ∧ parseStreamIndex index = m.clipboardSidx ∧
      maxClipboardBytes < payload.length := by
  match vs with
  | [] => simp [caps]
  | [_] => simp [caps, capsArgs]
  | opcode :: index :: args =>
    let m₀ : GuardMembers := { m with currentOpcode := opcode, currentArg := 0, capNextArg := false }
    have hcaps : caps m (opcode :: index :: args) =
        (isAllowedOpcode opcode && capsArgs m₀ (index :: args)) := rfl
    have hfirst := onArgument_first (m := m₀) rfl rfl index
    rw [hcaps, capsArgs, hfirst]
    by_cases hblob : opcode = ascii "blob"
    · subst hblob
      have hallowed : isAllowedOpcode (ascii "blob") = true := by decide
      have hopcode : ascii "blob" ≠ ascii "clipboard" := by decide
      rw [hallowed, Bool.true_and, if_neg hopcode, if_pos rfl]
      by_cases hother : parseStreamIndex index < 0 ∨ parseStreamIndex index ≠ m.clipboardSidx
      · rw [if_pos hother]
        refine iff_of_false (by simp [m₀]) ?_
        rintro ⟨_, _, _, heq, hopen, hindex, -⟩
        cases heq
        omega
      · rw [if_neg hother]
        cases args with
        | nil => simp [capsArgs]
        | cons payload args =>
          have hfree : capsArgs { m₀ with currentArg := 2 } args = true → m₀.capNextArg = true :=
            capNextArg_of_capsArgs (m := { m₀ with currentArg := 2 }) (by simp)
          simp only [capsArgs, onArgument_payload, if_true]
          by_cases hlong : payload.length ≤ maxClipboardBytes
          · rw [if_pos (by simpa using hlong)]
            refine iff_of_false (fun h => Bool.false_ne_true (hfree h)) ?_
            rintro ⟨_, _, _, heq, -, -, hexceeds⟩
            cases heq
            omega
          · rw [if_neg (by simpa using hlong)]
            exact iff_of_true rfl ⟨index, payload, args, rfl, by omega, by omega, by omega⟩
    · refine iff_of_false (fun h => ?_) ?_
      · obtain ⟨-, hargs⟩ := Bool.and_eq_true_iff.mp h
        rw [if_neg hblob] at hargs
        split_ifs at hargs
        all_goals exact Bool.false_ne_true (capNextArg_of_capsArgs (by simp) hargs)
      · rintro ⟨_, _, _, heq, -⟩
        cases heq
        exact hblob rfl

end GuardOpcodeParser

section

variable {f : ClipboardAckMembers} {x : GuardMembers × Bool}

/-- The arguments of an instruction, as the hooks of a parser class see them. -/
def closeArgs {σ : Type} (H : Hooks σ) (x : σ × Bool) (args : List Bytes) : σ × Bool :=
  args.foldl (fun x v => H.close false v x) x

theorem Alike.args (h : Alike f x) (args : List Bytes) :
    Alike (closeArgs ClipboardAckFaker.hooks (f, false) args).1 (closeArgs GuardOpcodeParser.hooks x args) ∧
      (closeArgs ClipboardAckFaker.hooks (f, false) args).1.acks =
        f.acks ++ ackFor x.1 (!x.2 && GuardOpcodeParser.capsArgs x.1 args) := by
  induction args generalizing f x with
  | nil =>
    refine ⟨h, ?_⟩
    rw [GuardOpcodeParser.capsArgs, Bool.and_false]
    exact (List.append_nil _).symm
  | cons arg args ih =>
    obtain ⟨g, denied⟩ := x
    have hfaker : closeArgs ClipboardAckFaker.hooks (f, false) (arg :: args) =
        closeArgs ClipboardAckFaker.hooks
          ((ClipboardAckFaker.onArgument arg f).2, false) args := rfl
    cases denied with
    | true =>
      obtain ⟨hsidx, hidle⟩ := h
      obtain ⟨hidle', hsidx', hacks⟩ := hidle.onArgument arg
      have halike : Alike (ClipboardAckFaker.onArgument arg f).2 (g, true) :=
        ⟨hsidx'.trans hsidx, hidle'⟩
      obtain ⟨hrest, hacks'⟩ := ih halike
      rw [hfaker]
      exact ⟨hrest, hacks'.trans (congrArg (· ++ []) hacks)⟩
    | false =>
      have hgoing : Going f g := h
      obtain ⟨halike, hacks⟩ := hgoing.onArgument arg
      obtain ⟨hrest, hacks'⟩ := ih halike
      rw [hfaker]
      refine ⟨hrest, ?_⟩
      rw [hacks', hacks, GuardOpcodeParser.capsArgs]
      dsimp only
      cases hverdict : (GuardOpcodeParser.onArgument arg g).1 with
      | false => simp [ackFor]
      | true =>
        -- the stream of a payload is the one that was open before
        have hsidx : GuardOpcodeParser.capsArgs (GuardOpcodeParser.onArgument arg g).2 args = true →
            (GuardOpcodeParser.onArgument arg g).2.clipboardSidx = g.clipboardSidx := by
          intro hcaps
          refine GuardOpcodeParser.clipboardSidx_of_capNextArg
            (GuardOpcodeParser.capNextArg_of_capsArgs ?_ hcaps)
          rw [GuardOpcodeParser.currentArg_onArgument]
          exact Nat.succ_ne_zero _
        cases hcaps : GuardOpcodeParser.capsArgs (GuardOpcodeParser.onArgument arg g).2 args with
        | false => simp [ackFor]
        | true => simp [ackFor, hsidx hcaps]

/-- The elements of an instruction leave the same stream open. The faker acks it if and only if
the guard denies its payload. -/
theorem judge_alike {g : GuardMembers} (h : f.clipboardSidx = g.clipboardSidx) (vs : List Bytes) :
    (ClipboardAckFaker.hooks.judge f vs).1.clipboardSidx =
        (GuardOpcodeParser.hooks.judge g vs).1.clipboardSidx ∧
      (ClipboardAckFaker.hooks.judge f vs).1.acks = f.acks ++ ackFor g (GuardOpcodeParser.caps g vs) := by
  match vs with
  | [] => exact ⟨h, (List.append_nil _).symm⟩
  | opcode :: args =>
    let f₀ : ClipboardAckMembers :=
      { f with currentOpcode := opcode, currentArg := 0, blobOnClipboard := false }
    let g₀ : GuardMembers := { g with currentOpcode := opcode, currentArg := 0, capNextArg := false }
    have halike : Alike f₀ (g₀, !GuardOpcodeParser.isAllowedOpcode opcode) := by
      cases hallowed : GuardOpcodeParser.isAllowedOpcode opcode with
      | true => exact ⟨h, rfl, rfl, rfl, nofun⟩
      | false =>
        -- the opcodes that concern the faker are allowed
        have hother : ∀ v, GuardOpcodeParser.isAllowedOpcode v = true → opcode ≠ v := by
          rintro v hv rfl
          rw [hv] at hallowed
          cases hallowed
        exact ⟨h, .inr ⟨hother _ (by decide), hother _ (by decide), hother _ (by decide)⟩, .inr rfl⟩
    obtain ⟨hrest, hacks⟩ := halike.args args
    refine ⟨?_, ?_⟩
    · show (closeArgs ClipboardAckFaker.hooks (f₀, false) args).1.clipboardSidx =
        (closeArgs GuardOpcodeParser.hooks (g₀, _) args).1.clipboardSidx
      unfold Alike at hrest
      split at hrest
      · exact hrest.1
      · exact hrest.sidx
    · show (closeArgs ClipboardAckFaker.hooks (f₀, false) args).1.acks = _
      rw [hacks, Bool.not_not]
      rfl

end

-- ════════════════════════════════════════════════════════════════════════
-- Sequences of instructions
-- ════════════════════════════════════════════════════════════════════════

namespace GuardOpcodeParser

/-- A denial as a payload is a denial. -/
theorem denied_of_capsArgs {m : GuardMembers} {args : List Bytes} (h : capsArgs m args = true) :
    (closeArgs hooks (m, false) args).2 = true := by
  induction args generalizing m with
  | nil => cases h
  | cons arg args ih =>
    have hstep : closeArgs hooks (m, false) (arg :: args) =
        closeArgs hooks ((onArgument arg m).2, !(onArgument arg m).1) args := rfl
    rw [hstep]
    rw [capsArgs] at h
    cases hverdict : (onArgument arg m).1 with
    | false =>
      rw [Bool.not_false, closeArgs, foldl_denied]
    | true =>
      rw [hverdict] at h
      exact ih h

theorem denies_of_caps {m : GuardMembers} {i : Instruction maxElementSize}
    (h : caps m i.values = true) : hooks.denies m i = true := by
  obtain ⟨args, hvalues⟩ := i.values_eq_cons
  rw [hvalues, caps, Bool.and_eq_true] at h
  obtain ⟨hopcode, hargs⟩ := h
  have hallowed : isAllowedOpcode i.opcode = true := hopcode
  rw [Hooks.denies, seen_eq_map le_rfl, ← Instruction.values, hvalues]
  show (closeArgs hooks (_, !isAllowedOpcode i.opcode) args).2 = true
  rw [hallowed]
  exact denied_of_capsArgs hargs

/-- An instruction that is delivered whole. -/
theorem deliver_spec {g : GuardMembers} {p : OpcodeParser GuardMembers}
    (h : OpcodeParser.Session hooks g (.start : Cursor maxElementSize) p)
    (i : Instruction maxElementSize) :
    (hooks.denies g i = true → (deliver p i).1 = .deniedData) ∧
      OpcodeParser.Session hooks (hooks.after g i) (.start : Cursor maxElementSize) (deliver p i).2 := by
  rcases h.returns stationary (.inl le_rfl) (Cursor.read_encode i) with
    ⟨hcut, -⟩ | ⟨-, -, hdenied, l, hl, hcall⟩
  · rcases hcut with ⟨hne, -⟩ | hcut
    · exact absurd Cursor.bytes_start hne
    · cases hcut
  · refine ⟨fun hdenies => hdenied.mpr fun hnil => ?_, (hcall.excise hl).session⟩
    have hkept := hcall.kept
    rw [hnil, Ranges.remove_nil] at hkept
    simp [Hooks.survivors, hdenies, i.encode_ne_nil] at hkept

end GuardOpcodeParser

/-- The faker and the guard agree on a sequence of instructions, each of which the guard is
given whole. -/
theorem afterAll_alike {f : ClipboardAckMembers} {g : GuardMembers} {p : OpcodeParser GuardMembers}
    (h : OpcodeParser.Session GuardOpcodeParser.hooks g (.start : Cursor maxElementSize) p)
    (hsidx : f.clipboardSidx = g.clipboardSidx) (is : List (Instruction maxElementSize)) :
    (ClipboardAckFaker.hooks.afterAll f is).acks =
        f.acks ++ (GuardOpcodeParser.dropped p is).flatMap ClipboardAckFaker.makeAck ∧
      (ClipboardAckFaker.hooks.afterAll f is).clipboardSidx =
        (GuardOpcodeParser.deliverAll p is).members.clipboardSidx := by
  have hmembers : p.members = g := (congrArg Prod.fst h.judged).symm
  induction is generalizing f g p with
  | nil =>
    subst hmembers
    exact ⟨(List.append_nil _).symm, hsidx⟩
  | cons i is ih =>
    obtain ⟨hdenied, hnext⟩ := GuardOpcodeParser.deliver_spec h i
    have hjudge := judge_alike hsidx (seen i.elements)
    have hfaker : ClipboardAckFaker.hooks.after f i =
        (ClipboardAckFaker.hooks.judge f (seen i.elements)).1 := by
      unfold Hooks.after
      dsimp only
      split_ifs <;> rfl
    have hguard : GuardOpcodeParser.hooks.after g i =
        (GuardOpcodeParser.hooks.judge g (seen i.elements)).1 := by
      unfold Hooks.after
      dsimp only
      split_ifs <;> rfl
    rw [← hfaker, ← hguard] at hjudge
    obtain ⟨hsidx', hacks⟩ := hjudge
    obtain ⟨hrest, hrest'⟩ := ih hnext hsidx' (congrArg Prod.fst hnext.judged).symm
    refine ⟨?_, hrest'⟩
    rw [Hooks.afterAll_cons, hrest, hacks, seen_eq_map le_rfl, GuardOpcodeParser.dropped, hmembers,
      List.flatMap_append, List.append_assoc]
    congr 2
    show ackFor g (GuardOpcodeParser.caps g i.values) = _
    cases hcaps : GuardOpcodeParser.caps g i.values with
    | true =>
      rw [if_pos ⟨hdenied (GuardOpcodeParser.denies_of_caps hcaps), rfl⟩]
      exact (List.append_nil _).symm
    | false =>
      rw [if_neg fun h => Bool.false_ne_true h.2]
      rfl

-- ════════════════════════════════════════════════════════════════════════
-- A stream in pieces
-- ════════════════════════════════════════════════════════════════════════

namespace ClipboardAckFaker

/-- The members of a faker that has not handed out its earlier acks. -/
def withAcks (acks : Bytes) (m : ClipboardAckMembers) : ClipboardAckMembers :=
  { m with acks := acks ++ m.acks }

/-- Acks that have been handed out do not concern the hooks. -/
theorem withAcks_morphism (acks : Bytes) : hooks.Morphism hooks (withAcks acks) where
  onInstructionBegin _ _ := rfl
  onArgument v m := by
    simp only [hooks, onArgument, withAcks]
    refine Prod.ext rfl ?_
    dsimp only
    split_ifs <;> simp
  onInstructionEnd _ _ := rfl
  tolerates := rfl

/-- The faker denies nothing. -/
theorem observes : hooks.Observes where
  allows_opcode _ _ := rfl
  allows_argument _ _ := rfl
  stationary _ _ := rfl

/-- The faker between two calls. It has handed out `acks`, has seen the whole instructions `is`
and stands inside `cur`. -/
def Watches (acks : Bytes) (is : List (Instruction maxElementSize)) (cur : Cursor maxElementSize)
    (p : OpcodeParser ClipboardAckMembers) : Prop :=
  OpcodeParser.Session hooks (hooks.afterAll {} is) cur ((cleared p).map (withAcks acks))

section

variable {acks data : Bytes} {is is' : List (Instruction maxElementSize)}
  {cur cur' : Cursor maxElementSize} {p : OpcodeParser ClipboardAckMembers}

theorem watches_fresh : Watches [] [] .start fresh :=
  ⟨OpcodeParser.tracks_start ({} : ClipboardAckMembers), rfl⟩

/-- One call of `Parse` on a stream that stays inside the grammar. -/
theorem Watches.parse (h : Watches acks is cur p) (hr : cur.read data = some (is', cur')) :
    ((cleared p).parse hooks data).1 ≠ .streamCorrupted ∧
      OpcodeParser.Session hooks (hooks.afterAll {} (is ++ is')) cur'
        (((cleared p).parse hooks data).2.map (withAcks acks)) := by
  have haccepts := OpcodeParser.Session.accepts h observes (.inl le_rfl) hr
  rw [(withAcks_morphism acks).parse] at haccepts
  rw [Hooks.afterAll_append]
  exact haccepts

/-- One call of `Feed`. Nothing makes it start over. -/
theorem Watches.feed (h : Watches acks is cur p) (hr : cur.read data = some (is', cur')) :
    Watches (acks ++ (feed p data).1) (is ++ is') cur' (feed p data).2 := by
  have hpending : ∀ q : OpcodeParser ClipboardAckMembers,
      (cleared q).map (withAcks (acks ++ q.members.acks)) = q.map (withAcks acks) := by
    intro q
    simp only [cleared, OpcodeParser.map, withAcks, List.append_nil]
  suffices hsession : OpcodeParser.Session hooks (hooks.afterAll {} (is ++ is')) cur'
      ((ClipboardAckFaker.feed p data).2.map (withAcks acks)) by
    unfold Watches
    have hacks : (ClipboardAckFaker.feed p data).1 = (ClipboardAckFaker.feed p data).2.members.acks := rfl
    rw [hacks, hpending]
    exact hsession
  have hfeed : (ClipboardAckFaker.feed p data).2 = (cleared p).resync hooks data.length data := rfl
  rw [hfeed]
  cases data with
  | nil =>
    cases hr
    rw [List.append_nil]
    exact h
  | cons c data =>
    obtain ⟨hstate, hsession⟩ := h.parse hr
    rw [List.length_cons, OpcodeParser.resync, if_neg (List.cons_ne_nil c data)]
    dsimp only
    rw [if_neg hstate]
    exact hsession

theorem Watches.feedAll {pieces : List Bytes} (h : Watches acks is cur p)
    (hr : cur.read pieces.flatten = some (is', cur')) :
    Watches (acks ++ (feedAll p pieces).1) (is ++ is') cur' (feedAll p pieces).2 := by
  induction pieces generalizing acks is cur p is' with
  | nil =>
    cases hr
    rw [ClipboardAckFaker.feedAll, List.append_nil, List.append_nil]
    exact h
  | cons data pieces ih =>
    obtain ⟨⟨is₁, cur₁⟩, hr₁⟩ := Cursor.exists_read_of_read_append hr
    rw [List.flatten_cons, Cursor.read_append_of_eq_some hr₁, Option.map_eq_some_iff] at hr
    obtain ⟨⟨is₂, cur₂⟩, hr₂, heq⟩ := hr
    cases heq
    have hrest := ih (h.feed hr₁) hr₂
    rw [List.append_assoc, List.append_assoc] at hrest
    exact hrest

/-- The members in the middle of a call. -/
theorem Watches.reading (h : Watches acks is cur p) (hr : cur.read data = some (is', .start)) :
    (reading p data).members.clipboardSidx = (hooks.afterAll {} (is ++ is')).clipboardSidx := by
  have hjudged := (h.parse hr).2.judged
  have hmembers : hooks.afterAll {} (is ++ is') =
      withAcks acks ((cleared p).parse hooks data).2.members := congrArg Prod.fst hjudged
  rw [hmembers, ClipboardAckFaker.reading, OpcodeParser.members_through]
  rfl

end

end ClipboardAckFaker

/-- However a sequence of instructions is cut into pieces, the faker acks just the blobs that
the guard drops because their payload exceeds the cap, in order. Behind every instruction, also
in the middle of a piece, both hold the same clipboard stream open. -/
theorem acks_eq_dropped (is : List (Instruction maxElementSize)) (pieces : List Bytes)
    (h : pieces.flatten = wire is) :
    (ClipboardAckFaker.feedAll ClipboardAckFaker.fresh pieces).1 =
        (GuardOpcodeParser.dropped GuardOpcodeParser.fresh is).flatMap ClipboardAckFaker.makeAck ∧
      ∀ before after pre u v post, is = before ++ after → pieces = pre ++ (u ++ v) :: post →
        pre.flatten ++ u = wire before →
        (ClipboardAckFaker.reading (ClipboardAckFaker.feedAll ClipboardAckFaker.fresh pre).2 u
          ).members.clipboardSidx =
        (GuardOpcodeParser.deliverAll GuardOpcodeParser.fresh before).members.clipboardSidx := by
  have hguard := afterAll_alike (f := {}) GuardOpcodeParser.session_fresh rfl
  constructor
  · have hr : (Cursor.start : Cursor maxElementSize).read pieces.flatten = some (is, .start) := by
      rw [h, Cursor.read_wire]
    have hwatches := ClipboardAckFaker.watches_fresh.feedAll hr
    have hacks := congrArg (fun x => x.1.acks) hwatches.judged
    rw [List.nil_append, List.nil_append] at hacks
    have hfaker : (ClipboardAckFaker.hooks.afterAll {} is).acks =
        (ClipboardAckFaker.feedAll ClipboardAckFaker.fresh pieces).1 :=
      hacks.trans (List.append_nil _)
    rw [← hfaker, (hguard is).1]
    rfl
  · intro before after pre u v post _ _ hbefore
    have hr : (Cursor.start : Cursor maxElementSize).read (pre.flatten ++ u) = some (before, .start) := by
      rw [hbefore, Cursor.read_wire]
    obtain ⟨⟨is₁, cur₁⟩, hr₁⟩ := Cursor.exists_read_of_read_append hr
    rw [Cursor.read_append_of_eq_some hr₁, Option.map_eq_some_iff] at hr
    obtain ⟨⟨is₂, cur₂⟩, hr₂, heq⟩ := hr
    cases heq
    have hreading := (ClipboardAckFaker.watches_fresh.feedAll hr₁).reading hr₂
    rw [List.nil_append] at hreading
    rw [hreading]
    exact (hguard (is₁ ++ is₂)).2

/-- A paste of 67 characters that arrives in two pieces is acked once, on stream 0. -/
theorem acks_eq_dropped_paste :
    let pieces := [(wire GuardOpcodeParser.paste).take 40, (wire GuardOpcodeParser.paste).drop 40]
    pieces.flatten = wire GuardOpcodeParser.paste ∧
      (ClipboardAckFaker.feedAll ClipboardAckFaker.fresh pieces).1 =
        (GuardOpcodeParser.dropped GuardOpcodeParser.fresh GuardOpcodeParser.paste).flatMap
          ClipboardAckFaker.makeAck ∧
      GuardOpcodeParser.dropped GuardOpcodeParser.fresh GuardOpcodeParser.paste = [0] := by
  have hpieces : [(wire GuardOpcodeParser.paste).take 40,
      (wire GuardOpcodeParser.paste).drop 40].flatten = wire GuardOpcodeParser.paste := by simp
  exact ⟨hpieces, (acks_eq_dropped GuardOpcodeParser.paste _ hpieces).1, by decide +kernel⟩

end GuacamoleDiode
