import GuacamoleDiode.Gcdbroker.SyncFaker
import GuacamoleDiode.Parser.Observer

/-!
# What the sync faker echoes

The faker reads the output of guacd piece by piece. Its replies depend on the bytes alone and
not on how they are cut, also where the output breaks the grammar of the framer. On a sequence
of instructions they are the echoes of the syncs.

## Main definitions

- `SyncFaker.feedAll`: the replies to all pieces of a stream
- `SyncFaker.replies`: the replies to a stream of bytes
- `SyncFaker.echoOf`: the reply to one instruction

## Main results

- `SyncFaker.echoes_exact`
-/

namespace GuacamoleDiode

open Wire

namespace SyncFaker

/-- `Feed` for each piece of a stream: all replies, and the faker. -/
def feedAll : OpcodeParser SyncMembers → List Bytes → Bytes × OpcodeParser SyncMembers
  | p, [] => ([], p)
  | p, data :: pieces =>
    let r := feed p data
    let q := feedAll r.2 pieces
    (r.1 ++ q.1, q.2)

/-- A call of `Feed` starts without replies. -/
def cleared (p : OpcodeParser SyncMembers) : OpcodeParser SyncMembers :=
  { p with members := { p.members with echoes := [] } }

/-- The faker behind some more bytes, with the replies to all of them. -/
def reading (p : OpcodeParser SyncMembers) (w : Bytes) : OpcodeParser SyncMembers :=
  w.foldl (OpcodeParser.absorb hooks) (cleared p).settled

/-- The replies to a stream of bytes. -/
def replies (p : OpcodeParser SyncMembers) (w : Bytes) : Bytes := (reading p w).members.echoes

/-- The reply to an instruction: the echo of a sync that has a timestamp. -/
def echoOf {limit : ℕ} (i : Instruction limit) : Bytes :=
  let ts := (i.values.getD 1 []).take maxElementSize
  if i.opcode = ascii "sync" ∧ ts ≠ [] then echo ts else []

/-- Earlier replies in front of those of the current call. -/
def withEchoes (echoes : Bytes) (m : SyncMembers) : SyncMembers :=
  { m with echoes := echoes ++ m.echoes }

theorem observes : hooks.Observes where
  allows_opcode _ _ := rfl
  allows_argument _ _ := rfl
  stationary _ _ := rfl

theorem withEchoes_morphism (echoes : Bytes) : hooks.Morphism hooks (withEchoes echoes) where
  onInstructionBegin _ _ := rfl
  onArgument v m := by
    simp only [hooks, onArgument, withEchoes]
    split_ifs <;> rfl
  onInstructionEnd _ m := by
    simp only [hooks, onInstructionEnd, withEchoes]
    split_ifs
    · rw [List.append_assoc]
    · rfl
  tolerates := rfl

section

variable {p : OpcodeParser SyncMembers}

/-- One call of `Feed` absorbs its piece. -/
theorem feed_eq (hp : p.Live) (data : Bytes) :
    (feed p data).2.Live ∧ (feed p data).2.settled = reading p data ∧
      (feed p data).1 = replies p data := by
  have hcleared : (cleared p).Live := hp
  obtain ⟨hlive, hfold⟩ := OpcodeParser.resync_eq_foldl observes hcleared (le_refl data.length)
  exact ⟨hlive, hfold, congrArg (fun q => q.members.echoes) hfold⟩

theorem settled_reading (p : OpcodeParser SyncMembers) (w : Bytes) :
    (reading p w).settled = reading p w := by
  cases w using List.reverseRecOn with
  | nil => rfl
  | append_singleton w c =>
    rw [reading, List.foldl_append, List.foldl_cons, List.foldl_nil, OpcodeParser.absorb]
    cases OpcodeParser.turn hooks 0 c _ {} <;> rfl

/-- The replies so far come in front of those that follow. -/
theorem reading_append (p : OpcodeParser SyncMembers) (u w : Bytes) :
    reading p (u ++ w) = (reading (reading p u) w).map (withEchoes (replies p u)) := by
  have hcleared : (cleared (reading p u)).settled.map (withEchoes (replies p u)) =
      (reading p u).settled := by
    simp [cleared, OpcodeParser.map, withEchoes, replies]
  calc reading p (u ++ w)
      = w.foldl (OpcodeParser.absorb hooks) (reading p u) := List.foldl_append
    _ = w.foldl (OpcodeParser.absorb hooks)
          ((cleared (reading p u)).settled.map (withEchoes (replies p u))) := by
        rw [hcleared, settled_reading]
    _ = (reading (reading p u) w).map (withEchoes (replies p u)) :=
        OpcodeParser.map_foldl_absorb (withEchoes_morphism _) _ w

theorem replies_append (p : OpcodeParser SyncMembers) (u w : Bytes) :
    replies p (u ++ w) = replies p u ++ replies (reading p u) w :=
  congrArg (fun q => q.members.echoes) (reading_append p u w)

/-- What has been replied is of no importance for what follows. -/
theorem reading_congr {q q' : OpcodeParser SyncMembers} (h : (cleared q).settled = (cleared q').settled)
    (w : Bytes) : reading q w = reading q' w := by
  rw [reading, reading, h]

/-- All calls of `Feed` together absorb the stream, wherever it is cut. -/
theorem feedAll_eq (hp : p.Live) (pieces : List Bytes) :
    (feedAll p pieces).1 = replies p pieces.flatten ∧ (feedAll p pieces).2.Live ∧
      (cleared (feedAll p pieces).2).settled = (cleared (reading p pieces.flatten)).settled := by
  induction pieces generalizing p with
  | nil => exact ⟨rfl, hp, rfl⟩
  | cons data pieces ih =>
    obtain ⟨hlive, hsettled, hreplies⟩ := feed_eq hp data
    obtain ⟨hrest, hlive', hsettled'⟩ := ih hlive
    have hcleared : (cleared (feed p data).2).settled = (cleared (reading p data)).settled := by
      show cleared (feed p data).2.settled = cleared (reading p data).settled
      rw [hsettled, settled_reading]
    have hreading := reading_congr hcleared pieces.flatten
    rw [List.flatten_cons, feedAll]
    refine ⟨?_, hlive', ?_⟩
    · dsimp only
      rw [hreplies, hrest, replies_append, replies, replies, replies, hreading]
    · rw [reading_append, hsettled', hreading]
      rfl

end

-- ════════════════════════════════════════════════════════════════════════
-- Streams inside the grammar
-- ════════════════════════════════════════════════════════════════════════

section

variable {limit : ℕ}

/-- What the faker knows of an instruction whose elements it has seen. -/
theorem judge_eq (m : SyncMembers) (opcode : Bytes) (args : List Bytes) :
    hooks.judge m (opcode :: args) =
      ({ isSync := opcode == ascii "sync", argIndex := args.length,
         timestamp := if opcode = ascii "sync" then args.headD [] else [], echoes := m.echoes },
        false) := by
  induction args using List.reverseRecOn with
  | nil => simp [Hooks.judge, Hooks.close, hooks, onInstructionBegin]
  | append_singleton args v ih =>
    rw [← List.cons_append, Hooks.judge_append_singleton, ih]
    cases args with
    | nil => by_cases hsync : opcode = ascii "sync" <;> simp [Hooks.close, hooks, onArgument, hsync]
    | cons a args => simp [Hooks.close, hooks, onArgument]

theorem seen_eq_cons (i : Instruction limit) :
    seen i.elements = i.opcode.take maxElementSize ::
      (i.values.drop 1).map (List.take maxElementSize) := by
  obtain ⟨elements, hne⟩ := i
  cases elements with
  | nil => exact absurd rfl hne
  | cons e es => simp [seen, Instruction.values, Instruction.opcode]

/-- An instruction adds its echo to the replies. -/
theorem echoes_after (m : SyncMembers) (i : Instruction limit) :
    (hooks.after m i).echoes = m.echoes ++ echoOf i := by
  have hopcode : i.opcode.take maxElementSize = ascii "sync" ↔ i.opcode = ascii "sync" := by
    refine ⟨fun h => ?_, fun h => by rw [h]; decide +kernel⟩
    have hlength := congrArg List.length h
    have hfour : (ascii "sync").length = 4 := by decide
    rw [List.length_take, hfour] at hlength
    rw [← h, List.take_of_length_le]
    unfold maxElementSize at hlength ⊢
    omega
  have hargs : ((i.values.drop 1).map (List.take maxElementSize)).headD [] =
      (i.values.getD 1 []).take maxElementSize := by
    cases i.values with
    | nil => simp
    | cons v vs => cases vs <;> simp
  rw [Hooks.after, seen_eq_cons, judge_eq, if_neg Bool.false_ne_true, hargs]
  show (onInstructionEnd _).echoes = _
  rw [onInstructionEnd, echoOf]
  dsimp only
  generalize (i.values.getD 1 []).take maxElementSize = ts
  by_cases hsync : i.opcode = ascii "sync"
  · rw [hopcode.mpr hsync]
    by_cases hts : ts = [] <;> simp [hsync, hts]
  · simp [hsync, hopcode]

theorem echoes_afterAll (m : SyncMembers) (is : List (Instruction limit)) :
    (hooks.afterAll m is).echoes = m.echoes ++ is.flatMap echoOf := by
  induction is generalizing m with
  | nil => simp
  | cons i is ih => rw [Hooks.afterAll_cons, ih, echoes_after, List.append_assoc, List.flatMap_cons]

/-- At the boundary of an instruction the faker replies to whole instructions with their echoes,
and stands at a boundary again. -/
theorem replies_wire {p : OpcodeParser SyncMembers} (hp : p.Tracks (.start : Cursor limit))
    (is : List (Instruction limit)) :
    replies p (wire is) = is.flatMap echoOf ∧
      (reading p (wire is)).Tracks (.start : Cursor limit) := by
  have hsession : OpcodeParser.Session hooks (cleared p).members (.start : Cursor limit) (cleared p) :=
    ⟨hp, rfl⟩
  have hread := hsession.absorb observes (.inr rfl) (Cursor.read_wire is)
  refine ⟨?_, hread.tracks⟩
  have hmembers : (reading p (wire is)).members = hooks.afterAll (cleared p).members is :=
    (congrArg Prod.fst hread.judged).symm
  rw [replies, hmembers, echoes_afterAll]
  rfl

/-- However the output of guacd is cut, the replies are the same, and the faker is never left
corrupted. On a sequence of instructions the replies are the echoes of the syncs with a timestamp,
in order. -/
theorem echoes_exact (pieces : List Bytes) :
    (∀ pieces' : List Bytes, pieces'.flatten = pieces.flatten →
      (feedAll fresh pieces').1 = (feedAll fresh pieces).1) ∧
    (∀ before after, pieces = before ++ after →
      (feedAll fresh before).2.state ≠ .streamCorrupted) ∧
    ∀ (limit : ℕ) (is : List (Instruction limit)), pieces.flatten = wire is →
      (feedAll fresh pieces).1 = is.flatMap echoOf := by
  have hlive : fresh.Live := by simp [fresh, OpcodeParser.Live]
  refine ⟨fun pieces' h => ?_, fun before after _ => ?_, fun limit is h => ?_⟩
  · rw [(feedAll_eq hlive pieces').1, (feedAll_eq hlive pieces).1, h]
  · exact (feedAll_eq hlive before).2.1.1
  · have hstart : fresh.Tracks (.start : Cursor limit) := OpcodeParser.tracks_start _
    rw [(feedAll_eq hlive pieces).1, h, (replies_wire hstart is).1]

end

end SyncFaker

end GuacamoleDiode
