import GuacamoleDiode.Parser.Stream
import GuacamoleDiode.Parser.Resync

/-!
# The filter of the return path

`ReturnFilter` swallows the reply of guacd to the handshake, up to and including its
`ready`, and passes on what follows without looking at it. A `View` says this over the wire
grammar, without the parser; the filter follows it whatever bytes it is fed.

## Main definitions

- `ReturnFilter.feed`: the filter
- `ReturnFilter.View`: what there is to know of a filter
- `ReturnFilter.Shows`: the filter is in the situation of a view
- `ReturnFilter.Drawing`: the part of the reply behind its `ready`

## Main results

- `ReturnFilter.posts_exact`
-/

namespace GuacamoleDiode

open Wire

/-- The members that `ReturnFilter` adds to its base. -/
structure ReturnMembers where
  currentOpcode : Bytes := []
  /-- true once the `ready` of guacd has been swallowed -/
  piping : Bool := false
  /-- offset of the drawing tail within the ready frame -/
  readyEnd : ℕ := 0
  deriving DecidableEq, Repr

namespace ReturnFilter

def onInstructionBegin (instr : Bytes) (m : ReturnMembers) : Bool × ReturnMembers :=
  (true, { m with currentOpcode := instr })

def onInstructionEnd (index : ℕ) (m : ReturnMembers) : ReturnMembers :=
  if m.piping = false ∧ m.currentOpcode = ascii "ready" then
    { m with piping := true, readyEnd := index + 1 }
  else m

def hooks : Hooks ReturnMembers where
  onInstructionBegin := onInstructionBegin
  onInstructionEnd := onInstructionEnd

/-- A new filter. -/
def fresh : OpcodeParser ReturnMembers := { members := {} }

/-- `ReturnFilter::Feed`: the bytes to forward to the web server, and the filter. -/
def feed (p : OpcodeParser ReturnMembers) (data : Bytes) : Bytes × OpcodeParser ReturnMembers :=
  if p.members.piping then (data, p)
  else
    let p := { p with members := { p.members with readyEnd := 0 } }
    let p := (p.parse hooks data).2
    if p.members.piping then (data.drop p.members.readyEnd, p) else ([], p)

/-- What there is to know of a filter. -/
inductive View where
  /-- the `ready` has not been seen, and an instruction has been received in part -/
  | swallowing (cur : Cursor maxElementSize)
  | piping
  /-- the reply has left the grammar before its `ready` -/
  | lost

/-- A new filter. -/
def View.start : View := .swallowing .start

/-- Bytes in front of the `ready`: what is behind it, and what the filter has become. -/
def swallow : Cursor maxElementSize → Bytes → Bytes × View
  | cur, [] => ([], .swallowing cur)
  | cur, c :: w =>
    match cur.feed c with
    | none => ([], .lost)
    | some (.more cur) => swallow cur w
    | some (.done i) => if i.opcode = ascii "ready" then (w, .piping) else swallow .start w

/-- The bytes that are passed on, and what the filter has become. -/
def View.feed : View → Bytes → Bytes × View
  | .swallowing cur, data => swallow cur data
  | .piping, data => (data, .piping)
  | .lost, _ => ([], .lost)

/-- The filter has not seen a `ready`, and knows the opcode of the current instruction. -/
def Waiting (cur : Cursor maxElementSize) (m : ReturnMembers) : Prop :=
  m.piping = false ∧ ∀ e ∈ cur.closed.head?, m.currentOpcode = e.value

/-- The filter is in the situation of a view. -/
def Shows (p : OpcodeParser ReturnMembers) : View → Prop
  | .swallowing cur => p.Tracks cur ∧ p.Kept (Waiting cur)
  | .piping => p.members.piping = true
  | .lost => p.state = .streamCorrupted ∧ p.members.piping = false

theorem shows_fresh : Shows fresh .start :=
  ⟨OpcodeParser.tracks_start _, by simp [fresh], rfl, by simp [Cursor.start]⟩

/-- What a call has come to, from an index on. -/
def Returned (i : ℕ) (w : Bytes) (p : OpcodeParser ReturnMembers) (r : Bytes × View) : Prop :=
  Shows p r.2 ∧
    (r.2 = .piping → r.1 <:+ w ∧ p.members.readyEnd + r.1.length = i + w.length) ∧
    (r.2 ≠ .piping → r.1 = [])

section

variable {cur cur' : Cursor maxElementSize} {p : OpcodeParser ReturnMembers} {l : Call} {c : UInt8}

/-- Where the drawing starts is settled once the `ready` has been seen. -/
theorem hooks_keep_piping (k : ℕ) :
    hooks.Keep fun m : ReturnMembers => m.piping = true ∧ m.readyEnd = k where
  onInstructionBegin _ _ _ h := h
  onArgument _ _ _ h := h
  onInstructionEnd _ m h := by
    simp only [hooks, onInstructionEnd, h.1]
    exact h

/-- The byte loop has not seen the `ready` yet. -/
structure Reads (cur : Cursor maxElementSize) (p : OpcodeParser ReturnMembers) (l : Call) : Prop where
  tracks : p.Tracks cur
  kept : p.Kept (Waiting cur)
  denying : l.denying = false
  ranges : p.deniedRanges = []

section Delimiter

variable {closed : List (Element maxElementSize)} {e : Element maxElementSize}

/-- The element in front of a delimiter. -/
theorem Reads.delim (h : Reads ⟨closed, .delim e⟩ p l) (hc : c = comma ∨ c = semicolon) (i : ℕ) :
    ∃ m, (m.piping = false ∧ m.currentOpcode = ((closed ++ [e]).head (by simp)).value) ∧
      p.turn hooks i c l = { p with currentIndex := i, members := m, readingOpcode := false
        }.closeElement hooks i c l := by
  obtain ⟨denying, opcodeInThisCall⟩ := l
  cases h.denying
  have hvalue : e.value.take maxElementSize = e.value := List.take_of_length_le e.length_le
  have hturn := (h.tracks.turn_delim (H := hooks) hc i ⟨false, opcodeInThisCall⟩ (by simp)).2
  obtain ⟨-, hpiping, hopcode⟩ := h.kept
  cases closed with
  | nil =>
    refine ⟨{ p.members with currentOpcode := e.value }, ⟨hpiping, rfl⟩, ?_⟩
    simpa [Hooks.close, hooks, onInstructionBegin, hvalue] using hturn
  | cons a closed =>
    refine ⟨p.members, ⟨hpiping, hopcode a rfl⟩, ?_⟩
    simpa [Hooks.close, hooks] using hturn

theorem Reads.close_comma (h : Reads ⟨closed, .delim e⟩ p l) (i : ℕ) :
    ∃ p' l', p.turn hooks i comma l = .next p' l' ∧ Reads ⟨closed ++ [e], .start⟩ p' l' := by
  obtain ⟨m, ⟨hpiping, hopcode⟩, hturn⟩ := h.delim (.inl rfl) i
  have hsemi : comma ≠ semicolon := by decide
  rw [OpcodeParser.closeElement, if_neg hsemi] at hturn
  have hstored := OpcodeParser.stored_of_turn h.kept.1 hturn
  refine ⟨_, _, hturn, ⟨by simp, rfl, rfl⟩, ⟨hstored, hpiping, ?_⟩, h.denying, h.ranges⟩
  intro a ha
  rw [List.head?_eq_some_head (by simp)] at ha
  cases ha
  exact hopcode

/-- The end of an instruction, which is the `ready` or not. -/
theorem Reads.close_semicolon (h : Reads ⟨closed, .delim e⟩ p l) (i : ℕ) :
    ∃ p' l', p.turn hooks i semicolon l = .next p' l' ∧
      (((closed ++ [e]).head (by simp)).value = ascii "ready" →
        p'.Kept fun m => m.piping = true ∧ m.readyEnd = i + 1) ∧
      (((closed ++ [e]).head (by simp)).value ≠ ascii "ready" → Reads .start p' l') := by
  obtain ⟨m, ⟨hpiping, hopcode⟩, hturn⟩ := h.delim (.inr rfl) i
  rw [OpcodeParser.closeElement, if_pos rfl, if_neg (by simp [h.denying])] at hturn
  have hstored := OpcodeParser.stored_of_turn h.kept.1 hturn
  refine ⟨_, _, hturn, fun hready => ⟨hstored, ?_⟩, fun hready => ?_⟩
  · simp [hooks, onInstructionEnd, hpiping, hopcode.trans hready]
  · rw [← hopcode] at hready
    refine ⟨⟨rfl, rfl, rfl⟩, ⟨hstored, ?_, by simp [Cursor.start]⟩, h.denying, h.ranges⟩
    simp [hooks, onInstructionEnd, hpiping, hready]

end Delimiter

/-- A byte that goes on with the instruction. -/
theorem Reads.more (h : Reads cur p l) (hf : cur.feed c = some (.more cur')) (i : ℕ) :
    ∃ p' l', p.turn hooks i c l = .next p' l' ∧ Reads cur' p' l' := by
  by_cases hpart : ∃ e, cur.part = .delim e
  · obtain ⟨closed, part⟩ := cur
    obtain ⟨e, rfl⟩ := hpart
    obtain ⟨rfl, rfl⟩ := Cursor.feed_delim_more hf
    exact h.close_comma i
  · obtain ⟨p', hturn, htracks, hmembers, hranges, -, hclosed⟩ :=
      h.tracks.turn_inside (H := hooks) (.inl le_rfl) (fun e he => hpart ⟨e, he⟩) hf i l
    have hstored := OpcodeParser.stored_of_turn h.kept.1 hturn
    refine ⟨p', _, hturn, htracks, ⟨hstored, ?_⟩, h.denying, hranges.trans h.ranges⟩
    rw [hmembers, Waiting, hclosed]
    exact h.kept.2

/-- The rest of a call that has seen the `ready`. -/
theorem returned_piping {k : ℕ} (h : p.Kept fun m => m.piping = true ∧ m.readyEnd = k) (w : Bytes) :
    Returned k w (p.parseFrom hooks k w l).2 (w, .piping) := by
  obtain ⟨-, hpiping, hend⟩ := OpcodeParser.Kept.parseFrom (hooks_keep_piping k) w (i := k) h (l := l)
  refine ⟨hpiping, fun _ => ⟨List.suffix_refl w, by rw [hend]⟩, fun h => absurd rfl h⟩

/-- One byte further. -/
theorem Returned.cons {i : ℕ} {w : Bytes} {r : Bytes × View} (h : Returned (i + 1) w p r) :
    Returned i (c :: w) p r := by
  refine ⟨h.1, fun hr => ?_, h.2.2⟩
  obtain ⟨hsuffix, hend⟩ := h.2.1 hr
  refine ⟨hsuffix.trans (List.suffix_cons c w), ?_⟩
  rw [hend, List.length_cons]
  omega

/-- The byte loop follows the view. -/
theorem Reads.returned (h : Reads cur p l) (i : ℕ) (w : Bytes) :
    Returned i w (p.parseFrom hooks i w l).2 (swallow cur w) := by
  induction w generalizing cur p l i with
  | nil =>
    have hfinish : (p.finish l).2 = p := by simp [OpcodeParser.finish, h.denying, h.ranges]
    refine ⟨?_, by simp [swallow], by simp [swallow]⟩
    rw [OpcodeParser.parseFrom, hfinish]
    exact ⟨h.tracks, h.kept⟩
  | cons c w ih =>
    rw [swallow]
    cases hf : cur.feed c with
    | none =>
      obtain ⟨p', hturn, hstate, hmembers⟩ := h.tracks.turn_none (H := hooks) rfl hf i l
      rw [OpcodeParser.parseFrom_ret hturn]
      refine ⟨⟨hstate, ?_⟩, by simp, by simp⟩
      rw [hmembers]
      exact h.kept.2.1
    | some fed =>
      cases fed with
      | more cur' =>
        obtain ⟨p', l', hturn, h'⟩ := h.more hf i
        rw [OpcodeParser.parseFrom_next hturn]
        exact (ih h' (i + 1)).cons
      | done j =>
        obtain ⟨rfl, e, he, rfl⟩ := Cursor.feed_eq_done hf
        obtain ⟨closed, part⟩ := cur
        subst he
        obtain ⟨p', l', hturn, hready, hother⟩ := h.close_semicolon i
        rw [OpcodeParser.parseFrom_next hturn]
        dsimp only
        split_ifs with hopcode
        · exact (returned_piping (hready hopcode) w).cons
        · exact (ih (hother hopcode) (i + 1)).cons

/-- The parser at the beginning of a call. -/
def begun (p : OpcodeParser ReturnMembers) : OpcodeParser ReturnMembers :=
  { p with deniedRanges := [], members := { p.members with readyEnd := 0 } }

theorem feed_of_not_piping (h : p.members.piping = false) {data : Bytes}
    {q : OpcodeParser ReturnMembers} (hq : ((begun p).parseFrom hooks 0 data {}).2 = q) :
    ReturnFilter.feed p data =
      if q.members.piping = true then (data.drop q.members.readyEnd, q) else ([], q) := by
  subst hq
  have hpiping : ¬p.members.piping = true := by simp [h]
  rw [ReturnFilter.feed, if_neg hpiping]
  rfl

/-- A call on a corrupted stream. -/
theorem parseFrom_lost (h : Shows p .lost) (data : Bytes) :
    Shows ((begun p).parseFrom hooks 0 data {}).2 .lost := by
  obtain ⟨hstate, hpiping⟩ := h
  cases data with
  | nil => exact ⟨hstate, hpiping⟩
  | cons c w =>
    have hturn : (begun p).turn hooks 0 c {} = .ret { begun p with currentIndex := 0 } := by
      rw [OpcodeParser.turn]
      simp only [begun, hstate]
    rw [OpcodeParser.parseFrom_ret hturn]
    exact ⟨hstate, hpiping⟩

/-- The filter follows its view. -/
theorem Shows.feed {v : View} (h : Shows p v) (data : Bytes) :
    (ReturnFilter.feed p data).1 = (v.feed data).1 ∧
      Shows (ReturnFilter.feed p data).2 (v.feed data).2 := by
  cases v with
  | piping =>
    have hpiping : p.members.piping = true := h
    rw [ReturnFilter.feed, if_pos hpiping]
    exact ⟨rfl, h⟩
  | lost =>
    have hlost := parseFrom_lost h data
    rw [feed_of_not_piping h.2 rfl, if_neg (by simp [hlost.2])]
    exact ⟨rfl, hlost⟩
  | swallowing cur =>
    have hreads : Reads cur (begun p) {} := ⟨h.1, h.2, rfl, rfl⟩
    obtain ⟨hshows, hfound, hnone⟩ := hreads.returned 0 data
    rw [feed_of_not_piping h.2.2.1 rfl, View.feed]
    generalize swallow cur data = r at hshows hfound hnone ⊢
    obtain ⟨out, v⟩ := r
    cases v with
    | piping =>
      obtain ⟨⟨before, rfl⟩, hend⟩ := hfound rfl
      have hpiping : ((begun p).parseFrom hooks 0 (before ++ out) {}).2.members.piping = true := hshows
      have hlen : ((begun p).parseFrom hooks 0 (before ++ out) {}).2.members.readyEnd =
          before.length := by
        rw [List.length_append] at hend
        dsimp only at hend
        omega
      rw [if_pos hpiping, hlen, List.drop_left]
      exact ⟨rfl, hshows⟩
    | swallowing cur' =>
      rw [if_neg (by simp [hshows.2.2.1])]
      exact ⟨(hnone (by simp)).symm, hshows⟩
    | lost =>
      rw [if_neg (by simp [hshows.2])]
      exact ⟨(hnone (by simp)).symm, hshows⟩

/-- What is passed on of a sequence of payloads. -/
def posts (p : OpcodeParser ReturnMembers) : List Bytes → Bytes
  | [] => []
  | data :: rest => (feed p data).1 ++ posts (feed p data).2 rest

theorem swallow_append (cur : Cursor maxElementSize) (u w : Bytes) :
    swallow cur (u ++ w) =
      ((swallow cur u).1 ++ ((swallow cur u).2.feed w).1, ((swallow cur u).2.feed w).2) := by
  induction u generalizing cur with
  | nil => rfl
  | cons c u ih =>
    rw [List.cons_append, swallow, swallow]
    cases cur.feed c with
    | none => rfl
    | some fed =>
      cases fed with
      | more cur' => exact ih cur'
      | done i =>
        dsimp only
        split_ifs
        · rfl
        · exact ih .start

theorem View.feed_append (v : View) (u w : Bytes) :
    v.feed (u ++ w) = ((v.feed u).1 ++ ((v.feed u).2.feed w).1, ((v.feed u).2.feed w).2) := by
  cases v with
  | swallowing cur => exact swallow_append cur u w
  | piping => rfl
  | lost => rfl

theorem View.feed_nil (v : View) : v.feed [] = ([], v) := by
  cases v <;> rfl

/-- Where the payloads are cut does not matter. -/
theorem Shows.posts {v : View} (h : Shows p v) (ds : List Bytes) :
    ReturnFilter.posts p ds = (v.feed ds.flatten).1 := by
  induction ds generalizing p v with
  | nil => simp [ReturnFilter.posts, View.feed_nil]
  | cons d ds ih =>
    obtain ⟨hout, hshows⟩ := h.feed d
    rw [ReturnFilter.posts, hout, ih hshows, List.flatten_cons, View.feed_append]

/-- Instructions other than `ready` are swallowed. -/
theorem swallow_of_read {w : Bytes} {is : List (Instruction maxElementSize)}
    (h : cur.read w = some (is, cur')) (his : ∀ i ∈ is, i.opcode ≠ ascii "ready") :
    swallow cur w = ([], .swallowing cur') := by
  induction w generalizing cur is with
  | nil =>
    cases h
    rfl
  | cons c w ih =>
    rw [swallow]
    cases hf : cur.feed c with
    | none => simp [Cursor.read_cons_none hf] at h
    | some fed =>
      cases fed with
      | more cur₁ =>
        rw [Cursor.read_cons_more hf] at h
        exact ih h his
      | done i =>
        rw [Cursor.read_cons_done hf, Option.map_eq_some_iff] at h
        obtain ⟨⟨js, cur₂⟩, hr, heq⟩ := h
        cases heq
        dsimp only
        rw [if_neg (his i List.mem_cons_self)]
        exact ih hr fun j hj => his j (List.mem_cons_of_mem _ hj)

/-- The `ready` is swallowed with what is in front of it. -/
theorem swallow_ready {w : Bytes} {is : List (Instruction maxElementSize)}
    {i : Instruction maxElementSize} (h : cur.read w = some (is ++ [i], .start))
    (his : ∀ j ∈ is, j.opcode ≠ ascii "ready") (hi : i.opcode = ascii "ready") :
    swallow cur w = ([], .piping) := by
  induction w generalizing cur is with
  | nil => simp at h
  | cons c w ih =>
    rw [swallow]
    cases hf : cur.feed c with
    | none => simp [Cursor.read_cons_none hf] at h
    | some fed =>
      cases fed with
      | more cur₁ =>
        rw [Cursor.read_cons_more hf] at h
        exact ih h his
      | done j =>
        rw [Cursor.read_cons_done hf, Option.map_eq_some_iff] at h
        obtain ⟨⟨js, cur₂⟩, hr, heq⟩ := h
        obtain ⟨hjs, rfl⟩ := Prod.mk.inj heq
        dsimp only
        cases is with
        | nil =>
          obtain ⟨rfl, rfl⟩ := List.cons.inj hjs
          have hw : w = [] := Cursor.read_bytes hr
          rw [if_pos hi, hw]
        | cons j' is =>
          obtain ⟨rfl, rfl⟩ := List.cons.inj hjs
          rw [if_neg (his j List.mem_cons_self)]
          exact ih hr fun k hk => his k (List.mem_cons_of_mem _ hk)

/-- The tail of a reply begins behind the first complete `ready`, and the reply is within the
grammar up to there. -/
def Drawing (reply tail : Bytes) : Prop :=
  ∃ (is : List (Instruction maxElementSize)) (i : Instruction maxElementSize),
    reply = wire is ++ i.encode ++ tail ∧ (∀ j ∈ is, j.opcode ≠ ascii "ready") ∧
      i.opcode = ascii "ready"

/-- A `ready` has been swallowed, or nothing is passed on. -/
theorem swallow_cases (cur : Cursor maxElementSize) (w : Bytes) :
    Drawing (cur.bytes ++ w) (swallow cur w).1 ∨ (swallow cur w).1 = [] := by
  induction w generalizing cur with
  | nil => exact .inr rfl
  | cons c w ih =>
    rw [swallow]
    cases hf : cur.feed c with
    | none => exact .inr rfl
    | some fed =>
      cases fed with
      | more cur' =>
        have hbytes : cur.bytes ++ c :: w = cur'.bytes ++ w := by
          rw [Cursor.bytes_feed_more hf, List.append_assoc, List.singleton_append]
        rw [hbytes]
        exact ih cur'
      | done i =>
        have hbytes : cur.bytes ++ c :: w = i.encode ++ w := by
          rw [Cursor.bytes_feed_done hf, List.append_assoc, List.singleton_append]
        dsimp only
        rw [hbytes]
        by_cases hi : i.opcode = ascii "ready"
        · rw [if_pos hi]
          exact .inl ⟨[], i, rfl, by simp, hi⟩
        · rw [if_neg hi]
          refine (ih .start).imp_left fun ⟨is, r, hw, his, hr⟩ => ?_
          rw [Cursor.bytes_start, List.nil_append] at hw
          refine ⟨i :: is, r, ?_, ?_, hr⟩
          · rw [wire_cons, List.append_assoc, List.append_assoc, ← List.append_assoc (wire is), ← hw]
          · exact List.forall_mem_cons.mpr ⟨hi, his⟩

end

/-- However the reply of guacd is cut, what is passed on of it is the part behind the first
`ready`, byte for byte, and nothing if there is no such part. -/
theorem posts_exact (pieces : List Bytes) :
    (∀ tail, Drawing pieces.flatten tail → posts fresh pieces = tail) ∧
      ((∀ tail, ¬Drawing pieces.flatten tail) → posts fresh pieces = []) := by
  have hposts : posts fresh pieces = (swallow .start pieces.flatten).1 := shows_fresh.posts pieces
  rw [hposts]
  constructor
  · rintro tail ⟨is, i, hreply, his, hi⟩
    have hread : (Cursor.start : Cursor maxElementSize).read (wire is ++ i.encode) =
        some (is ++ [i], .start) := by
      have hwire : wire is ++ i.encode = wire (is ++ [i]) := by simp
      rw [hwire]
      exact Cursor.read_wire _
    rw [hreply, swallow_append, swallow_ready hread his hi]
    rfl
  · intro h
    exact (swallow_cases .start pieces.flatten).resolve_left (h _)

/-- The filter has not seen a `ready` and stands between two instructions. -/
def AtBoundary (p : OpcodeParser ReturnMembers) : Prop :=
  p.members.piping = false ∧ p.state = .readingLength ∧ p.readingOpcode = true ∧
    p.currentLength = -1

section

variable {cur : Cursor maxElementSize} {p : OpcodeParser ReturnMembers} {v : View}

theorem Shows.atBoundary_iff (h : Shows p v) : AtBoundary p ↔ v = .start := by
  constructor
  · rintro ⟨hpiping, hstate, hopcode, hlength⟩
    cases v with
    | piping =>
      have hpiping' : p.members.piping = true := h
      simp [hpiping] at hpiping'
    | lost => cases hstate.symm.trans h.1
    | swallowing cur =>
      obtain ⟨closed, part⟩ := cur
      obtain ⟨⟨hclosed, hpart⟩, -⟩ := h
      obtain rfl : closed = [] := by simpa [hopcode] using hclosed.symm
      cases part with
      | length digits hd hle =>
        have hdigits : digits = [] := by
          by_contra hne
          have hlen : (-1 : ℤ) = declared digits := by simpa [hlength, hne] using hpart.2
          omega
        subst hdigits
        rfl
      | data => simp [hstate] at hpart
      | delim e => simp [hstate] at hpart
  · rintro rfl
    obtain ⟨⟨hclosed, hstate, hlength⟩, -, hpiping, -⟩ := h
    exact ⟨hpiping, hstate, hclosed, hlength⟩

/-- A byte that no length begins with. -/
theorem feed_start_of_not_digit {c : UInt8} (h : isDigit c = false) (w : Bytes) :
    View.start.feed (c :: w) = ([], .lost) := by
  have hfeed : (Cursor.start : Cursor maxElementSize).feed c = none := by
    simp [Cursor.feed, Cursor.start, Partial.start, Partial.feed, h]
  rw [View.start, View.feed, swallow, hfeed]

/-- An instruction that has been received in part goes on with a byte that no length begins
with, unless it stops behind a comma. -/
theorem exists_completion (cur : Cursor maxElementSize) (hpart : cur.part ≠ .start) :
    ∃ (i : Instruction maxElementSize) (c : UInt8) (w : Bytes), isDigit c = false ∧
      cur.bytes ++ c :: w = i.encode := by
  obtain ⟨closed, part⟩ := cur
  cases part with
  | length digits hd hle =>
    have hne : digits ≠ [] := by
      rintro rfl
      exact hpart rfl
    obtain ⟨e, rest, he, hvalue⟩ := Cursor.exists_element_of_declared hne hd hle [] (by simp) (by simp)
    refine ⟨⟨closed ++ [e], by simp⟩, dot, rest ++ [semicolon], by decide, ?_⟩
    simp [Instruction.encode_mk_append, Cursor.bytes, Partial.bytes, Element.body, he, hvalue]
  | data digits value hd hle hmissing hascii =>
    have hne : digits ≠ [] := by
      rintro rfl
      simp at hmissing
    obtain ⟨e, rest, he, hvalue⟩ := Cursor.exists_element_of_declared hne hd hle (value ++ [97])
      (by simp only [List.length_append, List.length_singleton]; omega)
      (Partial.le_127_snoc hascii (by decide))
    refine ⟨⟨closed ++ [e], by simp⟩, 97, rest ++ [semicolon], by decide, ?_⟩
    simp [Instruction.encode_mk_append, Cursor.bytes, Partial.bytes, Element.body, he, hvalue]
  | delim e =>
    refine ⟨⟨closed ++ [e], by simp⟩, semicolon, [], by decide, ?_⟩
    simp [Instruction.encode_mk_append, Cursor.bytes]

/-- The end of an instruction. -/
theorem feed_swallowing {i : Instruction maxElementSize} {w : Bytes} (h : cur.bytes ++ w = i.encode)
    (u : Bytes) :
    ((View.swallowing cur).feed (w ++ u)).1 =
      if i.opcode = ascii "ready" then u else (View.start.feed u).1 := by
  have hread : cur.read w = some ([i], .start) := by
    rw [Cursor.read_eq_some_iff, h]
    simp
  rw [View.feed, swallow_append]
  split_ifs with hi
  · have hready : cur.read w = some ([] ++ [i], .start) := hread
    rw [swallow_ready hready (by simp) hi]
    rfl
  · rw [swallow_of_read hread (by simpa using hi)]
    rfl

/-- The opcode of `ready` as an element. -/
def readyElement : Element maxElementSize := .ofValue (ascii "ready") (by decide +kernel)

/-- An element without a value. -/
def blank : Element maxElementSize := .ofValue [] (by decide +kernel)

/-- A letter is no part of a new instruction. -/
theorem feed_start_letter : (View.start.feed (ascii "x")).1 = [] :=
  congrArg Prod.fst (feed_start_of_not_digit (by decide) [])

/-- A letter behind an instruction of one element. -/
theorem feed_start_element (e : Element maxElementSize) :
    (View.start.feed (e.body ++ [semicolon] ++ ascii "x")).1 =
      if e.value = ascii "ready" then ascii "x" else [] := by
  have henc : (Cursor.start : Cursor maxElementSize).bytes ++ (e.body ++ [semicolon]) =
      (⟨[e], by simp⟩ : Instruction maxElementSize).encode := rfl
  rw [View.start, feed_swallowing henc, feed_start_letter]
  rfl

/-- A letter behind the last argument of an instruction. -/
theorem feed_last_argument (a : Element maxElementSize) (closed : List (Element maxElementSize))
    (e : Element maxElementSize) :
    ((View.swallowing ⟨a :: closed, .start⟩).feed (e.body ++ [semicolon] ++ ascii "x")).1 =
      if a.value = ascii "ready" then ascii "x" else [] := by
  have henc : (⟨a :: closed, .start⟩ : Cursor maxElementSize).bytes ++ (e.body ++ [semicolon]) =
      (⟨(a :: closed) ++ [e], by simp⟩ : Instruction maxElementSize).encode := by
    rw [Instruction.encode_mk_append]
    simp [Cursor.bytes]
  rw [feed_swallowing henc, feed_start_letter]
  rfl

/-- A filter that behaves like a new one is like a new one. -/
theorem View.eq_start_of_feed (h : ∀ w, (v.feed w).1 = (View.start.feed w).1) : v = .start := by
  have hready := feed_start_element readyElement
  have hblank := feed_start_element blank
  rw [if_pos (by decide)] at hready
  rw [if_neg (by decide)] at hblank
  cases v with
  | piping =>
    have hx := h (ascii "x")
    rw [feed_start_letter] at hx
    cases hx
  | lost =>
    have hx := h (readyElement.body ++ [semicolon] ++ ascii "x")
    rw [hready] at hx
    cases hx
  | swallowing cur =>
    by_cases hpart : cur.part = .start
    · obtain ⟨closed, part⟩ := cur
      obtain rfl : part = .start := hpart
      cases closed with
      | nil => rfl
      | cons a closed =>
        -- a comma has gone by, so that the next element is an opcode for a new filter only
        by_cases ha : a.value = ascii "ready"
        · have hx := h (blank.body ++ [semicolon] ++ ascii "x")
          rw [feed_last_argument, if_pos ha, hblank] at hx
          cases hx
        · have hx := h (readyElement.body ++ [semicolon] ++ ascii "x")
          rw [feed_last_argument, if_neg ha, hready] at hx
          cases hx
    · obtain ⟨i, c, w, hc, henc⟩ := exists_completion cur hpart
      have hx := h (c :: w ++ (readyElement.body ++ [semicolon] ++ ascii "x"))
      rw [feed_swallowing henc, List.cons_append, feed_start_of_not_digit hc] at hx
      split_ifs at hx
      · cases hx
      · rw [hready] at hx
        cases hx

end

end ReturnFilter

end GuacamoleDiode
