import GuacamoleDiode.Parser.Morphism
import GuacamoleDiode.Parser.Stream

/-!
# Observers read byte by byte

The hooks of an observer deny nothing. For such a parser the calls of a stream have no meaning
of their own: what it is behind a piece depends on the bytes alone, one after the other. The
loop of the fakers, which starts over behind a byte that corrupts the stream, becomes a fold.

## Main definitions

- `Hooks.Observes`: the hooks deny nothing
- `OpcodeParser.settled`: a parser without the members that belong to one call
- `OpcodeParser.absorb`: what one byte does to an observer
- `OpcodeParser.AtBoundary`: the parser waits for an instruction

## Main results

- `OpcodeParser.resync_eq_foldl`
- `OpcodeParser.Session.absorb`, `OpcodeParser.Session.rejects`
-/

namespace GuacamoleDiode

open Wire

variable {σ τ : Type}

/-- The hooks allow everything, and do not ask for the index of the byte. -/
structure Hooks.Observes (H : Hooks σ) : Prop where
  allows_opcode : ∀ v s, (H.onInstructionBegin v s).1 = true
  allows_argument : ∀ v s, (H.onArgument v s).1 = true
  stationary : H.Stationary

theorem Hooks.Observes.allows {H : Hooks σ} (hH : H.Observes) : H.Allows :=
  ⟨hH.allows_opcode, hH.allows_argument⟩

namespace OpcodeParser

/-- The members that say where in the stream the parser stands. The others belong to a call. -/
@[reducible] def settled (p : OpcodeParser σ) : OpcodeParser σ :=
  { p with currentIndex := 0, opcodeStartIdx := 0, deniedRanges := [] }

/-- Where a turn leaves an observer: behind a byte that corrupts the stream it starts over. -/
def settleTurn : Turn σ → OpcodeParser σ
  | .next q _ => q.settled
  | .ret q => q.reset

/-- One byte of the stream. -/
def absorb (H : Hooks σ) (p : OpcodeParser σ) (c : UInt8) : OpcodeParser σ :=
  settleTurn (p.turn H 0 c {})

/-- The parser waits for the first digit of an instruction. -/
def AtBoundary (p : OpcodeParser σ) : Prop :=
  p.state = .readingLength ∧ p.currentLength = -1 ∧ p.readingOpcode = true

/-- The parser has not given up. -/
def Live (p : OpcodeParser σ) : Prop := p.state ≠ .streamCorrupted ∧ p.state ≠ .deniedData

/-- What a turn at index `i` leaves of the call. -/
def Turned (i : ℕ) (p : OpcodeParser σ) : Turn σ → Prop
  | .next q l => l.denying = false ∧ q.deniedRanges = p.deniedRanges ∧ q.Live
  | .ret q => q.currentIndex = i ∧ q.state = .streamCorrupted

section

variable {H : Hooks σ} {p : OpcodeParser σ} {l : Call} {i : ℕ} {c : UInt8}

theorem callHook_allowed (hH : H.Observes) (p : OpcodeParser σ) : (p.callHook H).1 = true := by
  rw [callHook]
  split_ifs
  · exact hH.allows_opcode p.element p.members
  · exact hH.allows_argument p.element p.members

theorem settle_readLength (p : OpcodeParser σ) (j : ℕ) (l' : Call) :
    settleTurn ({ p.settled with currentIndex := j }.readLength H j c l') =
      settleTurn ({ p with currentIndex := i }.readLength H i c l) := by
  unfold readLength
  dsimp only [settled]
  split_ifs <;> rfl

theorem settle_readData (p : OpcodeParser σ) (j : ℕ) (l' : Call) :
    settleTurn ({ p.settled with currentIndex := j }.readData c l') =
      settleTurn ({ p with currentIndex := i }.readData c l) := by
  unfold readData
  dsimp only [settled]
  split_ifs <;> rfl

/-- For an observer the delimiter closes the element. -/
theorem expectDelim_allowed (hH : H.Observes) (hl : l.denying = false) (hc : c = comma ∨ c = semicolon)
    (p : OpcodeParser σ) : p.expectDelim H i c l =
      { p with members := (p.callHook H).2, readingOpcode := false }.closeElement H i c l := by
  have hdelim : ¬(c ≠ comma ∧ c ≠ semicolon) := by tauto
  rw [expectDelim, if_neg hdelim, if_neg (by simp [hl])]
  dsimp only
  rw [if_pos (callHook_allowed hH p)]

theorem settle_expectDelim (hH : H.Observes) (p : OpcodeParser σ) (j : ℕ) {l' : Call}
    (hl : l.denying = false) (hl' : l'.denying = false) :
    settleTurn ({ p.settled with currentIndex := j }.expectDelim H j c l') =
      settleTurn ({ p with currentIndex := i }.expectDelim H i c l) := by
  by_cases hc : c = comma ∨ c = semicolon
  · rw [expectDelim_allowed hH hl hc, expectDelim_allowed hH hl' hc, closeElement, closeElement]
    dsimp only [settled]
    rw [hH.stationary i, hH.stationary j, hl, hl']
    split_ifs <;> rfl
  · rw [not_or] at hc
    rw [expectDelim, expectDelim, if_pos hc, if_pos hc]
    rfl

/-- What a turn does to the place in the stream does not depend on the call. -/
theorem settle_turn (hH : H.Observes) (hl : l.denying = false) (p : OpcodeParser σ) (i : ℕ) (c : UInt8) :
    p.settled.absorb H c = settleTurn (p.turn H i c l) := by
  have hkept : p.settled.state = p.state := rfl
  rw [absorb]
  cases hstate : p.state with
  | readingLength =>
    rw [turn_readingLength (hkept.trans hstate), turn_readingLength hstate]
    exact settle_readLength p 0 {}
  | readingData =>
    rw [turn_readingData (hkept.trans hstate), turn_readingData hstate]
    exact settle_readData p 0 {}
  | expectDelim =>
    rw [turn_expectDelim (hkept.trans hstate), turn_expectDelim hstate]
    exact settle_expectDelim hH p 0 hl rfl
  | streamCorrupted =>
    rw [turn, turn, hkept, hstate]
    rfl
  | deniedData =>
    rw [turn, turn, hkept, hstate]
    rfl

theorem turned (hH : H.Observes) (hp : p.Live) (hl : l.denying = false) (i : ℕ) (c : UInt8) :
    Turned i p (p.turn H i c l) := by
  cases hstate : p.state with
  | readingLength =>
    rw [turn_readingLength hstate, readLength]
    dsimp only
    split_ifs <;> simp [Turned, Live, corrupt, hl, hstate]
  | readingData =>
    rw [turn_readingData hstate, readData]
    dsimp only
    split_ifs <;> simp [Turned, Live, corrupt, hl, hstate]
  | expectDelim =>
    rw [turn_expectDelim hstate]
    by_cases hc : c = comma ∨ c = semicolon
    · rw [expectDelim_allowed hH hl hc, closeElement]
      dsimp only
      split_ifs <;> simp_all [Turned, Live]
    · rw [not_or] at hc
      rw [OpcodeParser.expectDelim, if_pos hc]
      exact ⟨rfl, rfl⟩
  | streamCorrupted => exact absurd hstate hp.1
  | deniedData => exact absurd hstate hp.2

/-- A call has read the whole piece, or has stopped at the byte that corrupts the stream. -/
def Absorbed (H : Hooks σ) (p : OpcodeParser σ) (i : ℕ) (data : Bytes)
    (r : ParserState × OpcodeParser σ) : Prop :=
  (r.1 ≠ .streamCorrupted ∧ r.2.Live ∧ r.2.settled = data.foldl (absorb H) p.settled) ∨
    ∃ u c v, data = u ++ c :: v ∧ r.1 = .streamCorrupted ∧ r.2.currentIndex = i + u.length ∧
      r.2.reset = (u ++ [c]).foldl (absorb H) p.settled

theorem absorbed_parseFrom (hH : H.Observes) (hp : p.Live) (hl : l.denying = false)
    (hranges : p.deniedRanges = []) (i : ℕ) (data : Bytes) :
    Absorbed H p i data (p.parseFrom H i data l) := by
  induction data generalizing i p l with
  | nil =>
    left
    have hfinish : p.finish l = (p.state, p) := by simp [finish, hl, hranges]
    rw [parseFrom, hfinish]
    exact ⟨hp.1, hp, rfl⟩
  | cons c data ih =>
    have habsorb := settle_turn hH hl p i c
    have hturned := turned hH hp hl i c
    cases hturn : p.turn H i c l with
    | next q l' =>
      rw [hturn] at habsorb hturned
      obtain ⟨hl', hranges', hq⟩ := hturned
      rw [parseFrom_next hturn, Absorbed, List.foldl_cons, habsorb]
      rcases ih hq hl' (hranges'.trans hranges) (i + 1) with hread | ⟨u, d, v, rfl, hstop, hindex, hreset⟩
      · exact .inl hread
      · refine .inr ⟨c :: u, d, v, rfl, hstop, ?_, ?_⟩
        · rw [hindex, List.length_cons]
          omega
        · rw [List.cons_append, List.foldl_cons, habsorb]
          exact hreset
    | ret q =>
      rw [hturn] at habsorb hturned
      rw [parseFrom_ret hturn]
      refine .inr ⟨[], c, data, rfl, hturned.2, hturned.1, ?_⟩
      rw [List.nil_append, List.foldl_cons, List.foldl_nil, habsorb]
      rfl

theorem live_reset (p : OpcodeParser σ) : p.reset.Live := by simp [reset, Live]

/-- The loop of a faker absorbs one byte after the other, and the faker never stays corrupted. -/
theorem resync_eq_foldl (hH : H.Observes) (hp : p.Live) {fuel : ℕ} {data : Bytes}
    (hfuel : data.length ≤ fuel) :
    (p.resync H fuel data).Live ∧
      (p.resync H fuel data).settled = data.foldl (absorb H) p.settled := by
  induction fuel generalizing p data with
  | zero =>
    obtain rfl : data = [] := List.length_eq_zero_iff.mp (Nat.le_zero.mp hfuel)
    exact ⟨hp, rfl⟩
  | succ fuel ih =>
    rw [resync]
    by_cases hdata : data = []
    · rw [if_pos hdata, hdata]
      exact ⟨hp, rfl⟩
    · rw [if_neg hdata]
      have hparse : Absorbed H p 0 data (p.parse H data) :=
        absorbed_parseFrom (p := { p with deniedRanges := [] }) hH hp rfl rfl 0 data
      rcases hparse with ⟨hstate, hlive, hfold⟩ | ⟨u, c, v, rfl, hstop, hindex, hreset⟩
      · dsimp only
        rw [if_neg hstate]
        exact ⟨hlive, hfold⟩
      · dsimp only
        rw [if_pos hstop]
        have hdrop : (u ++ c :: v).drop ((p.parse H (u ++ c :: v)).2.currentIndex + 1) = v := by
          rw [hindex, Nat.zero_add, List.drop_length_add_append, List.drop_succ_cons,
            List.drop_zero]
        have hshort : v.length ≤ fuel := by
          rw [List.length_append, List.length_cons] at hfuel
          omega
        have hsplit : u ++ c :: v = u ++ [c] ++ v := by simp
        obtain ⟨hlive, hfold⟩ := ih (live_reset (p.parse H (u ++ c :: v)).2) hshort
        rw [hdrop]
        refine ⟨hlive, hfold.trans ?_⟩
        have hsettled : (p.parse H (u ++ c :: v)).2.reset.settled =
            (p.parse H (u ++ c :: v)).2.reset := rfl
        rw [hsettled, hreset, ← List.foldl_append, ← hsplit]

end

section Grammar

variable {H : Hooks σ} {limit : ℕ} {s : σ} {cur cur' : Cursor limit} {p : OpcodeParser σ}
  {is : List (Instruction limit)} {data : Bytes}

theorem not_cuts (hH : H.Observes) (s : σ) (cur cur' : Cursor limit) (is : List (Instruction limit)) :
    ¬H.Cuts s cur is cur' := by
  rintro (⟨-, i, -, hdenied⟩ | hdenied)
  · rw [Hooks.denies, judge_allowed hH.allows] at hdenied
    cases hdenied
  · rw [judge_allowed hH.allows] at hdenied
    cases hdenied

section Turns

variable {c : UInt8} {l : Call}

/-- A byte that completes the instruction. -/
theorem Session.turn_done (hH : H.Observes) (h : Session H s cur p) (hl : l.denying = false)
    {instruction : Instruction limit} (hf : cur.feed c = some (.done instruction)) (i : ℕ) :
    ∃ p' l', p.turn H i c l = .next p' l' ∧ l'.denying = false ∧
      Session H (H.after s instruction) (.start : Cursor limit) p' := by
  obtain ⟨p', l', hturn, hl', htracks, hmembers⟩ := h.turn_end hH.allows hl hf i
  have hjudge : H.judge s (seen instruction.elements) =
      ((H.judge s (seen instruction.elements)).1, false) := Prod.ext rfl (judge_allowed hH.allows _ _)
  refine ⟨p', l', hturn, hl', htracks, ?_⟩
  rw [hmembers, Hooks.after_of_allowed hjudge, hH.stationary i]
  rfl

end Turns

/-- An observer that tolerates nothing has seen what a piece completes before the byte that
leaves the grammar, and perhaps the first elements of one instruction more. -/
theorem Session.rejects {cur : Cursor maxElementSize} (h : Session H s cur p) (hH : H.Observes)
    (htol : H.toleratesOversizedElements = false) (hr : cur.read data = none) :
    (p.parse H data).2.state = .streamCorrupted ∧
      ∃ vs, (p.parse H data).2.members = (H.judge (H.afterAll s (cur.completed data)) vs).1 := by
  suffices hloop : ∀ {p : OpcodeParser σ}, Session H s cur p → cur.read data = none →
      ∀ (i : ℕ) (l : Call), l.denying = false →
      (p.parseFrom H i data l).2.state = .streamCorrupted ∧ ∃ vs,
        (p.parseFrom H i data l).2.members = (H.judge (H.afterAll s (cur.completed data)) vs).1 by
    have hclear : Session H s cur { p with deniedRanges := [] } := ⟨h.tracks, h.judged⟩
    exact hloop hclear hr 0 {} rfl
  clear h hr
  induction data generalizing s cur with
  | nil => simp
  | cons c w ih =>
    intro p h hr i l hl
    rw [Cursor.completed]
    cases hf : cur.feed c with
    | none =>
      obtain ⟨p', hturn, hstate, hmembers⟩ := h.tracks.turn_none htol hf i l
      rw [parseFrom_ret hturn]
      exact ⟨hstate, seen cur.closed, by rw [Hooks.afterAll_nil, h.judged, hmembers]⟩
    | some fed =>
      cases fed with
      | more cur₁ =>
        obtain ⟨p', l', hturn, hl', h'⟩ := h.turn_more hH.allows hl (.inl le_rfl) hf i
        rw [Cursor.read_cons_more hf] at hr
        rw [parseFrom_next hturn]
        exact ih h' hr (i + 1) l' hl'
      | done instruction =>
        obtain ⟨p', l', hturn, hl', h'⟩ := h.turn_done hH hl hf i
        rw [Cursor.read_cons_done hf, Option.map_eq_none_iff] at hr
        rw [parseFrom_next hturn]
        exact ih h' hr (i + 1) l' hl'

/-- An observer goes on behind a piece that stays inside the grammar. -/
theorem Session.accepts (h : Session H s cur p) (hH : H.Observes)
    (hlim : limit ≤ maxElementSize ∨ H.toleratesOversizedElements = true)
    (hr : cur.read data = some (is, cur')) :
    (p.parse H data).1 ≠ .streamCorrupted ∧
      Session H (H.afterAll s is) cur' (p.parse H data).2 := by
  rcases h.returns hH.stationary hlim hr with ⟨hcut, -⟩ | ⟨-, hstate, -, l, hl, hcall⟩
  · exact absurd hcut (not_cuts hH s cur cur' is)
  · exact ⟨hstate, hcall.session hl⟩

/-- An observer that is fed whole instructions has seen them one after the other. -/
theorem Session.absorb (h : Session H s cur p) (hH : H.Observes)
    (hlim : limit ≤ maxElementSize ∨ H.toleratesOversizedElements = true)
    (hr : cur.read data = some (is, cur')) :
    Session H (H.afterAll s is) cur' (data.foldl (OpcodeParser.absorb H) p.settled) := by
  have habsorbed : Absorbed H p 0 data (p.parse H data) :=
    absorbed_parseFrom (p := { p with deniedRanges := [] }) (l := {}) hH h.tracks.state_ne rfl rfl 0 data
  obtain ⟨hstate, hsession⟩ := h.accepts hH hlim hr
  rcases habsorbed with ⟨-, -, hfold⟩ | ⟨-, -, -, -, hstop, -⟩
  · rw [← hfold]
    exact ⟨hsession.tracks, hsession.judged⟩
  · exact absurd hstop hstate

end Grammar

/-- Related classes absorb alike. -/
theorem map_absorb {H : Hooks σ} {K : Hooks τ} {f : σ → τ} (h : H.Morphism K f) (p : OpcodeParser σ)
    (c : UInt8) : (p.map f).absorb K c = (p.absorb H c).map f := by
  rw [OpcodeParser.absorb, OpcodeParser.absorb, h.turn]
  cases p.turn H 0 c {} <;> rfl

theorem map_foldl_absorb {H : Hooks σ} {K : Hooks τ} {f : σ → τ} (h : H.Morphism K f)
    (p : OpcodeParser σ) (data : Bytes) :
    data.foldl (OpcodeParser.absorb K) (p.map f) = (data.foldl (OpcodeParser.absorb H) p).map f := by
  induction data generalizing p with
  | nil => rfl
  | cons c data ih => rw [List.foldl_cons, List.foldl_cons, map_absorb h, ih]

end OpcodeParser

end GuacamoleDiode
