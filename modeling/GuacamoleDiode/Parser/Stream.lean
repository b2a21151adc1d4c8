import GuacamoleDiode.Parser.Calls
import GuacamoleDiode.Lib.Pieces

/-!
# A stream through a parser

A caller parses a stream piece by piece and excises the denied instructions of a
piece. This module says what comes out for every way of cutting the stream: the
stream is corrupted if and only if it leaves the grammar or some instruction that
has been denied does not lie wholly inside one piece; otherwise the output is the
stream without the denied instructions.

## Main definitions

- `OpcodeParser.cleanse`: one piece, parsed and excised
- `OpcodeParser.cleanseAll`: all pieces, up to the first corruption
- `Hooks.Straddles`: some denied instruction is not inside one piece
-/

namespace GuacamoleDiode

open Wire Ranges

variable {σ : Type} {limit : ℕ}

namespace OpcodeParser

/-- Parse a piece and excise what was denied. `none` if the stream is corrupted. -/
def cleanse (H : Hooks σ) (p : OpcodeParser σ) (data : Bytes) : Option (Bytes × OpcodeParser σ) :=
  match p.parse H data with
  | (.streamCorrupted, _) => none
  | (.deniedData, p) =>
    let (data, len, p) := p.excise data data.length
    some (data.take len, p)
  | (_, p) => some (data, p)

/-- Cleanse the pieces of a stream in order, up to the first corruption: the outputs,
and the parser unless the stream is corrupted. -/
def cleanseAll (H : Hooks σ) : OpcodeParser σ → List Bytes → List Bytes × Option (OpcodeParser σ)
  | p, [] => ([], some p)
  | p, data :: pieces =>
    match p.cleanse H data with
    | none => ([], none)
    | some (out, p) => (out :: (cleanseAll H p pieces).1, (cleanseAll H p pieces).2)

section Piece

variable {H : Hooks σ} {s : σ} {cur cur' : Cursor limit} {p : OpcodeParser σ} {d : Bytes}
  {is : List (Instruction limit)}

theorem cleanse_of_corrupted (h : (p.parse H d).1 = .streamCorrupted) : p.cleanse H d = none := by
  unfold cleanse
  generalize p.parse H d = r at h
  obtain ⟨st, p'⟩ := r
  cases h
  rfl

theorem cleanse_of_denied (h : (p.parse H d).1 = .deniedData) :
    p.cleanse H d = some
      (((p.parse H d).2.excise d d.length).1.take ((p.parse H d).2.excise d d.length).2.1,
        ((p.parse H d).2.excise d d.length).2.2) := by
  unfold cleanse
  generalize p.parse H d = r at h
  obtain ⟨st, p'⟩ := r
  cases h
  rfl

theorem cleanse_of_clean (h₁ : (p.parse H d).1 ≠ .streamCorrupted)
    (h₂ : (p.parse H d).1 ≠ .deniedData) : p.cleanse H d = some (d, (p.parse H d).2) := by
  unfold cleanse
  generalize p.parse H d = r at h₁ h₂
  obtain ⟨st, p'⟩ := r
  cases st <;> first | rfl | exact absurd rfl h₁ | exact absurd rfl h₂

/-- What `parse` returns in a session. -/
theorem Session.returns (h : Session H s cur p) (hst : H.Stationary)
    (hlim : limit ≤ maxElementSize ∨ H.toleratesOversizedElements = true)
    (hr : cur.read d = some (is, cur')) : Returns H s cur d is cur' (p.parse H d) := by
  simpa [parse] using h.inCall.returns hst hlim hr

/-- The denied ranges have no bearing on the session. -/
theorem Session.clear (h : Session H s cur p) : Session H s cur { p with deniedRanges := [] } :=
  ⟨h.tracks, h.judged⟩

theorem InCall.session {cur₀ : Cursor limit} {l : Call} (h : InCall H s cur₀ d is cur p l)
    (hl : l.denying = false) : Session H (H.afterAll s is) cur p :=
  ⟨h.tracks, by rw [h.judged, hl]⟩

/-- The session behind a piece, and its output. -/
structure Passed (H : Hooks σ) (s : σ) (cur : Cursor limit) (is : List (Instruction limit))
    (cur' : Cursor limit) (out : Bytes) (p' : OpcodeParser σ) : Prop where
  session : Session H (H.afterAll s is) cur' p'
  kept : cur.bytes ++ out = wire (H.survivors s is) ++ cur'.bytes

/-- A piece never grows. -/
theorem Passed.length_le {out : Bytes} {p' : OpcodeParser σ} (h : Passed H s cur is cur' out p')
    (hr : cur.read d = some (is, cur')) : out.length ≤ d.length := by
  have hkept := congrArg List.length h.kept
  have hread := congrArg List.length (Cursor.read_bytes hr)
  have hsub := length_wire_le_of_sublist (H.survivors_sublist s is)
  simp only [List.length_append] at hkept hread
  omega

/-- Excision behind a call passes on the piece without its denied instructions. -/
theorem InCall.excise {l : Call} (h : InCall H s cur d is cur' p l) (hl : l.denying = false) :
    Passed H s cur is cur' ((p.excise d d.length).1.take (p.excise d d.length).2.1)
      (p.excise d d.length).2.2 := by
  have hsess := h.session hl
  refine ⟨?_, ?_⟩
  · rw [OpcodeParser.excise]
    split_ifs
    · exact hsess
    · exact hsess.clear
  · rw [excise_eq_remove p d (h.ranges.mono (Nat.sub_le d.length cur'.bytes.length))]
    exact h.kept

/-- A piece that stays inside the grammar corrupts the stream if it cuts a denied
instruction, and is passed on without its denied instructions otherwise. -/
theorem Session.cleanse (h : Session H s cur p) (hst : H.Stationary)
    (hlim : limit ≤ maxElementSize ∨ H.toleratesOversizedElements = true)
    (hr : cur.read d = some (is, cur')) :
    (H.Cuts s cur is cur' ∧ p.cleanse H d = none) ∨
      (¬H.Cuts s cur is cur' ∧
        ∃ out p', p.cleanse H d = some (out, p') ∧ Passed H s cur is cur' out p') := by
  rcases h.returns hst hlim hr with ⟨hcut, hcor⟩ | ⟨hcut, hcor, hden, l, hl, hin⟩
  · exact .inl ⟨hcut, cleanse_of_corrupted hcor⟩
  · refine .inr ⟨hcut, ?_⟩
    by_cases hd : (p.parse H d).1 = .deniedData
    · exact ⟨_, _, cleanse_of_denied hd, hin.excise hl⟩
    · have hnil : (p.parse H d).2.deniedRanges = [] := by
        by_contra hne
        exact hd (hden.mpr hne)
      refine ⟨_, _, cleanse_of_clean hcor hd, hin.session hl, ?_⟩
      have hkept := hin.kept
      rwa [hnil, remove_nil] at hkept

end Piece

/-- A piece that leaves the grammar corrupts the stream. -/
theorem Session.cleanse_none {H : Hooks σ} {s : σ} {cur : Cursor maxElementSize}
    {p : OpcodeParser σ} {d : Bytes} (h : Session H s cur p) (hst : H.Stationary)
    (htol : H.toleratesOversizedElements = false) (hr : cur.read d = none) :
    p.cleanse H d = none :=
  cleanse_of_corrupted (h.inCall.corrupts hst htol hr)

end OpcodeParser

/-- Some denied instruction does not lie inside one piece: a complete one that reaches
over a border, or the one in progress behind the last piece. -/
def Hooks.Straddles (H : Hooks σ) (s : σ) (carry : Bytes) (pieces : List Bytes)
    (is : List (Instruction limit)) (cur : Cursor limit) : Prop :=
  (∃ before i after, is = before ++ i :: after ∧ H.denies (H.afterAll s before) i = true ∧
    ¬Whole carry pieces before i) ∨
  (H.judge (H.afterAll s is) (seen cur.closed)).2 = true

namespace Hooks

variable {H : Hooks σ} {s : σ} {cur cur₁ cur' : Cursor limit} {d : Bytes} {pieces : List Bytes}
  {is is₁ : List (Instruction limit)}

/-- A piece that cuts a denied instruction decides the question. -/
theorem straddles_of_cuts (hr : cur.read d = some (is, cur₁))
    (hr' : cur₁.read pieces.flatten = some (is₁, cur')) (h : H.Cuts s cur is cur₁) :
    H.Straddles s cur.bytes (d :: pieces) (is ++ is₁) cur' := by
  rcases h with ⟨hne, i, hi, hden⟩ | hden
  · obtain ⟨js, rfl⟩ : ∃ js, is = i :: js := by
      cases is with
      | nil => simp at hi
      | cons j js => exact ⟨js, by simpa using hi⟩
    exact .inl ⟨[], i, js ++ is₁, rfl, hden, not_whole_of_carry hne _ _⟩
  · have hclosed : cur₁.closed ≠ [] := by
      intro hnil
      simp [hnil] at hden
    have hne : cur₁.bytes ≠ [] := by
      intro hnil
      exact hclosed (Cursor.eq_start_of_bytes_eq_nil hnil ▸ rfl)
    rcases Cursor.closed_read hr' with ⟨rfl, es, hes⟩ | ⟨i, hi, es, hes⟩
    · right
      rw [List.append_nil, ← hes, seen_append]
      exact H.judge_denied_append _ _ hden
    · obtain ⟨js, rfl⟩ : ∃ js, is₁ = i :: js := by
        cases is₁ with
        | nil => simp at hi
        | cons j js => exact ⟨js, by simpa using hi⟩
      refine .inl ⟨is, i, js, rfl, ?_, ?_⟩
      · rw [denies, ← hes, seen_append]
        exact H.judge_denied_append _ _ hden
      · have hw := whole_cons_iff hr pieces [] i
        rw [List.append_nil] at hw
        rw [hw]
        exact not_whole_of_carry hne pieces i

/-- A piece that cuts no denied instruction leaves the question to the pieces behind it. -/
theorem straddles_cons_iff (hr : cur.read d = some (is, cur₁)) (h : ¬H.Cuts s cur is cur₁) :
    H.Straddles s cur.bytes (d :: pieces) (is ++ is₁) cur' ↔
      H.Straddles (H.afterAll s is) cur₁.bytes pieces is₁ cur' := by
  unfold Straddles
  rw [afterAll_append]
  refine or_congr ?_ Iff.rfl
  constructor
  · rintro ⟨before, i, after, heq, hden, hwhole⟩
    rcases List.append_eq_append_iff.mp heq with ⟨bs, rfl, rfl⟩ | ⟨cs, rfl, hcs⟩
    · refine ⟨bs, i, after, rfl, by simpa using hden, ?_⟩
      rwa [whole_cons_iff hr] at hwhole
    · cases cs with
      | nil =>
        refine ⟨[], i, after, by simpa using hcs.symm, by simpa using hden, ?_⟩
        have hw := whole_cons_iff hr pieces [] i
        rw [List.append_nil, List.append_nil] at hw
        rwa [hw] at hwhole
      | cons j cs =>
        -- an instruction of this piece: it would be inside it, or be cut
        obtain ⟨rfl, -⟩ : i = j ∧ after = cs ++ is₁ := by simpa using hcs
        exfalso
        refine hwhole (whole_cons_of_read hr ?_ pieces)
        intro hnil
        subst hnil
        by_contra hne
        exact h (.inl ⟨hne, i, rfl, hden⟩)
  · rintro ⟨before, i, after, rfl, hden, hwhole⟩
    refine ⟨is ++ before, i, after, by simp, by simpa using hden, ?_⟩
    rwa [whole_cons_iff hr]

end Hooks

namespace OpcodeParser

variable {H : Hooks σ} {s : σ}

section Lenient

variable {cur cur' : Cursor limit} {p : OpcodeParser σ} {pieces : List Bytes}
  {is : List (Instruction limit)}

theorem cleanseAll_cons_none {d : Bytes} (h : p.cleanse H d = none) :
    p.cleanseAll H (d :: pieces) = ([], none) := by
  rw [cleanseAll, h]

theorem cleanseAll_cons_some {d out : Bytes} {p' : OpcodeParser σ}
    (h : p.cleanse H d = some (out, p')) :
    p.cleanseAll H (d :: pieces) =
      (out :: (p'.cleanseAll H pieces).1, (p'.cleanseAll H pieces).2) := by
  rw [cleanseAll, h]

/-- A stream that stays inside the grammar is corrupted if and only if a denied
instruction straddles; otherwise it is passed on without its denied instructions. -/
theorem Session.cleanseAll (h : Session H s cur p) (hst : H.Stationary)
    (hlim : limit ≤ maxElementSize ∨ H.toleratesOversizedElements = true)
    (hr : cur.read pieces.flatten = some (is, cur')) :
    (H.Straddles s cur.bytes pieces is cur' ∧ (p.cleanseAll H pieces).2 = none) ∨
      (¬H.Straddles s cur.bytes pieces is cur' ∧ ∃ p', (p.cleanseAll H pieces).2 = some p' ∧
        Passed H s cur is cur' (p.cleanseAll H pieces).1.flatten p') := by
  induction pieces generalizing s cur p is with
  | nil =>
    cases hr
    refine .inr ⟨?_, p, rfl, h, by simp [Hooks.survivors, OpcodeParser.cleanseAll]⟩
    rintro (⟨before, i, after, heq, -⟩ | hden)
    · simp at heq
    · simp [h.judged] at hden
  | cons d pieces ih =>
    obtain ⟨⟨is₁, cur₁⟩, hr₁⟩ := Cursor.exists_read_of_read_append hr
    rw [List.flatten_cons, Cursor.read_append_of_eq_some hr₁, Option.map_eq_some_iff] at hr
    obtain ⟨⟨is₂, cur₂⟩, hr₂, heq⟩ := hr
    cases heq
    rcases h.cleanse hst hlim hr₁ with ⟨hcut, hc⟩ | ⟨hcut, out, p₁, hc, hpass⟩
    · exact .inl ⟨Hooks.straddles_of_cuts hr₁ hr₂ hcut, by rw [cleanseAll_cons_none hc]⟩
    · rw [Hooks.straddles_cons_iff hr₁ hcut, cleanseAll_cons_some hc]
      rcases ih hpass.session hr₂ with hbad | ⟨hok, p', hp', hpass'⟩
      · exact .inl hbad
      · refine .inr ⟨hok, p', hp', ?_, ?_⟩
        · rw [Hooks.afterAll_append]
          exact hpass'.session
        · rw [List.flatten_cons, ← List.append_assoc, hpass.kept, List.append_assoc, hpass'.kept,
            Hooks.survivors_append, wire_append, List.append_assoc]

/-- Pieces behind a corruption change nothing. -/
theorem cleanseAll_append_of_none {pieces' : List Bytes} (h : (p.cleanseAll H pieces).2 = none) :
    p.cleanseAll H (pieces ++ pieces') = p.cleanseAll H pieces := by
  induction pieces generalizing p with
  | nil => simp [OpcodeParser.cleanseAll] at h
  | cons d pieces ih =>
    cases hc : p.cleanse H d with
    | none => rw [List.cons_append, cleanseAll_cons_none hc, cleanseAll_cons_none hc]
    | some r =>
      rw [cleanseAll_cons_some hc] at h
      rw [List.cons_append, cleanseAll_cons_some hc, cleanseAll_cons_some hc, ih h]

/-- The pieces behind a part of the stream start from the parser it has left. -/
theorem cleanseAll_append_of_some {pieces' : List Bytes} {p' : OpcodeParser σ}
    (h : (p.cleanseAll H pieces).2 = some p') :
    p.cleanseAll H (pieces ++ pieces') =
      ((p.cleanseAll H pieces).1 ++ (p'.cleanseAll H pieces').1, (p'.cleanseAll H pieces').2) := by
  induction pieces generalizing p with
  | nil =>
    cases h
    rfl
  | cons d pieces ih =>
    cases hc : p.cleanse H d with
    | none => simp [cleanseAll_cons_none hc] at h
    | some r =>
      rw [cleanseAll_cons_some hc] at h
      rw [List.cons_append, cleanseAll_cons_some hc, cleanseAll_cons_some hc, ih h]
      rfl

end Lenient

/-- The piece in which a stream leaves the grammar is not passed on, and nothing behind it. -/
theorem Session.cleanseAll_none {cur : Cursor maxElementSize} {p : OpcodeParser σ}
    (h : Session H s cur p) (hst : H.Stationary) (htol : H.toleratesOversizedElements = false)
    {pieces pieces' : List Bytes} {d : Bytes} (hr : cur.read (pieces.flatten ++ d) = none) :
    p.cleanseAll H (pieces ++ d :: pieces') = ((p.cleanseAll H pieces).1, none) := by
  cases hp : (p.cleanseAll H pieces).2 with
  | none => rw [cleanseAll_append_of_none hp, ← hp]
  | some p' =>
    suffices hc : p'.cleanse H d = none by
      rw [cleanseAll_append_of_some hp, cleanseAll_cons_none hc, List.append_nil]
    induction pieces generalizing s cur p with
    | nil =>
      cases hp
      exact h.cleanse_none hst htol (by simpa using hr)
    | cons d₁ pieces ih =>
      cases hr₁ : cur.read d₁ with
      | none => simp [cleanseAll_cons_none (h.cleanse_none hst htol hr₁)] at hp
      | some r =>
        obtain ⟨is₁, cur₁⟩ := r
        rw [List.flatten_cons, List.append_assoc, Cursor.read_append_of_eq_some hr₁,
          Option.map_eq_none_iff] at hr
        rcases h.cleanse hst (.inl le_rfl) hr₁ with ⟨-, hc⟩ | ⟨-, out, p₁, hc, hpass⟩
        · simp [cleanseAll_cons_none hc] at hp
        · rw [cleanseAll_cons_some hc] at hp
          exact ih hpass.session hr hp

end OpcodeParser

end GuacamoleDiode
