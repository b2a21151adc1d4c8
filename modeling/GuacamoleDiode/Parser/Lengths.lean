import GuacamoleDiode.Parser.Resync
import GuacamoleDiode.Parser.Tracking
import Mathlib.Tactic.Push

/-!
# The length of an element in 64 bits

The source keeps the declared length of an element in a signed 64-bit integer and adds a digit
by `current_length * 10 + (c - '0')`. A class that does not tolerate oversized elements stops
right behind the first digit that exceeds its limit. The others add every digit that comes.

The integers of the model are unbounded. Up to the first evaluation that leaves 64 bits they are
those of the source; from there on the source has no meaning.

## Main definitions

- `OpcodeParser.evaluation`: the value that a digit gives to the length
- `OpcodeParser.steps`: the turns of the byte loop in one call
- `ReadsLength`: some turns read the digits of one length
- `LengthsExact`: no evaluation overflows, and every length is the number its digits denote
- `Moderate`: no length has more digits than 64 bits can hold
- `Traced`: a length in progress comes from the turn before

## Main results

- `OpcodeParser.Traced.parse`, `OpcodeParser.Traced.resync`
- `OpcodeParser.Traced.lengthsExact_iff`
-/

namespace GuacamoleDiode

open Wire

/-- The largest signed 64-bit integer. -/
def int64Max : ℕ := 9223372036854775807

/-- A signed 64-bit integer. -/
def InInt64 (x : ℤ) : Prop := -(int64Max + 1 : ℤ) ≤ x ∧ x ≤ int64Max

instance (x : ℤ) : Decidable (InInt64 x) := inferInstanceAs (Decidable (_ ∧ _))

/-- A turn of the byte loop: the parser in front of it, and the byte. -/
abbrev Step (σ : Type) := OpcodeParser σ × UInt8

variable {σ : Type}

namespace OpcodeParser

/-- The value of `current_length * 10 + digit`, if the byte is a digit of a length. -/
def evaluation (p : OpcodeParser σ) (c : UInt8) : Option ℤ :=
  if p.state = .readingLength ∧ isDigit c = true then
    some ((if p.currentLength = -1 then 0 else p.currentLength) * 10 + digitValue c)
  else none

/-- The turns of the byte loop from index `i` on. -/
def stepsFrom (H : Hooks σ) : ℕ → Bytes → OpcodeParser σ → Call → List (Step σ)
  | _, [], _, _ => []
  | i, c :: cs, p, l => (p, c) ::
    match p.turn H i c l with
    | .next p l => stepsFrom H (i + 1) cs p l
    | .ret _ => []

/-- The turns of one call of `parse`. -/
def steps (H : Hooks σ) (p : OpcodeParser σ) (data : Bytes) : List (Step σ) :=
  stepsFrom H 0 data { p with deniedRanges := [] } {}

/-- The turns of the loop of a faker. -/
def resyncSteps (H : Hooks σ) : ℕ → OpcodeParser σ → Bytes → List (Step σ)
  | 0, _, _ => []
  | fuel + 1, p, data =>
    if data = [] then []
    else
      let r := p.parse H data
      p.steps H data ++
        if r.1 = .streamCorrupted then
          resyncSteps H fuel r.2.reset (data.drop (r.2.currentIndex + 1))
        else []

end OpcodeParser

/-- Some turns read the digits of one length, from its first digit on. -/
structure ReadsLength (run : List (Step σ)) : Prop where
  digits : ∀ s ∈ run, s.1.state = .readingLength ∧ isDigit s.2 = true
  begins : ∀ s ∈ run.head?, s.1.currentLength = -1
  continues : ∀ s ∈ run.tail, s.1.currentLength ≠ -1

/-- The bytes of some turns. -/
def bytesOf (run : List (Step σ)) : Bytes := run.map Prod.snd

/-- No evaluation overflows, and what a digit makes of a length is the number that its digits
denote so far. -/
structure LengthsExact (steps : List (Step σ)) : Prop where
  in_range : ∀ s ∈ steps, ∀ x ∈ s.1.evaluation s.2, InInt64 x
  decimal : ∀ before run s after, steps = before ++ (run ++ [s]) ++ after →
    ReadsLength (run ++ [s]) → s.1.evaluation s.2 = some (declared (bytesOf (run ++ [s])) : ℤ)

/-- The digits of every length denote a number that fits into 64 bits. -/
def Moderate (steps : List (Step σ)) : Prop :=
  ∀ before run after, steps = before ++ run ++ after → ReadsLength run →
    declared (bytesOf run) ≤ int64Max

namespace OpcodeParser

/-- Behind some turns, a length in progress is what the last of them has made of its digit. -/
def Behind (H : Hooks σ) (steps : List (Step σ)) (q : OpcodeParser σ) : Prop :=
  q.state = .readingLength → q.currentLength = -1 ∨
    (∃ s, steps.getLast? = some s ∧ s.1.evaluation s.2 = some q.currentLength) ∧
      (H.toleratesOversizedElements = false → q.currentLength ≤ maxElementSize)

/-- Some turns and the parser behind them. -/
structure Traced (H : Hooks σ) (steps : List (Step σ)) (q : OpcodeParser σ) : Prop where
  each : ∀ before s after, steps = before ++ s :: after → Behind H before s.1
  behind : Behind H steps q

section

variable {H : Hooks σ} {p q : OpcodeParser σ} {steps : List (Step σ)}

/-- The other members of the parser do not matter, nor does where it goes from a length. -/
theorem Traced.congr (h : Traced H steps p)
    (hq : q.state = .readingLength →
      q.currentLength = -1 ∨ p.state = .readingLength ∧ q.currentLength = p.currentLength) :
    Traced H steps q := by
  refine ⟨h.each, fun hstate => ?_⟩
  rcases hq hstate with hnone | ⟨hstate', hsame⟩
  · exact .inl hnone
  · rw [hsame]
    exact h.behind hstate'

theorem traced_nil (h : p.currentLength = -1) : Traced H [] p := by
  refine ⟨fun before s after heq => ?_, fun _ => .inl h⟩
  cases before <;> cases heq

/-- What a digit leaves of a length that goes on. -/
theorem behind_readLength (hstate : p.state = .readingLength) (steps : List (Step σ)) (i j : ℕ)
    (c : UInt8) (l : Call) :
    Behind H (steps ++ [(p, c)]) ({ p with currentIndex := j }.readLength H i c l).parser := by
  rw [readLength]
  by_cases hdigit : isDigit c = true
  · have hvalue : p.evaluation c =
        some ((if (p.currentLength == -1) = true then 0 else p.currentLength) * 10 + digitValue c) := by
      simp [evaluation, hstate, hdigit]
    rw [if_pos hdigit]
    dsimp only
    generalize (if (p.currentLength == -1) = true then 0 else p.currentLength) * 10 +
      (digitValue c : ℤ) = x at hvalue ⊢
    by_cases hlimit : (maxElementSize : ℤ) < x ∧ H.toleratesOversizedElements = false
    · rw [if_pos hlimit]
      intro hcorrupt
      cases hcorrupt
    · rw [if_neg hlimit]
      refine fun _ => .inr ⟨⟨(p, c), List.getLast?_concat, hvalue⟩, fun htol => ?_⟩
      exact Int.not_lt.mp fun hlt => hlimit ⟨hlt, htol⟩
  · rw [if_neg hdigit]
    -- the dot closes the length, and any other byte corrupts the stream
    split_ifs <;> intro hleft <;> cases hleft

/-- One turn. -/
theorem Traced.turn (h : Traced H steps p) (i : ℕ) (c : UInt8) (l : Call) :
    Traced H (steps ++ [(p, c)]) (p.turn H i c l).parser := by
  constructor
  · intro before s after heq
    rcases List.eq_nil_or_concat after with rfl | ⟨init, last, rfl⟩
    · obtain ⟨rfl, hs⟩ := List.append_inj' heq rfl
      cases hs
      exact h.behind
    · rw [List.concat_eq_append, ← List.cons_append, ← List.append_assoc] at heq
      obtain ⟨rfl, -⟩ := List.append_inj' heq rfl
      exact h.each before s init rfl
  · cases hstate : p.state with
    | readingLength =>
      rw [turn_readingLength hstate]
      exact behind_readLength hstate steps i i c l
    | readingData =>
      have hleft : ({ p with currentIndex := i }.readData c l).parser.state ≠ .readingLength := by
        rw [readData]
        split_ifs <;> simp [Turn.parser, corrupt, hstate]
      rw [turn_readingData hstate]
      exact fun hstate' => absurd hstate' hleft
    | expectDelim =>
      rw [turn_expectDelim hstate, OpcodeParser.expectDelim]
      have hclosed : ∀ (r : OpcodeParser σ) (l : Call),
          Behind H (steps ++ [(p, c)]) (r.closeElement H i c l).parser := by
        intro r l _
        left
        rw [closeElement]
        dsimp only
        split_ifs <;> rfl
      dsimp only
      split_ifs
      · intro hcorrupt
        cases hcorrupt
      · exact hclosed _ _
      · exact hclosed _ _
      · intro hcorrupt
        cases hcorrupt
      · exact hclosed _ _
    | streamCorrupted =>
      rw [OpcodeParser.turn, hstate]
      intro hnot
      cases hnot
    | deniedData =>
      rw [OpcodeParser.turn, hstate]
      intro hnot
      cases hnot

theorem Traced.parseFrom (h : Traced H steps p) (data : Bytes) (i : ℕ) (l : Call) :
    Traced H (steps ++ p.stepsFrom H i data l) (p.parseFrom H i data l).2 := by
  induction data generalizing steps p i l with
  | nil =>
    rw [stepsFrom, List.append_nil, OpcodeParser.parseFrom, finish]
    apply h.congr
    split_ifs
    · intro hcorrupt
      cases hcorrupt
    · exact fun hstate => .inr ⟨hstate, rfl⟩
    · exact fun hstate => .inr ⟨hstate, rfl⟩
  | cons c data ih =>
    have hturn := h.turn i c l
    rw [stepsFrom, OpcodeParser.parseFrom, List.append_cons]
    cases hnext : p.turn H i c l with
    | next q l' =>
      rw [hnext] at hturn
      exact ih hturn (i + 1) l'
    | ret q =>
      rw [hnext] at hturn
      rw [List.append_nil]
      exact hturn

theorem Traced.parse (h : Traced H steps p) (data : Bytes) :
    Traced H (steps ++ p.steps H data) (p.parse H data).2 := by
  have hcleared : Traced H steps { p with deniedRanges := [] } :=
    h.congr fun hstate => .inr ⟨hstate, rfl⟩
  exact hcleared.parseFrom data 0 {}

theorem Traced.reset (h : Traced H steps p) : Traced H steps p.reset :=
  h.congr fun _ => .inl rfl

theorem Traced.resync (h : Traced H steps p) (fuel : ℕ) (data : Bytes) :
    Traced H (steps ++ p.resyncSteps H fuel data) (p.resync H fuel data) := by
  induction fuel generalizing steps p data with
  | zero =>
    rw [resyncSteps, List.append_nil]
    exact h
  | succ fuel ih =>
    rw [resyncSteps, OpcodeParser.resync]
    by_cases hdata : data = []
    · rw [if_pos hdata, if_pos hdata, List.append_nil]
      exact h
    · rw [if_neg hdata, if_neg hdata]
      have hparse := h.parse data
      dsimp only
      by_cases hcorrupt : (p.parse H data).1 = .streamCorrupted
      · rw [if_pos hcorrupt, if_pos hcorrupt, ← List.append_assoc]
        exact ih hparse.reset _
      · rw [if_neg hcorrupt, if_neg hcorrupt, List.append_nil]
        exact hparse

-- ════════════════════════════════════════════════════════════════════════
-- What the evaluations amount to
-- ════════════════════════════════════════════════════════════════════════

theorem digit_of_evaluation {c : UInt8} {x : ℤ} (h : p.evaluation c = some x) :
    p.state = .readingLength ∧ isDigit c = true := by
  by_contra hno
  rw [evaluation, if_neg hno] at h
  cases h

/-- A number has been read up to a digit if the length in front of it is that number. -/
theorem evaluation_eq {s : Step σ} (digits : Bytes)
    (hs : s.1.state = .readingLength ∧ isDigit s.2 = true)
    (h : (if s.1.currentLength = -1 then 0 else s.1.currentLength) = (declared digits : ℤ)) :
    s.1.evaluation s.2 = some (declared (digits ++ [s.2]) : ℤ) := by
  rw [evaluation, if_pos hs, h, declared_append_singleton]
  push_cast
  rfl

/-- The last digit of a length makes it the number that its digits denote. -/
theorem Traced.decimal (h : Traced H steps q) {before run after : List (Step σ)} {s : Step σ}
    (heq : steps = before ++ (run ++ [s]) ++ after) (hrun : ReadsLength (run ++ [s])) :
    s.1.evaluation s.2 = some (declared (bytesOf (run ++ [s])) : ℤ) := by
  induction run using List.reverseRecOn generalizing s after with
  | nil =>
    have hs := hrun.digits s (by simp)
    have hfirst := hrun.begins s (by simp)
    exact evaluation_eq [] hs (by rw [if_pos hfirst]; rfl)
  | append_singleton run t ih =>
    have hs := hrun.digits s (by simp)
    have hgoes : s.1.currentLength ≠ -1 := hrun.continues s (by cases run <;> simp)
    have hinit : ReadsLength (run ++ [t]) := by
      refine ⟨fun u hu => hrun.digits u (List.mem_append_left _ hu), fun u hu => ?_, fun u hu => ?_⟩
      · exact hrun.begins u (by cases run <;> simpa using hu)
      · exact hrun.continues u (by cases run <;> simp at hu ⊢; tauto)
    have ht := @ih (s :: after) t (by simp [heq]) hinit
    rcases h.each (before ++ (run ++ [t])) s after (by simp [heq]) hs.1 with hnone | ⟨⟨u, hu, hvalue⟩, -⟩
    · exact absurd hnone hgoes
    · obtain rfl : t = u := by simpa using hu
      have hlength : (declared (bytesOf (run ++ [t])) : ℤ) = s.1.currentLength :=
        Option.some.inj (ht.symm.trans hvalue)
      have hbytes : bytesOf (run ++ [t] ++ [s]) = bytesOf (run ++ [t]) ++ [s.2] := by
        simp [bytesOf]
      rw [hbytes]
      apply evaluation_eq _ hs
      rw [if_neg hgoes, hlength]

theorem readsLength_snoc {run : List (Step σ)} {t s : Step σ} (h : ReadsLength (run ++ [t]))
    (hs : s.1.state = .readingLength ∧ isDigit s.2 = true) (hgoes : s.1.currentLength ≠ -1) :
    ReadsLength (run ++ [t] ++ [s]) := by
  refine ⟨fun u hu => ?_, fun u hu => ?_, fun u hu => ?_⟩
  · rcases List.mem_append.mp hu with hu | hu
    · exact h.digits u hu
    · rw [List.mem_singleton.mp hu]
      exact hs
  · exact h.begins u (by cases run <;> simpa using hu)
  · have htail : (run ++ [t] ++ [s]).tail = (run ++ [t]).tail ++ [s] := by cases run <;> simp
    rw [htail] at hu
    rcases List.mem_append.mp hu with hu | hu
    · exact h.continues u hu
    · rw [List.mem_singleton.mp hu]
      exact hgoes

/-- Every evaluation belongs to a length that has been read from its first digit on. -/
theorem Traced.exists_run (h : Traced H steps q) {before after : List (Step σ)} {s : Step σ}
    (heq : steps = before ++ s :: after) (hs : s.1.state = .readingLength ∧ isDigit s.2 = true) :
    ∃ init run, before = init ++ run ∧ ReadsLength (run ++ [s]) := by
  induction before using List.reverseRecOn generalizing s after with
  | nil =>
    rcases h.each [] s after heq hs.1 with hfirst | ⟨⟨u, hu, -⟩, -⟩
    · exact ⟨[], [], rfl, by simpa using hs, by simpa using hfirst, by simp⟩
    · cases hu
  | append_singleton before t ih =>
    by_cases hfirst : s.1.currentLength = -1
    · exact ⟨before ++ [t], [], by simp, by simpa using hs, by simpa using hfirst, by simp⟩
    · rcases h.each (before ++ [t]) s after heq hs.1 with hnone | ⟨⟨u, hu, hvalue⟩, -⟩
      · exact absurd hnone hfirst
      · obtain rfl : t = u := by simpa using hu
        obtain ⟨init, run, rfl, hrun⟩ :=
          @ih (s :: after) t (by simp [heq]) (digit_of_evaluation hvalue)
        exact ⟨init, run ++ [t], by simp, readsLength_snoc hrun hs hfirst⟩

theorem digitValue_le {c : UInt8} (h : isDigit c = true) : digitValue c ≤ 9 := by
  simp only [isDigit, Bool.and_eq_true, decide_eq_true_eq, UInt8.le_iff_toNat_le] at h
  have hc : c.toNat ≤ 57 := h.2
  rw [digitValue]
  omega

/-- A class that does not tolerate oversized elements adds a digit to an admissible length only. -/
theorem Traced.evaluation_le (h : Traced H steps q) (htol : H.toleratesOversizedElements = false)
    {before after : List (Step σ)} {s : Step σ} (heq : steps = before ++ s :: after) {x : ℤ}
    (hx : s.1.evaluation s.2 = some x) : x ≤ 10 * maxElementSize + 9 := by
  have hs := digit_of_evaluation hx
  rw [evaluation, if_pos hs] at hx
  have hvalue := Option.some.inj hx
  have hdigit := digitValue_le hs.2
  have hsize : (0 : ℤ) ≤ maxElementSize := Int.natCast_nonneg _
  rcases h.each before s after heq hs.1 with hnone | ⟨-, hle⟩
  · rw [if_pos hnone] at hvalue
    omega
  · have hlength := hle htol
    split_ifs at hvalue <;> omega

/-- Overflow is a matter of the digits alone, and only for a class that tolerates oversized
elements. -/
theorem Traced.lengthsExact_iff (h : Traced H steps q) :
    LengthsExact steps ↔ (H.toleratesOversizedElements = true → Moderate steps) := by
  constructor
  · intro hexact _ before run after heq hrun
    rcases List.eq_nil_or_concat run with rfl | ⟨init, s, rfl⟩
    · exact Nat.zero_le _
    · rw [List.concat_eq_append] at heq hrun ⊢
      have hvalue := hexact.decimal before init s after heq hrun
      have hrange := hexact.in_range s (by simp [heq]) _ hvalue
      exact Int.ofNat_le.mp hrange.2
  · intro hmoderate
    refine ⟨fun s hs x hx => ?_, fun before run s after heq hrun => h.decimal heq hrun⟩
    obtain ⟨before, after, heq⟩ := List.append_of_mem hs
    have hx : s.1.evaluation s.2 = some x := hx
    obtain ⟨init, run, rfl, hrun⟩ := h.exists_run heq (digit_of_evaluation hx)
    have hsplit : steps = init ++ (run ++ [s]) ++ after := by simp [heq]
    have hvalue : x = declared (bytesOf (run ++ [s])) :=
      Option.some.inj (hx.symm.trans (h.decimal hsplit hrun))
    have hnonneg : 0 ≤ x := hvalue ▸ Int.natCast_nonneg _
    suffices hle : x ≤ int64Max from ⟨by simp only [int64Max]; omega, hle⟩
    cases htol : H.toleratesOversizedElements with
    | true =>
      rw [hvalue]
      exact Int.ofNat_le.mpr (hmoderate htol init (run ++ [s]) after hsplit hrun)
    | false =>
      have hbound := h.evaluation_le htol heq hx
      simp only [maxElementSize, int64Max] at hbound ⊢
      omega

end

end OpcodeParser

end GuacamoleDiode
