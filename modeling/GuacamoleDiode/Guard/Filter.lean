import GuacamoleDiode.Guard.Policy
import GuacamoleDiode.Lib.Decimal
import GuacamoleDiode.Bridge.Multiplexer

/-!
# The guard as a filter

What the parser of a channel makes of a stream that arrives in pieces, in terms of
the policy alone.
-/

namespace GuacamoleDiode

open Wire Policy

namespace GuardOpcodeParser

/-- The pieces of a stream through a fresh parser: the bytes passed on for each piece,
and the parser unless the stream has been corrupted. -/
def filter (pieces : List Bytes) : List Bytes × Option (OpcodeParser GuardMembers) :=
  fresh.cleanseAll hooks pieces

/-- An instruction on which the policy has reached a denial is not a complete one that
lies inside one piece. -/
def Straddles (pieces : List Bytes) (is : List (Instruction maxElementSize))
    (cur : Cursor maxElementSize) : Prop :=
  (∃ before i after, is = before ++ i :: after ∧
    violates (Policy.after none before) i.values = true ∧ ¬Whole [] pieces before i) ∨
  violates (Policy.after none is) cur.values = true

theorem straddles_iff (pieces : List Bytes) (is : List (Instruction maxElementSize))
    (cur : Cursor maxElementSize) : hooks.Straddles {} [] pieces is cur ↔ Straddles pieces is cur := by
  simp only [Hooks.Straddles, Straddles, denies_eq, openStream_afterAll, judge_closed]
  rfl

/-- A stream that stays inside the grammar. -/
theorem filter_eq {pieces : List Bytes} {is : List (Instruction maxElementSize)}
    {cur : Cursor maxElementSize} (h : pieces.flatten = wire is ++ cur.bytes) :
    ((filter pieces).2 = none ↔ Straddles pieces is cur) ∧
      ((filter pieces).2 ≠ none → (filter pieces).1.flatten = wire (allowed none is) ++ cur.bytes) := by
  have hr := Cursor.read_start_eq_some_iff.mpr h
  rw [← straddles_iff]
  rcases session_fresh.cleanseAll stationary (.inl le_rfl) hr with ⟨hbad, hnone⟩ | ⟨hok, p', hp', hpass⟩
  · have hnone : (filter pieces).2 = none := hnone
    exact ⟨iff_of_true hnone hbad, fun hne => absurd hnone hne⟩
  · have hp' : (filter pieces).2 = some p' := hp'
    refine ⟨iff_of_false (by simp [hp']) hok, fun _ => ?_⟩
    have hkept := hpass.kept
    rwa [survivors_eq] at hkept

/-- A stream that leaves the grammar. -/
theorem filter_offending {pieces : List Bytes}
    (h : (Cursor.start : Cursor maxElementSize).read pieces.flatten = none) :
    ∃ pre good bad rest post, pieces = pre ++ (good ++ bad :: rest) :: post ∧
      (∃ r, (Cursor.start : Cursor maxElementSize).read (pre.flatten ++ good) = some r) ∧
      (Cursor.start : Cursor maxElementSize).read (pre.flatten ++ good ++ [bad]) = none ∧
      filter pieces = ((filter pre).1, none) := by
  obtain ⟨pre, good, bad, rest, post, rfl, hgood, hbad⟩ := Cursor.exists_offending h
  refine ⟨pre, good, bad, rest, post, rfl, hgood, hbad, ?_⟩
  have hpiece : (Cursor.start : Cursor maxElementSize).read
      (pre.flatten ++ (good ++ bad :: rest)) = none := by
    have hsplit : pre.flatten ++ (good ++ bad :: rest) =
        pre.flatten ++ good ++ [bad] ++ rest := by simp
    rw [hsplit, Cursor.read_append, hbad]
    rfl
  exact session_fresh.cleanseAll_none stationary rfl hpiece

/-- The exact behaviour of the filter on every stream and every way of cutting it.
A stream of instructions is corrupted exactly when a denied instruction straddles, and
without corruption just the denied instructions are missing. A stream that leaves the
grammar is corrupted, and neither the piece with the first offending byte nor anything
behind it is passed on. -/
theorem filter_exact (pieces : List Bytes) :
    ((∃ is : List (Instruction maxElementSize), pieces.flatten <+: wire is) →
      ∃ (is : List (Instruction maxElementSize)) (cur : Cursor maxElementSize),
        pieces.flatten = wire is ++ cur.bytes ∧
        ((filter pieces).2 = none ↔ Straddles pieces is cur) ∧
        ((filter pieces).2 ≠ none →
          (filter pieces).1.flatten = wire (allowed none is) ++ cur.bytes)) ∧
    ((¬∃ is : List (Instruction maxElementSize), pieces.flatten <+: wire is) →
      ∃ pre good bad rest post, pieces = pre ++ (good ++ bad :: rest) :: post ∧
        (∃ is : List (Instruction maxElementSize), pre.flatten ++ good <+: wire is) ∧
        (¬∃ is : List (Instruction maxElementSize), pre.flatten ++ good ++ [bad] <+: wire is) ∧
        filter pieces = ((filter pre).1, none)) := by
  constructor
  · intro h
    obtain ⟨⟨is, cur⟩, hr⟩ := Cursor.exists_read_iff.mpr h
    have hw := Cursor.read_start_eq_some_iff.mp hr
    exact ⟨is, cur, hw, filter_eq hw⟩
  · intro h
    rw [Cursor.not_prefix_iff] at h
    obtain ⟨pre, good, bad, rest, post, heq, hgood, hbad, hfilter⟩ := filter_offending h
    exact ⟨pre, good, bad, rest, post, heq, Cursor.exists_read_iff.mp hgood,
      Cursor.not_prefix_iff.mpr hbad, hfilter⟩

/-- A `blob` on the open clipboard stream whose payload exceeds the cap. -/
def oversizedBlob (stream : Option ℕ) : List Bytes → Bool
  | opcode :: index :: payload :: _ =>
    opcode = ascii "blob" && streamIndex index ≠ none && streamIndex index = stream &&
      maxClipboardBytes < payload.length
  | _ => false

theorem violates_of_oversizedBlob {stream : Option ℕ} {vs : List Bytes}
    (h : oversizedBlob stream vs = true) : violates stream vs = true := by
  match vs with
  | [] | [_] | [_, _] => simp [oversizedBlob] at h
  | opcode :: index :: payload :: args =>
    simp only [oversizedBlob, Bool.and_eq_true, decide_eq_true_eq] at h
    obtain ⟨⟨⟨hop, -⟩, -⟩, hlong⟩ := h
    simp [violates, blobViolates, hop, hlong]

/-- A session with oversized pastes survives, and loses just those, if and only if each of
them lies inside one payload. -/
theorem filter_oversized_iff (is : List (Instruction maxElementSize)) (honly : Only oversizedBlob none is)
    (pieces : List Bytes) (hcut : pieces.flatten = wire is) :
    ((filter pieces).2 ≠ none ∧ (filter pieces).1.flatten = wire (without oversizedBlob none is)) ↔
      ∀ before i after, is = before ++ i :: after →
        oversizedBlob (Policy.after none before) i.values = true → Whole [] pieces before i := by
  have hcut' : pieces.flatten = wire is ++ (Cursor.start : Cursor maxElementSize).bytes := by
    simp [hcut]
  obtain ⟨hcor, hout⟩ := filter_eq hcut'
  have hsame := honly.without_eq fun _ _ => violates_of_oversizedBlob
  constructor
  · rintro ⟨hne, -⟩ before i after heq hbig
    by_contra hwhole
    exact hne (hcor.mpr (.inl ⟨before, i, after, heq, violates_of_oversizedBlob hbig, hwhole⟩))
  · intro h
    have hne : (filter pieces).2 ≠ none := by
      intro hnone
      rcases hcor.mp hnone with ⟨before, i, after, heq, hviol, hwhole⟩ | hviol
      · exact hwhole (h before i after heq (honly before i after heq hviol))
      · simp [violates] at hviol
    refine ⟨hne, ?_⟩
    rw [hout hne, hsame]
    simp

/-- A clipboard stream with one paste of 67 characters. -/
def paste : List (Instruction maxElementSize) :=
  [.ofValues [ascii "clipboard", ascii "0", ascii "text/plain"] (by decide) (by decide +kernel),
    .ofValues [ascii "blob", ascii "0", List.replicate 67 65] (by decide) (by decide +kernel)]

theorem only_oversizedBlob_paste : Only oversizedBlob none paste := by
  intro before i after h
  rcases before with _ | ⟨a, _ | ⟨b, before⟩⟩
  · cases h
    decide
  · cases h
    decide
  · simp [paste] at h

/-- In one payload, the paste is removed and the session goes on. -/
theorem filter_paste_whole :
    Only oversizedBlob none paste ∧ [wire paste].flatten = wire paste ∧
      ((filter [wire paste]).2 ≠ none ∧
        (filter [wire paste]).1.flatten = wire (without oversizedBlob none paste) ↔
          ∀ before i after, paste = before ++ i :: after →
            oversizedBlob (Policy.after none before) i.values = true →
              Whole [] [wire paste] before i) :=
  ⟨only_oversizedBlob_paste, by simp, 
    filter_oversized_iff paste only_oversizedBlob_paste [wire paste] (by simp)⟩

/-- The paste kills the session when it is cut between two payloads. -/
theorem filter_paste_cut :
    Only oversizedBlob none paste ∧
      [(wire paste).take 60, (wire paste).drop 60].flatten = wire paste ∧
      (∀ d ∈ [(wire paste).take 60, (wire paste).drop 60],
        d.length ≤ Multiplexer.maxPayloadSize) ∧
      (filter [(wire paste).take 60, (wire paste).drop 60]).2 = none := by
  refine ⟨only_oversizedBlob_paste, by simp, by decide +kernel, by decide +kernel⟩

end GuardOpcodeParser

end GuacamoleDiode
