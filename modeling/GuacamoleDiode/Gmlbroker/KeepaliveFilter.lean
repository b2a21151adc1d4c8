import GuacamoleDiode.Guard.Filter

/-!
# The keepalive filter in front of the guard

gmlbroker swallows the `sync` and `nop` of the browser before a read crosses the
bridge. The filter fails open: a read that it cannot analyse is forwarded as it is,
and the filter starts over at the next read. This module follows a browser stream
through the filter and the parser of the guard in series.
-/

namespace GuacamoleDiode

open Wire Policy

namespace ForwardKeepaliveFilter

/-- The opcodes that the brokers handle themselves. -/
def isKeepalive (opcode : Bytes) : Bool := opcode == ascii "sync" || opcode == ascii "nop"

/-- The hooks of `ForwardKeepaliveFilter`, which has no members of its own. -/
def hooks : Hooks Unit where
  onInstructionBegin := fun instr s => (!isKeepalive instr, s)
  toleratesOversizedElements := true

def fresh : OpcodeParser Unit := { members := () }

/-- `ForwardKeepaliveFilter::Filter`: what is left of the buffer, and the filter. -/
def filter (p : OpcodeParser Unit) (data : Bytes) : Bytes × OpcodeParser Unit :=
  match p.parse hooks data with
  -- fail open
  | (.streamCorrupted, p) => (data, p.reset)
  | (_, p) =>
    let (data, len, p) := p.excise data data.length
    (data.take len, p)

/-- The payloads that cross the bridge for the reads of an established session. -/
def payloads : OpcodeParser Unit → List Bytes → List Bytes
  | _, [] => []
  | p, data :: reads =>
    let r := filter p data
    if r.1 = [] then payloads r.2 reads else r.1 :: payloads r.2 reads

/-- A `sync` or `nop`, whatever stream is open. -/
def keepalive (_ : Option ℕ) : List Bytes → Bool
  | [] => false
  | opcode :: _ => isKeepalive opcode

/-- The filter denies keepalives as soon as their opcode is closed. -/
theorem judge_eq (s : Unit) (vs : List Bytes) (stream : Option ℕ) :
    (hooks.judge s vs).2 = keepalive stream vs := by
  induction vs using List.reverseRecOn with
  | nil => rfl
  | append_singleton vs v ih =>
    rw [Hooks.judge_append_singleton]
    cases vs with
    | nil => simp [Hooks.close, hooks, keepalive]
    | cons opcode args =>
      rw [List.cons_append, keepalive]
      rw [keepalive] at ih
      cases hk : isKeepalive opcode with
      | true =>
        rw [Hooks.close_of_denied _ _ _ (ih.trans hk), ih, hk]
      | false =>
        have hfalse := ih.trans hk
        simp [Hooks.close, hooks] at hfalse ⊢
        simp [hfalse]

theorem filter_of_corrupted {p : OpcodeParser Unit} {d : Bytes}
    (h : (p.parse hooks d).1 = .streamCorrupted) :
    filter p d = (d, (p.parse hooks d).2.reset) := by
  unfold filter
  generalize p.parse hooks d = r at h
  obtain ⟨st, p'⟩ := r
  cases h
  rfl

theorem filter_of_excised {p : OpcodeParser Unit} {d : Bytes}
    (h : (p.parse hooks d).1 ≠ .streamCorrupted) :
    filter p d =
      (((p.parse hooks d).2.excise d d.length).1.take ((p.parse hooks d).2.excise d d.length).2.1,
        ((p.parse hooks d).2.excise d d.length).2.2) := by
  unfold filter
  generalize p.parse hooks d = r at h
  obtain ⟨st, p'⟩ := r
  cases st <;> first | rfl | exact absurd rfl h

theorem stationary : hooks.Stationary := fun _ _ => rfl

section Series

variable {s : Unit} {m : GuardMembers} {p : OpcodeParser Unit} {q : OpcodeParser GuardMembers}
  {cur cur' : Cursor maxElementSize} {d : Bytes} {reads : List Bytes}
  {is js : List (Instruction maxElementSize)}

/-- A filter that starts over stands at a clean instruction boundary. -/
theorem session_reset (p : OpcodeParser Unit) :
    OpcodeParser.Session hooks () (.start : Cursor maxElementSize) p.reset :=
  ⟨⟨rfl, rfl, rfl⟩, rfl⟩

/-- A read that cuts a keepalive is left alone, any other loses its keepalives. -/
theorem filter_session (h : OpcodeParser.Session hooks s cur p) (hr : cur.read d = some (is, cur')) :
    (hooks.Cuts s cur is cur' ∧ (filter p d).1 = d ∧
        OpcodeParser.Session hooks () (.start : Cursor maxElementSize) (filter p d).2) ∨
      (¬hooks.Cuts s cur is cur' ∧
        OpcodeParser.Passed hooks s cur is cur' (filter p d).1 (filter p d).2) := by
  rcases h.returns stationary (.inr rfl) hr with ⟨hcut, hcor⟩ | ⟨hcut, hcor, -, l, hl, hin⟩
  · refine .inl ⟨hcut, ?_⟩
    rw [filter_of_corrupted hcor]
    exact ⟨rfl, session_reset _⟩
  · refine .inr ⟨hcut, ?_⟩
    rw [filter_of_excised hcor]
    exact hin.excise hl

theorem denies_eq (s : Unit) (i : Instruction maxElementSize) (stream : Option ℕ) :
    hooks.denies s i = keepalive stream i.values := by
  rw [Hooks.denies, seen_eq_map le_rfl]
  exact judge_eq s i.values stream

theorem survivors_eq (s : Unit) (is : List (Instruction maxElementSize)) (stream : Option ℕ) :
    hooks.survivors s is = without keepalive stream is := by
  induction is generalizing stream with
  | nil => rfl
  | cons i is ih =>
    rw [Hooks.survivors, without, denies_eq s i stream, ih (next stream i.values)]

/-- The stream that is open has no bearing on what is a keepalive. -/
theorem without_keepalive (is : List (Instruction maxElementSize)) (stream : Option ℕ) :
    without keepalive stream is = is.filter fun i => !keepalive none i.values := by
  induction is generalizing stream with
  | nil => rfl
  | cons i is ih =>
    have hi : keepalive stream i.values = keepalive none i.values := by
      cases i.values <;> rfl
    rw [without, ih, hi, List.filter_cons]
    cases keepalive none i.values <;> rfl

/-- The guard denies keepalives. -/
theorem violates_of_keepalive {stream : Option ℕ} {vs : List Bytes}
    (h : keepalive stream vs = true) : violates stream vs = true := by
  match vs with
  | [] => simp [keepalive] at h
  | opcode :: args =>
    have hnot : opcode ∉ allowlist := by
      simp only [keepalive, isKeepalive, Bool.or_eq_true, beq_iff_eq] at h
      rcases h with rfl | rfl <;> decide
    simp [violates, hnot]

/-- The filter cuts the keepalives that reach over the border of a read. -/
theorem cuts_iff :
    hooks.Cuts s cur is cur' ↔
      (cur.bytes ≠ [] ∧ ∃ i ∈ is.head?, keepalive none i.values = true) ∨
        keepalive none cur'.values = true := by
  simp only [Hooks.Cuts, denies_eq s _ none, seen_eq_map le_rfl, judge_eq _ _ none]
  rfl

/-- Where the filter cuts a keepalive, so does the guard. -/
theorem guard_cuts_of_cuts (h : hooks.Cuts s cur is cur') :
    GuardOpcodeParser.hooks.Cuts m cur is cur' := by
  rcases h with ⟨hne, i, hi, hden⟩ | hden
  · refine .inl ⟨hne, i, hi, ?_⟩
    rw [denies_eq s i m.openStream] at hden
    rw [GuardOpcodeParser.denies_eq]
    exact violates_of_keepalive hden
  · right
    rw [seen_eq_map le_rfl, judge_eq _ _ (Policy.after m.openStream is)] at hden
    rw [GuardOpcodeParser.judge_closed]
    exact violates_of_keepalive hden

/-- Where the filter cuts nothing, the guard finds nothing to cut in what is left. -/
theorem not_guard_cuts (honly : Only keepalive m.openStream (is ++ js))
    (hr : cur'.read reads.flatten = some (js, .start)) (h : ¬hooks.Cuts s cur is cur') :
    ¬GuardOpcodeParser.hooks.Cuts m cur (allowed m.openStream is) cur' := by
  rintro (⟨-, i, hi, hden⟩ | hden)
  · obtain ⟨rest, hrest⟩ : ∃ rest, allowed m.openStream is = [] ++ i :: rest := by
      cases hal : allowed m.openStream is with
      | nil => simp [hal] at hi
      | cons j rest => exact ⟨rest, by simpa [hal] using hi⟩
    rw [GuardOpcodeParser.denies_eq] at hden
    simp [show violates m.openStream i.values = false from violates_of_mem_allowed hrest] at hden
  · rw [GuardOpcodeParser.judge_closed, after_allowed] at hden
    -- the instruction in progress is completed by the reads behind this one
    rcases Cursor.closed_read hr with ⟨rfl, es, hes⟩ | ⟨i, hi, es, hes⟩
    · have hnil : cur'.closed = [] := (List.append_eq_nil_iff.mp hes).1
      simp [Cursor.values, hnil, violates] at hden
    · obtain ⟨rest, rfl⟩ : ∃ rest, js = i :: rest := by
        cases js with
        | nil => simp at hi
        | cons j rest => exact ⟨rest, by simpa using hi⟩
      have hvals : i.values = cur'.values ++ es.map Element.value := by
        rw [Instruction.values, ← hes, List.map_append]
        rfl
      have hkeep := honly.right.head (hvals ▸ violates_append hden _)
      refine h (.inr ?_)
      rw [seen_eq_map le_rfl, judge_eq _ _ (Policy.after m.openStream is)]
      change keepalive _ cur'.values = true
      rw [hvals] at hkeep
      cases hcv : cur'.values with
      | nil => simp [hcv, violates] at hden
      | cons v vs =>
        rw [hcv] at hkeep
        exact hkeep

/-- A browser stream through the filter and the guard in series. -/
theorem series (hk : OpcodeParser.Session hooks s cur p)
    (hg : OpcodeParser.Session GuardOpcodeParser.hooks m cur q)
    (honly : Only keepalive m.openStream is) (hr : cur.read reads.flatten = some (is, .start)) :
    let r := q.cleanseAll GuardOpcodeParser.hooks (payloads p reads)
    (hooks.Straddles s cur.bytes reads is .start ∧ r.2 = none) ∨
      (¬hooks.Straddles s cur.bytes reads is .start ∧ r.2 ≠ none ∧
        cur.bytes ++ r.1.flatten = wire (allowed m.openStream is)) := by
  induction reads generalizing s m cur p q is with
  | nil =>
    cases hr
    refine .inr ⟨?_, by simp [payloads, OpcodeParser.cleanseAll], rfl⟩
    rintro (⟨before, i, after, heq, -⟩ | hden)
    · simp at heq
    · simp [hk.judged] at hden
  | cons d reads ih =>
    obtain ⟨⟨is₁, cur₁⟩, hr₁⟩ := Cursor.exists_read_of_read_append hr
    rw [List.flatten_cons, Cursor.read_append_of_eq_some hr₁, Option.map_eq_some_iff] at hr
    obtain ⟨⟨is₂, cur₂⟩, hr₂, heq⟩ := hr
    cases heq
    rcases filter_session hk hr₁ with ⟨hcut, hout, -⟩ | ⟨hcut, hpass⟩
    · have hgcut := guard_cuts_of_cuts (m := m) hcut
      have hne : d ≠ [] := by
        rintro rfl
        cases hr₁
        simp [Hooks.Cuts, hk.judged] at hcut
      rcases hg.cleanse GuardOpcodeParser.stationary (.inl le_rfl) hr₁ with ⟨-, hc⟩ | ⟨hn, -⟩
      · refine .inl ⟨Hooks.straddles_of_cuts hr₁ hr₂ hcut, ?_⟩
        rw [payloads, hout, if_neg hne, OpcodeParser.cleanseAll_cons_none hc]
      · exact absurd hgcut hn
    · rw [Hooks.straddles_cons_iff hr₁ hcut]
      have honly₂ := honly.right
      -- what is left of the read, and how the guard reads it
      have hleft : hooks.survivors s is₁ = allowed m.openStream is₁ := by
        rw [survivors_eq s is₁ m.openStream, honly.left.without_eq fun _ _ => violates_of_keepalive]
      have hkept := hpass.kept
      rw [hleft] at hkept
      have hread := Cursor.read_eq_some_iff.mpr hkept
      by_cases hnil : (filter p d).1 = []
      · rw [hnil, Cursor.read_nil, Option.some.injEq, Prod.mk.injEq] at hread
        obtain ⟨hal, rfl⟩ := hread
        have hafter : Policy.after m.openStream is₁ = m.openStream := by
          rw [← after_allowed, ← hal]
          rfl
        rw [payloads, if_pos hnil, allowed_append, ← hal, List.nil_append, hafter]
        rw [hafter] at honly₂
        exact ih hpass.session hg honly₂ hr₂
      · rcases hg.cleanse GuardOpcodeParser.stationary (.inl le_rfl) hread with
          ⟨hgcut, -⟩ | ⟨-, out, q₁, hc, hgpass⟩
        · exact absurd hgcut (not_guard_cuts honly hr₂ hcut)
        · have hstream : (GuardOpcodeParser.hooks.afterAll m (allowed m.openStream is₁)).openStream =
              Policy.after m.openStream is₁ := by
            rw [GuardOpcodeParser.openStream_afterAll, after_allowed]
          have hgkept := hgpass.kept
          rw [GuardOpcodeParser.survivors_eq, allowed_allowed] at hgkept
          rw [← hstream] at honly₂
          rw [payloads, if_neg hnil, OpcodeParser.cleanseAll_cons_some hc]
          rcases ih hpass.session hgpass.session honly₂ hr₂ with hbad | ⟨hok, hne, hrest⟩
          · exact .inl hbad
          · refine .inr ⟨hok, hne, ?_⟩
            rw [List.flatten_cons, ← List.append_assoc, hgkept, List.append_assoc, hrest, hstream,
              allowed_append, wire_append]

end Series

/-- What the guard makes of a browser stream behind the filter. -/
def filtered (reads : List Bytes) : List Bytes × Option (OpcodeParser GuardMembers) :=
  GuardOpcodeParser.filter (payloads fresh reads)

theorem session_fresh : OpcodeParser.Session hooks () (.start : Cursor maxElementSize) fresh :=
  ⟨OpcodeParser.tracks_start (), rfl⟩

/-- A session of allowed instructions and keepalives survives, and loses just the
keepalives, if and only if each keepalive lies inside one read. -/
theorem filtered_iff (is : List (Instruction maxElementSize)) (honly : Only keepalive none is)
    (reads : List Bytes) (hcut : reads.flatten = wire is) :
    ((filtered reads).2 ≠ none ∧
        (filtered reads).1.flatten = wire (is.filter fun i => !keepalive none i.values)) ↔
      ∀ before i after, is = before ++ i :: after → keepalive none i.values = true →
        Whole [] reads before i := by
  have hr : (Cursor.start : Cursor maxElementSize).read reads.flatten = some (is, .start) := by
    rw [hcut, Cursor.read_wire]
  have hout : allowed none is = is.filter fun i => !keepalive none i.values := by
    rw [← without_keepalive is none, honly.without_eq fun _ _ => violates_of_keepalive]
  have hstr : hooks.Straddles () [] reads is .start ↔
      ∃ before i after, is = before ++ i :: after ∧ keepalive none i.values = true ∧
        ¬Whole [] reads before i := by
    have hstart : (Cursor.start : Cursor maxElementSize).closed = [] := rfl
    simp only [Hooks.Straddles, denies_eq _ _ none, hstart, seen_nil, Hooks.judge_nil,
      Bool.false_eq_true, or_false]
  rw [← hout]
  rcases series session_fresh GuardOpcodeParser.session_fresh honly hr with ⟨hbad, hnone⟩ | ⟨hok, hne, hkept⟩
  · have hnone : (filtered reads).2 = none := hnone
    obtain ⟨before, i, after, heq, hkeep, hwhole⟩ := hstr.mp hbad
    constructor
    · rintro ⟨hne, -⟩
      exact absurd hnone hne
    · intro h
      exact absurd (h before i after heq hkeep) hwhole
  · refine iff_of_true ⟨hne, hkept⟩ ?_
    intro before i after heq hkeep
    by_contra hwhole
    exact hok (hstr.mpr ⟨before, i, after, heq, hkeep, hwhole⟩)

/-- A keepalive and a key press. -/
def keyPress : List (Instruction maxElementSize) :=
  [.ofValues [ascii "sync", ascii "42"] (by decide) (by decide +kernel),
    .ofValues [ascii "key", ascii "65", ascii "1"] (by decide) (by decide +kernel)]

theorem only_keepalive_keyPress : Only keepalive none keyPress := by
  intro before i after h
  rcases before with _ | ⟨a, _ | ⟨b, before⟩⟩
  · cases h
    decide
  · cases h
    decide
  · simp [keyPress] at h

/-- In one read the keepalive is removed. -/
theorem filtered_keyPress_whole :
    Only keepalive none keyPress ∧ [wire keyPress].flatten = wire keyPress ∧
      ((filtered [wire keyPress]).2 ≠ none ∧ (filtered [wire keyPress]).1.flatten =
          wire (keyPress.filter fun i => !keepalive none i.values) ↔
        ∀ before i after, keyPress = before ++ i :: after → keepalive none i.values = true →
          Whole [] [wire keyPress] before i) :=
  ⟨only_keepalive_keyPress, by simp,
    filtered_iff keyPress only_keepalive_keyPress [wire keyPress] (by simp)⟩

/-- A keepalive that is cut between two reads kills the session. -/
theorem filtered_keyPress_cut :
    Only keepalive none keyPress ∧
      [(wire keyPress).take 5, (wire keyPress).drop 5].flatten = wire keyPress ∧
      (∀ d ∈ [(wire keyPress).take 5, (wire keyPress).drop 5],
        0 < d.length ∧ d.length ≤ Multiplexer.maxPayloadSize) ∧
      (filtered [(wire keyPress).take 5, (wire keyPress).drop 5]).2 = none :=
  ⟨only_keepalive_keyPress, by simp, by decide +kernel, by decide +kernel⟩

end ForwardKeepaliveFilter

end GuacamoleDiode
