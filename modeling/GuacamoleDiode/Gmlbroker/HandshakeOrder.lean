import GuacamoleDiode.Gmlbroker.ForgedReplies

/-!
# The order of the forged handshake

The comments on the handshake states give an order: `select`, then `connect`, then the session.
The forger does not ask in which state it is when one of the two instructions is complete, so
that the order is kept if and only if the client keeps it.

## Main definitions

- `HandshakeForger.Moves`: the transitions of the handshake state
- `HandshakeForger.Orderly`: the forger has kept the order
- `HandshakeForger.Ordered`: the client has kept the order

## Main results

- `HandshakeForger.orderly_iff`
-/

namespace GuacamoleDiode

open Wire

namespace HandshakeForger

/-- A transition of the handshake state, or none. -/
def Moves (st st' : HandshakeState) : Prop :=
  st' = st ∨ (st = .unestablished ∧ st' = .exchangingParameters) ∨
    (st = .exchangingParameters ∧ st' = .established) ∨ st' = .invalidHandshake

instance (st st' : HandshakeState) : Decidable (Moves st st') := inferInstanceAs (Decidable (_ ∨ _))

/-- A new forger whose ids have the given digits, behind some pieces. -/
def fed (draws : ℕ → ℕ → Fin 16) (pieces : List Bytes) : Bytes × HandshakeForger :=
  feedAll (fun n => makeFakeId (draws n)) {} pieces

/-- The handshake takes its course on a stream: state by state, with one `ready` at most, which
comes behind an `args`, and however the stream is cut. -/
structure Orderly (draws : ℕ → ℕ → Fin 16) (pieces : List Bytes) : Prop where
  moves : ∀ u c v, pieces.flatten = u ++ c :: v →
    Moves (fed draws [u]).2.hsState (fed draws [u ++ [c]]).2.hsState
  answered : ∀ rs : List (Instruction maxElementSize), (fed draws pieces).1 = wire rs →
    ∀ before r after, rs = before ++ r :: after → r.opcode = ascii "ready" →
      (∃ a ∈ before, a.opcode = ascii "args") ∧ ∀ b ∈ before ++ after, b.opcode ≠ ascii "ready"
  unsplit : ∀ before after, pieces = before ++ after → ∀ pieces', pieces'.flatten = before.flatten →
    (fed draws pieces').2.hsState = (fed draws before).2.hsState

/-- A `connect` comes behind a `select`, and neither of the two comes behind it. -/
def Ordered {limit : ℕ} (is : List (Instruction limit)) : Prop :=
  ∀ before c after, is = before ++ c :: after → c.opcode = ascii "connect" →
    (∃ s ∈ before, s.opcode = ascii "select") ∧
      ∀ j ∈ after, j.opcode ≠ ascii "select" ∧ j.opcode ≠ ascii "connect"

section

variable {limit : ℕ} {is : List (Instruction limit)} {i : Instruction limit}

theorem select_ne_connect : ascii "select" ≠ ascii "connect" := by decide

theorem phase_snoc (is : List (Instruction limit)) (i : Instruction limit) :
    phase (is ++ [i]) = advance (phase is) i := by
  rw [phase_append, List.foldl_cons, List.foldl_nil]

/-- Only a `connect` establishes the handshake. -/
theorem exists_connect_of_established (h : phase is = .established) :
    ∃ c ∈ is, c.opcode = ascii "connect" := by
  induction is using List.reverseRecOn with
  | nil => cases h
  | append_singleton is i ih =>
    rw [phase_snoc, advance] at h
    split_ifs at h with hselect hconnect
    · exact ⟨i, by simp, hconnect⟩
    · obtain ⟨c, hc, hopcode⟩ := ih h
      exact ⟨c, List.mem_append_left _ hc, hopcode⟩

theorem phase_of_select (hselect : ∃ s ∈ is, s.opcode = ascii "select")
    (hconnect : ∀ c ∈ is, c.opcode ≠ ascii "connect") : phase is = .exchangingParameters := by
  induction is using List.reverseRecOn with
  | nil => simp at hselect
  | append_singleton is i ih =>
    rw [phase_snoc, advance]
    by_cases hi : i.opcode = ascii "select"
    · rw [if_pos hi]
    · rw [if_neg hi, if_neg (hconnect i (by simp))]
      refine ih ?_ fun c hc => hconnect c (List.mem_append_left _ hc)
      obtain ⟨s, hs, hopcode⟩ := hselect
      rcases List.mem_append.mp hs with hs | hs
      · exact ⟨s, hs, hopcode⟩
      · rw [List.mem_singleton.mp hs] at hopcode
        exact absurd hopcode hi

/-- Behind a `connect` the handshake stays established until the next `select`. -/
theorem phase_of_connect {before after : List (Instruction limit)} {c : Instruction limit}
    (hc : c.opcode = ascii "connect") (hafter : ∀ j ∈ after, j.opcode ≠ ascii "select") :
    phase (before ++ c :: after) = .established := by
  induction after using List.reverseRecOn with
  | nil =>
    rw [phase_snoc, advance, hc, if_neg select_ne_connect.symm, if_pos rfl]
  | append_singleton after j ih =>
    have hrest := ih fun k hk => hafter k (List.mem_append_left _ hk)
    rw [← List.cons_append, ← List.append_assoc, phase_snoc, advance, hrest,
      if_neg (hafter j (by simp))]
    split_ifs <;> rfl

/-- In the right order each instruction takes the handshake to the next state. -/
theorem Ordered.moves {rest : List (Instruction limit)} (h : Ordered (is ++ i :: rest)) :
    Moves (phase is) (phase (is ++ [i])) := by
  have hfirst : ∀ c ∈ is, c.opcode = ascii "connect" →
      i.opcode ≠ ascii "select" ∧ i.opcode ≠ ascii "connect" := by
    intro c hc hopcode
    obtain ⟨u, v, rfl⟩ := List.append_of_mem hc
    exact (h u c (v ++ i :: rest) (by simp) hopcode).2 i (by simp)
  rw [phase_snoc, advance]
  by_cases hselect : i.opcode = ascii "select"
  · rw [if_pos hselect]
    cases hphase : phase is with
    | unestablished => decide
    | exchangingParameters => decide
    | established =>
      obtain ⟨c, hc, hopcode⟩ := exists_connect_of_established hphase
      exact absurd hselect (hfirst c hc hopcode).1
    | invalidHandshake => exact absurd hphase (phase_ne_invalidHandshake is)
  · rw [if_neg hselect]
    by_cases hconnect : i.opcode = ascii "connect"
    · have hnone : ∀ c ∈ is, c.opcode ≠ ascii "connect" :=
        fun c hc hopcode => (hfirst c hc hopcode).2 hconnect
      rw [if_pos hconnect, phase_of_select (h is i rest rfl hconnect).1 hnone]
      decide
    · rw [if_neg hconnect]
      exact .inl rfl

-- ════════════════════════════════════════════════════════════════════════
-- The answers in their order
-- ════════════════════════════════════════════════════════════════════════

/-- The answer to a `connect` is one `ready`, and then the waiting screen. -/
theorem answers_of_connect (h : i.opcode = ascii "connect") :
    answers i = ascii "ready" :: ["size", "rect", "cfill", "sync"].map ascii := by
  rw [answers, h, if_neg select_ne_connect.symm, if_pos rfl]
  rfl

theorem ready_mem_answers : ascii "ready" ∈ answers i ↔ i.opcode = ascii "connect" := by
  refine ⟨fun h => ?_, fun h => ?_⟩
  · rw [answers] at h
    split_ifs at h with hselect hconnect
    · exact absurd h (by decide)
    · exact hconnect
    · cases h
  · rw [answers_of_connect h]
    exact List.mem_cons_self

theorem args_mem_answers : ascii "args" ∈ answers i ↔ i.opcode = ascii "select" := by
  refine ⟨fun h => ?_, fun h => ?_⟩
  · rw [answers] at h
    split_ifs at h with hselect hconnect
    · exact hselect
    · exact absurd h (by decide)
    · cases h
  · rw [answers, if_pos h]
    exact List.mem_cons_self

theorem answers_of_other (h : i.opcode ≠ ascii "select" ∧ i.opcode ≠ ascii "connect") :
    answers i = [] := by
  rw [answers, if_neg h.1, if_neg h.2]

/-- In the right order there is one `ready` at most among the answers, behind an `args`. -/
theorem Ordered.answered (h : Ordered is) {before after : List Bytes}
    (hanswers : is.flatMap answers = before ++ ascii "ready" :: after) :
    ascii "args" ∈ before ∧ ascii "ready" ∉ before ++ after := by
  obtain ⟨c, hc, hready⟩ : ∃ c ∈ is, ascii "ready" ∈ answers c := by
    rw [← List.mem_flatMap, hanswers]
    simp
  have hconnect := ready_mem_answers.mp hready
  obtain ⟨u, v, rfl⟩ := List.append_of_mem hc
  obtain ⟨⟨s, hs, hselect⟩, hlater⟩ := h u c v rfl hconnect
  have hnone : v.flatMap answers = [] := by
    rw [List.flatMap_eq_nil_iff]
    exact fun j hj => answers_of_other (hlater j hj)
  have hfirst : ascii "ready" ∉ u.flatMap answers := by
    intro hmem
    obtain ⟨c', hc', hready'⟩ := List.mem_flatMap.mp hmem
    obtain ⟨x, y, rfl⟩ := List.append_of_mem hc'
    have hsecond := (h x c' (y ++ c :: v) (by simp) (ready_mem_answers.mp hready')).2 c (by simp)
    exact hsecond.2 hconnect
  have hscreen : ascii "ready" ∉ ["size", "rect", "cfill", "sync"].map ascii := by decide
  rw [List.flatMap_append, List.flatMap_cons, hnone, List.append_nil, answers_of_connect hconnect,
    List.append_cons_inj_of_notMem hfirst hscreen] at hanswers
  obtain ⟨rfl, -, rfl⟩ := hanswers
  refine ⟨List.mem_flatMap.mpr ⟨s, hs, args_mem_answers.mpr hselect⟩, ?_⟩
  rw [List.mem_append, not_or]
  exact ⟨hfirst, hscreen⟩

end

section

variable {draws : ℕ → ℕ → Fin 16} {pieces : List Bytes}

/-- The answers to a stream, and the state that it leaves. -/
theorem fed_spec (draws : ℕ → ℕ → Fin 16) (pieces : List Bytes) :
    Answer (fed draws pieces).1
        (((Cursor.start : Cursor maxElementSize).completed pieces.flatten).flatMap answers) ∧
      (fed draws pieces).2.hsState = (((Cursor.start : Cursor maxElementSize).read
        pieces.flatten).map fun r => phase r.1).getD .invalidHandshake :=
  (forging_nil fun n => makeFakeId (draws n)).feedAll (fun n => fits_makeFakeId (draws n)) pieces

/-- The state that bytes within the grammar leave. -/
theorem hsState_of_read {w : Bytes} {is : List (Instruction maxElementSize)}
    {cur : Cursor maxElementSize} (h : Cursor.start.read w = some (is, cur)) :
    (fed draws [w]).2.hsState = phase is := by
  have hflatten : [w].flatten = w := List.flatten_singleton
  rw [(fed_spec draws [w]).2, hflatten, h]
  rfl

theorem hsState_of_none {w : Bytes} (h : (Cursor.start : Cursor maxElementSize).read w = none) :
    (fed draws [w]).2.hsState = .invalidHandshake := by
  have hflatten : [w].flatten = w := List.flatten_singleton
  rw [(fed_spec draws [w]).2, hflatten, h]
  rfl

/-- The opcodes of the replies. -/
theorem opcodes_of_wire {rs : List (Instruction maxElementSize)}
    (h : (fed draws pieces).1 = wire rs) : rs.map Instruction.opcode =
      ((Cursor.start : Cursor maxElementSize).completed pieces.flatten).flatMap answers := by
  obtain ⟨rs', hwire, hopcodes⟩ := (fed_spec draws pieces).1
  have hread := Cursor.read_wire rs
  rw [← h, hwire, Cursor.read_wire, Option.some.injEq, Prod.mk.injEq] at hread
  rw [← hread.1, hopcodes]

/-- A client that keeps the order is answered in order. -/
theorem orderly_of_ordered
    (h : Ordered ((Cursor.start : Cursor maxElementSize).completed pieces.flatten)) :
    Orderly draws pieces where
  moves u c v hflatten := by
    cases hread : (Cursor.start : Cursor maxElementSize).read (u ++ [c]) with
    | none =>
      rw [hsState_of_none hread]
      exact .inr (.inr (.inr rfl))
    | some r =>
      obtain ⟨⟨is, cur⟩, hu⟩ := Cursor.exists_read_of_read_append hread
      have hsnoc := hread
      rw [Cursor.read_append_of_eq_some hu] at hsnoc
      obtain ⟨⟨js, cur'⟩, hc, rfl⟩ := Option.map_eq_some_iff.mp hsnoc
      rw [hsState_of_read hu, hsState_of_read hread]
      rcases Cursor.read_singleton hc with rfl | ⟨i, rfl⟩
      · rw [List.append_nil]
        exact .inl rfl
      · -- the byte completes the instruction `i` of the stream
        have hsplit : pieces.flatten = (u ++ [c]) ++ v := by rw [hflatten, List.append_cons]
        rw [hsplit, Cursor.completed_append, Cursor.completed_of_read hread,
          List.append_assoc, List.singleton_append] at h
        exact h.moves
  answered rs hrs before r after hsplit hready := by
    have hopcodes := opcodes_of_wire hrs
    rw [hsplit, List.map_append, List.map_cons, hready] at hopcodes
    obtain ⟨hargs, hnone⟩ := h.answered hopcodes.symm
    constructor
    · obtain ⟨a, ha, hopcode⟩ := List.mem_map.mp hargs
      exact ⟨a, ha, hopcode⟩
    · intro b hb hopcode
      rw [← List.map_append] at hnone
      exact hnone (List.mem_map.mpr ⟨b, hb, hopcode⟩)
  unsplit before after hsplit pieces' hflatten := by
    rw [(fed_spec draws pieces').2, (fed_spec draws before).2, hflatten]

/-- The last byte of an instruction completes it. -/
theorem exists_last_byte (is : List (Instruction maxElementSize)) (i : Instruction maxElementSize) :
    ∃ u c cur, wire (is ++ [i]) = u ++ [c] ∧ Cursor.start.read u = some (is, cur) := by
  obtain ⟨es, e, rfl⟩ := i.exists_eq_append
  refine ⟨wire is ++ (⟨es, .delim e⟩ : Cursor maxElementSize).bytes, semicolon, _, ?_,
    Cursor.read_wire_append_bytes is _⟩
  rw [wire_append, wire_cons, wire_nil, List.append_nil, Instruction.encode_mk_append]
  simp [Cursor.bytes]

/-- The first `select` behind a `connect` would take the state back. -/
theorem Orderly.no_select (h : Orderly draws pieces)
    {before after : List (Instruction maxElementSize)} {c : Instruction maxElementSize}
    (hsplit : Cursor.start.completed pieces.flatten = before ++ c :: after)
    (hc : c.opcode = ascii "connect") : ∀ j ∈ after, j.opcode ≠ ascii "select" := by
  suffices hall : ∀ as bs, after = as ++ bs → ∀ j ∈ as, j.opcode ≠ ascii "select" from
    hall after [] (List.append_nil after).symm
  intro as
  induction as using List.reverseRecOn with
  | nil => simp
  | append_singleton as j ih =>
    intro bs hbs k hk
    rw [List.append_assoc] at hbs
    have hnone := ih ([j] ++ bs) hbs
    rcases List.mem_append.mp hk with hk | hk
    · exact hnone k hk
    · obtain rfl : k = j := List.mem_singleton.mp hk
      intro hselect
      obtain ⟨u, b, cur, hlast, hread⟩ := exists_last_byte (before ++ c :: as) k
      have hinit := (Cursor.start : Cursor maxElementSize).wire_completed pieces.flatten
      rw [hsplit, hbs, Cursor.bytes_start, List.nil_append] at hinit
      obtain ⟨v, hv⟩ := hinit
      have hflatten : pieces.flatten = u ++ b :: (wire bs ++ v) := by
        rw [← hv, List.append_cons u, ← hlast]
        simp
      have hfull : (Cursor.start : Cursor maxElementSize).read (u ++ [b]) =
          some (before ++ c :: as ++ [k], .start) := by
        rw [← hlast]
        exact Cursor.read_wire _
      have hmoves := h.moves u b _ hflatten
      rw [hsState_of_read hread, hsState_of_read hfull, phase_snoc, phase_of_connect hc hnone,
        advance, if_pos hselect] at hmoves
      exact absurd hmoves (by decide)

/-- A forger that answers in order has been asked in order. -/
theorem ordered_of_orderly (h : Orderly draws pieces) :
    Ordered ((Cursor.start : Cursor maxElementSize).completed pieces.flatten) := by
  intro before c after hsplit hconnect
  obtain ⟨rs, hrs, hopcodes⟩ := (fed_spec draws pieces).1
  rw [hsplit, List.flatMap_append, List.flatMap_cons, answers_of_connect hconnect, List.cons_append]
    at hopcodes
  obtain ⟨as, rs', rfl, has, hrs'⟩ := List.map_eq_append_iff.mp hopcodes
  obtain ⟨r, bs, rfl, hready, hbs⟩ := List.map_eq_cons_iff.mp hrs'
  obtain ⟨⟨a, ha, hargs⟩, honce⟩ := h.answered _ hrs as r bs rfl hready
  have hconnects : ∀ j ∈ after, j.opcode ≠ ascii "connect" := by
    intro j hj hagain
    have hmem : ascii "ready" ∈ bs.map Instruction.opcode := by
      rw [hbs]
      exact List.mem_append_right _ (List.mem_flatMap.mpr ⟨j, hj, ready_mem_answers.mpr hagain⟩)
    obtain ⟨b, hb, hopcode⟩ := List.mem_map.mp hmem
    exact honce b (List.mem_append_right _ hb) hopcode
  refine ⟨?_, fun j hj => ⟨h.no_select hsplit hconnect j hj, hconnects j hj⟩⟩
  · have hmem : ascii "args" ∈ before.flatMap answers := by
      rw [← has]
      exact List.mem_map.mpr ⟨a, ha, hargs⟩
    obtain ⟨s, hs, hanswer⟩ := List.mem_flatMap.mp hmem
    exact ⟨s, hs, args_mem_answers.mp hanswer⟩

/-- The forger keeps the order of the handshake if and only if the instructions that the stream
completes, before a byte leaves the grammar, keep it. -/
theorem orderly_iff (draws : ℕ → ℕ → Fin 16) (pieces : List Bytes) : Orderly draws pieces ↔
    Ordered ((Cursor.start : Cursor maxElementSize).completed pieces.flatten) :=
  ⟨ordered_of_orderly, orderly_of_ordered⟩

/-- A handshake without a `select`. -/
def unasked : Bytes := ascii "7.connect,4.host;"

/-- The forger answers it with a `ready`, and is established at once. -/
theorem not_orderly_unasked :
    (fed (fun _ _ => 0) [unasked]).2.hsState = .established ∧ ¬Orderly (fun _ _ => 0) [unasked] := by
  refine ⟨by decide +kernel, fun h => ?_⟩
  have hopcodes : ((Cursor.start : Cursor maxElementSize).completed unasked).map
      Instruction.opcode = [ascii "connect"] := by
    decide +kernel
  obtain ⟨c, cs, hcons, hconnect, -⟩ := List.map_eq_cons_iff.mp hopcodes
  have hflatten : [unasked].flatten = unasked := List.flatten_singleton
  obtain ⟨⟨s, hs, -⟩, -⟩ := ordered_of_orderly h [] c cs (by rw [hflatten, hcons]; rfl) hconnect
  cases hs

end

end HandshakeForger

end GuacamoleDiode
