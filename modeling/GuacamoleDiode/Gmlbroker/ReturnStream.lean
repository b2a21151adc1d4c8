import GuacamoleDiode.Gmlbroker.Acks
import GuacamoleDiode.Lib.Shuffle

/-!
# The stream to the browser

Behind its approval a session receives two kinds of messages over one queue: the payloads
that the output of guacd has been cut into, and acks that its own reader has faked. The
return filter of the channel is fed both. If the acks stand between instructions of guacd,
it swallows everything up to the `ready` and passes on the rest in whole instructions.

## Main definitions

- `Output`: what guacd sends
- `ReturnFilter.Aligned`: the acks stand between instructions
- `ReturnFilter.Intact`: what is passed on is everything behind the `ready`, in whole
  instructions
-/

namespace GuacamoleDiode

open Wire

/-- What guacd sends: its reply to the handshake, which ends with `ready`, and the drawing. -/
structure Output (limit : ℕ) where
  reply : List (Instruction maxElementSize)
  reply_opcode : ∀ i ∈ reply, i.opcode ≠ ascii "ready"
  ready : Instruction maxElementSize
  ready_opcode : ready.opcode = ascii "ready"
  drawing : List (Instruction limit)

namespace Output

variable {limit : ℕ}

/-- The output up to its `ready`. -/
def head (o : Output limit) : Bytes := wire (o.reply ++ [o.ready])

def bytes (o : Output limit) : Bytes := o.head ++ wire o.drawing

/-- A beginning of the output that ends with an instruction. -/
def Boundary (o : Output limit) (w : Bytes) : Prop :=
  (∃ is, is <+: o.reply ∧ w = wire is) ∨ ∃ is, is <+: o.drawing ∧ w = o.head ++ wire is

/-- Instructions without a `ready` do not reach behind that of the output. -/
theorem not_head_prefix (o : Output limit) {w : Bytes} {is : List (Instruction maxElementSize)}
    {cur : Cursor maxElementSize} (hread : Cursor.start.read w = some (is, cur))
    (his : ∀ i ∈ is, i.opcode ≠ ascii "ready") : ¬o.head <+: w := by
  rintro ⟨rest, rfl⟩
  rw [head, Cursor.read_append_of_eq_some (Cursor.read_wire _), Option.map_eq_some_iff] at hread
  obtain ⟨⟨js, cur'⟩, -, heq⟩ := hread
  cases heq
  exact his o.ready (by simp) o.ready_opcode

end Output

namespace ReturnFilter

variable {κ : Type} {limit : ℕ}

/-- The filter behind a sequence of messages. -/
def View.after (v : View) (ws : List (κ × Bytes)) : View := ws.foldl (fun v w => (v.feed w.2).2) v

/-- What is passed on of a message. -/
def View.pass (v : View) (w : κ × Bytes) : List (κ × Bytes) :=
  if (v.feed w.2).1 = [] then [] else [(w.1, (v.feed w.2).1)]

/-- What is passed on of a sequence of messages. -/
def View.passAll : View → List (κ × Bytes) → List (κ × Bytes)
  | _, [] => []
  | v, w :: ws => v.pass w ++ View.passAll (v.feed w.2).2 ws

theorem View.after_snoc (v : View) (ws : List (κ × Bytes)) (w : κ × Bytes) :
    v.after (ws ++ [w]) = ((v.after ws).feed w.2).2 := by
  simp [View.after]

theorem View.passAll_snoc (v : View) (ws : List (κ × Bytes)) (w : κ × Bytes) :
    v.passAll (ws ++ [w]) = v.passAll ws ++ (v.after ws).pass w := by
  induction ws generalizing v with
  | nil => simp [View.passAll, View.after]
  | cons a ws ih =>
    rw [List.cons_append, View.passAll, ih, View.passAll, List.append_assoc]
    rfl

variable [DecidableEq κ]

/-- What there is in a sequence of writes behind a beginning of the stream of one writer. -/
def Behind (m : κ) (head : Bytes) (ws rest : List (κ × Bytes)) : Prop :=
  ∃ pre d₁ d₂ post, ws = pre ++ (m, d₁ ++ d₂) :: post ∧ d₁ ≠ [] ∧
    (writesOf m pre).flatten ++ d₁ = head ∧ rest = (m, d₂) :: post

theorem Behind.snoc {m : κ} {head : Bytes} {ws rest : List (κ × Bytes)} (h : Behind m head ws rest)
    (w : κ × Bytes) : Behind m head (ws ++ [w]) (rest ++ [w]) := by
  obtain ⟨pre, d₁, d₂, post, rfl, hne, hhead, rfl⟩ := h
  exact ⟨pre, d₁, d₂, post ++ [w], by simp, hne, hhead, by simp⟩

/-- Where the filter stands behind a sequence of messages, and what it has passed on. -/
inductive Passes (m : κ) (o : Output limit) (ws : List (κ × Bytes)) : Prop where
  | swallowing (is : List (Instruction maxElementSize)) (cur : Cursor maxElementSize)
      (view : View.start.after ws = .swallowing cur)
      (read : Cursor.start.read (writesOf m ws).flatten = some (is, cur))
      (opcodes : ∀ i ∈ is, i.opcode ≠ ascii "ready") (passed : View.start.passAll ws = [])
  | piping (rest : List (κ × Bytes)) (view : View.start.after ws = .piping)
      (behind : Behind m o.head ws rest)
      (passed : View.start.passAll ws = rest.filter fun w => w.2 ≠ [])

section

variable {m a : κ} {o : Output limit} {ws : List (κ × Bytes)} {d : Bytes}

/-- Once the filter passes everything on, it goes on doing so. -/
theorem passes_snoc_piping {rest : List (κ × Bytes)} (hview : View.start.after ws = .piping)
    (hbehind : Behind m o.head ws rest)
    (hpassed : View.start.passAll ws = rest.filter fun w => w.2 ≠ []) (w : κ × Bytes) :
    Passes m o (ws ++ [w]) := by
  refine .piping (rest ++ [w]) ?_ (hbehind.snoc w) ?_
  · rw [View.after_snoc, hview]
    rfl
  · rw [View.passAll_snoc, hpassed, hview, List.filter_append]
    by_cases hw : w.2 = []
    · simp [View.pass, View.feed, hw]
    · simp [View.pass, View.feed, hw]

/-- An ack at a boundary. -/
theorem Passes.snoc_ack (h : Passes m o ws) (ha : a ≠ m) (hack : ClipboardAckFaker.Acks d)
    (hboundary : o.Boundary (writesOf m ws).flatten) : Passes m o (ws ++ [(a, d)]) := by
  cases h with
  | piping rest hview hbehind hpassed => exact passes_snoc_piping hview hbehind hpassed _
  | swallowing is cur hview hread hopcodes hpassed =>
    have hcur : cur = .start := by
      rcases hboundary with ⟨js, -, hjs⟩ | ⟨js, -, hjs⟩
      · rw [hjs, Cursor.read_wire] at hread
        cases hread
        rfl
      · exact absurd (hjs ▸ List.prefix_append _ _) (o.not_head_prefix hread hopcodes)
    subst hcur
    obtain ⟨idxs, rfl⟩ := hack
    have hfeed : (View.swallowing .start).feed (wire (idxs.map ClipboardAckFaker.ack)) =
        ([], .swallowing .start) := by
      refine swallow_of_read (Cursor.read_wire _) fun i hi => ?_
      obtain ⟨sidx, -, rfl⟩ := List.mem_map.mp hi
      rw [ClipboardAckFaker.opcode_ack]
      decide
    refine .swallowing is .start ?_ ?_ hopcodes ?_
    · rw [View.after_snoc, hview, hfeed]
    · rw [writesOf_append, writesOf_cons_of_ne ha, writesOf_nil, List.append_nil]
      exact hread
    · rw [View.passAll_snoc, hpassed, hview, View.pass, hfeed]
      rfl

/-- A payload that does not reach the end of the `ready`. -/
theorem swallowing_snoc {is : List (Instruction maxElementSize)} {cur : Cursor maxElementSize}
    (hview : View.start.after ws = .swallowing cur)
    (hread : Cursor.start.read (writesOf m ws).flatten = some (is, cur))
    (hpassed : View.start.passAll ws = []) (hpre : (writesOf m ws).flatten ++ d <+: o.head)
    (hnot : ¬o.head <+: (writesOf m ws).flatten ++ d) : Passes m o (ws ++ [(m, d)]) := by
  obtain ⟨⟨js, cur'⟩, hjs⟩ := Cursor.exists_read_iff.mpr ⟨_, hpre⟩
  have hopcodes : ∀ i ∈ js, i.opcode ≠ ascii "ready" := by
    rw [Cursor.read_start_eq_some_iff.mp hjs] at hpre hnot
    obtain ⟨hbegins, -⟩ := Cursor.prefix_of_prefix_wire hpre
    rcases List.prefix_concat_iff.mp hbegins with rfl | hbegins
    · exact absurd (List.prefix_append _ _) hnot
    · exact fun i hi => o.reply_opcode i (hbegins.subset hi)
  have hrest : ∃ qs, cur.read d = some (qs, cur') ∧ is ++ qs = js := by
    have happend := hjs
    rw [Cursor.read_append_of_eq_some hread, Option.map_eq_some_iff] at happend
    obtain ⟨⟨qs, cur₂⟩, hq, heq⟩ := happend
    cases heq
    exact ⟨qs, hq, rfl⟩
  obtain ⟨qs, hqs, rfl⟩ := hrest
  have hfeed : (View.swallowing cur).feed d = ([], .swallowing cur') :=
    swallow_of_read hqs fun i hi => hopcodes i (List.mem_append_right _ hi)
  refine .swallowing _ cur' ?_ ?_ hopcodes ?_
  · rw [View.after_snoc, hview, hfeed]
  · rw [writesOf_append, writesOf_cons_self, writesOf_nil, List.flatten_append,
      List.flatten_singleton]
    exact hjs
  · rw [View.passAll_snoc, hpassed, hview, View.pass, hfeed]
    rfl

/-- A payload that reaches the end of the `ready`. -/
theorem piping_snoc {is : List (Instruction maxElementSize)} {cur : Cursor maxElementSize}
    {d₂ : Bytes} (hview : View.start.after ws = .swallowing cur)
    (hread : Cursor.start.read (writesOf m ws).flatten = some (is, cur))
    (hopcodes : ∀ i ∈ is, i.opcode ≠ ascii "ready") (hpassed : View.start.passAll ws = [])
    (hhead : (writesOf m ws).flatten ++ d = o.head) :
    Passes m o (ws ++ [(m, d ++ d₂)]) := by
  have hne : d ≠ [] := by
    rintro rfl
    rw [List.append_nil] at hhead
    exact o.not_head_prefix hread hopcodes (hhead ▸ List.prefix_rfl)
  -- what is left of the reply, and the ready
  have hqs : ∃ qs, cur.read d = some (qs ++ [o.ready], .start) ∧
      ∀ i ∈ qs, i.opcode ≠ ascii "ready" := by
    have happend := Cursor.read_wire (o.reply ++ [o.ready])
    rw [← Output.head, ← hhead, Cursor.read_append_of_eq_some hread, Option.map_eq_some_iff] at happend
    obtain ⟨⟨qs, cur₂⟩, hq, heq⟩ := happend
    obtain ⟨happ, rfl⟩ := Prod.mk.inj heq
    rcases qs.eq_nil_or_concat with rfl | ⟨qs, j, rfl⟩
    · exact absurd o.ready_opcode (hopcodes _ (by simp_all))
    · rw [List.concat_eq_append, ← List.append_assoc] at happ
      obtain ⟨hreply, hj⟩ := List.append_inj' happ rfl
      cases hj
      refine ⟨qs, by simpa using hq, fun i hi => o.reply_opcode i ?_⟩
      rw [← hreply]
      exact List.mem_append_right _ hi
  obtain ⟨qs, hq, hnone⟩ := hqs
  have hfeed : (View.swallowing cur).feed (d ++ d₂) = (d₂, .piping) := by
    rw [View.feed, swallow_append, swallow_ready hq hnone o.ready_opcode]
    rfl
  refine .piping [(m, d₂)] ?_ ⟨ws, d, d₂, [], rfl, hne, hhead, rfl⟩ ?_
  · rw [View.after_snoc, hview, hfeed]
  · rw [View.passAll_snoc, hpassed, hview, View.pass, hfeed]
    by_cases hd₂ : d₂ = [] <;> simp [hd₂]

/-- A payload of the output. -/
theorem Passes.snoc_payload (h : Passes m o ws) (hpre : (writesOf m ws).flatten ++ d <+: o.bytes) :
    Passes m o (ws ++ [(m, d)]) := by
  cases h with
  | piping rest hview hbehind hpassed => exact passes_snoc_piping hview hbehind hpassed _
  | swallowing is cur hview hread hopcodes hpassed =>
    by_cases hreach : o.head <+: (writesOf m ws).flatten ++ d
    · have hshort : (writesOf m ws).flatten <+: o.head := by
        rcases List.prefix_or_prefix_of_prefix hreach (List.prefix_append _ _) with hle | hle
        · exact absurd hle (o.not_head_prefix hread hopcodes)
        · exact hle
      obtain ⟨d₁, hd₁⟩ := hshort
      obtain ⟨d₂, hd₂⟩ := hreach
      obtain rfl : d₁ ++ d₂ = d := by
        rw [← hd₁, List.append_assoc] at hd₂
        exact List.append_cancel_left hd₂
      exact piping_snoc hview hread hopcodes hpassed hd₁
    · refine swallowing_snoc hview hread hpassed ?_ hreach
      exact (List.prefix_or_prefix_of_prefix hpre (List.prefix_append _ _)).resolve_right hreach

/-- The acks stand where the payloads in front of them end with an instruction. -/
def Aligned (m : κ) (o : Output limit) (ws : List (κ × Bytes)) : Prop :=
  ∀ pre w post, ws = pre ++ w :: post → w.1 ≠ m → o.Boundary (writesOf m pre).flatten

theorem passes_of_aligned (hpre : (writesOf m ws).flatten <+: o.bytes)
    (hacks : ∀ w ∈ ws, w.1 ≠ m → ClipboardAckFaker.Acks w.2) (h : Aligned m o ws) :
    Passes m o ws := by
  induction ws using List.reverseRecOn with
  | nil => exact .swallowing [] .start rfl rfl (by simp) rfl
  | append_singleton ws w ih =>
    obtain ⟨a, d⟩ := w
    have hrest : Aligned m o ws := by
      rintro pre w post rfl
      exact h pre w (post ++ [(a, d)]) (by simp)
    by_cases ha : a = m
    · subst ha
      rw [writesOf_append, writesOf_cons_self, writesOf_nil, List.flatten_append,
        List.flatten_singleton] at hpre
      have hws := ih ((List.prefix_append _ _).trans hpre)
        (fun w hw => hacks w (List.mem_append_left _ hw)) hrest
      exact hws.snoc_payload hpre
    · rw [writesOf_append, writesOf_cons_of_ne ha, writesOf_nil, List.append_nil] at hpre
      have hws := ih hpre (fun w hw => hacks w (List.mem_append_left _ hw)) hrest
      exact hws.snoc_ack ha (hacks (a, d) (by simp) ha) (h ws (a, d) [] rfl ha)

/-- One ack. -/
def IsAck (w : Bytes) : Prop := ∃ sidx, w = ClipboardAckFaker.makeAck sidx

/-- Everything behind the `ready` is posted, and every instruction of guacd and every ack in
one piece. -/
def Intact (m : κ) (o : Output limit) (ws posts : List (κ × Bytes)) : Prop :=
  (∃ rest, Behind m o.head ws rest ∧ (posts = rest.filter fun w => w.2 ≠ []) ∧
      Shuffled m o.drawing IsAck posts) ∨
    (¬o.head <+: (writesOf m ws).flatten ∧ posts = [])

/-- What stands behind the `ready` are the drawing of guacd and acks between its instructions. -/
theorem Behind.shuffled {rest : List (κ × Bytes)} (h : Behind m o.head ws rest)
    (hpre : (writesOf m ws).flatten <+: o.bytes)
    (hacks : ∀ w ∈ ws, w.1 ≠ m → ClipboardAckFaker.Acks w.2) (haligned : Aligned m o ws) :
    Shuffled m o.drawing IsAck rest := by
  obtain ⟨pre, d₁, d₂, post, rfl, hne, hhead, rfl⟩ := h
  have hflat : ∀ q : List (κ × Bytes), (writesOf m (pre ++ (m, d₁ ++ d₂) :: q)).flatten =
      o.head ++ (writesOf m ((m, d₂) :: q)).flatten := by
    intro q
    rw [← hhead, writesOf_append, writesOf_cons_self, writesOf_cons_self]
    simp
  refine shuffled_of_boundary ?_ ?_
  · rw [hflat, Output.bytes] at hpre
    exact (List.prefix_append_right_inj _).mp hpre
  · rintro front a d back hsplit ha -
    cases front with
    | nil => exact absurd (congrArg Prod.fst (List.cons.inj hsplit).1).symm ha
    | cons w front =>
      obtain ⟨rfl, rfl⟩ := List.cons.inj hsplit
      obtain ⟨idxs, hidxs⟩ := hacks (a, d) (by simp) ha
      refine ⟨⟨idxs.map fun sidx => (ClipboardAckFaker.ack sidx).encode, ?_, ?_⟩, ?_⟩
      · refine hidxs.trans ?_
        simp [wire, List.flatMap_def, Function.comp_def]
      · intro w hw
        obtain ⟨sidx, -, rfl⟩ := List.mem_map.mp hw
        exact ⟨sidx.1, ClipboardAckFaker.encode_ack sidx⟩
      · have hboundary := haligned (pre ++ (m, d₁ ++ d₂) :: front) (a, d) back (by simp) ha
        rw [hflat] at hboundary
        rcases hboundary with ⟨is, his, heq⟩ | ⟨is, -, heq⟩
        · -- the reply is too short to reach the ready
          have hlen := congrArg List.length heq
          have hreply := length_wire_le_of_sublist his.sublist
          have hready := List.length_pos_of_ne_nil o.ready.encode_ne_nil
          simp only [Output.head, wire_append, wire_cons, wire_nil, List.append_nil,
            List.length_append] at hlen
          omega
        · exact ⟨is, List.append_cancel_left heq⟩

theorem intact_of_passes (h : Passes m o ws) (hpre : (writesOf m ws).flatten <+: o.bytes)
    (hacks : ∀ w ∈ ws, w.1 ≠ m → ClipboardAckFaker.Acks w.2) (haligned : Aligned m o ws) :
    Intact m o ws (View.start.passAll ws) := by
  cases h with
  | swallowing is cur hview hread hopcodes hpassed =>
    exact .inr ⟨o.not_head_prefix hread hopcodes, hpassed⟩
  | piping rest hview hbehind hpassed =>
    refine .inl ⟨rest, hbehind, hpassed, ?_⟩
    refine (hbehind.shuffled hpre hacks haligned).mono ?_
    rw [hpassed, labelled_filter_ne_nil]

end

end ReturnFilter

end GuacamoleDiode
