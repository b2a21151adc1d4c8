import GuacamoleDiode.Lib.Wire

/-!
# Reading an instruction stream byte by byte

A reader that advances a `Cursor` one byte at a time and hands out an
instruction whenever a semicolon closes one. It fails on the first byte that no
continuation can repair, so that a byte string can be read exactly when it is a
beginning of some sequence of instructions.

## Main results

- `Cursor.read_bytes` — reading splits the bytes into whole instructions and the
  bytes of the final cursor
- `Cursor.read_wire_append_bytes` — conversely every such split is found
- `Cursor.exists_read_iff` — the readable byte strings are the beginnings of
  instruction sequences
- `Cursor.completed_append` — the instructions that a stream completes before it
  leaves the grammar, piece by piece
- `Cursor.next_start_eq_some_iff` — the instruction that is completed first is the
  one that the bytes begin with
-/

namespace Wire

variable {limit : ℕ}

namespace Partial

theorem isDigit_snoc {digits : Bytes} {c : UInt8} (hd : ∀ b ∈ digits, isDigit b = true)
    (hc : isDigit c = true) : ∀ b ∈ digits ++ [c], isDigit b = true := by
  simpa [or_imp, forall_and] using ⟨hd, hc⟩

theorem le_127_nil : ∀ b ∈ ([] : Bytes), b ≤ 127 := by simp

theorem le_127_snoc {value : Bytes} {c : UInt8} (ha : ∀ b ∈ value, b ≤ 127) (hc : c ≤ 127) :
    ∀ b ∈ value ++ [c], b ≤ 127 := by
  simpa [or_imp, forall_and] using ⟨ha, hc⟩

section Counting

variable {digits value : Bytes} {c : UInt8}

theorem nil_length_lt (h : declared digits ≠ 0) : ([] : Bytes).length < declared digits :=
  Nat.pos_of_ne_zero h

theorem ne_nil_of_last (h : value.length + 1 = declared digits) : digits ≠ [] := by
  rintro rfl
  simp at h

theorem declared_of_last (h : value.length + 1 = declared digits) :
    declared digits = (value ++ [c]).length := by
  simp [h]

theorem length_le_of_last (hle : declared digits ≤ limit) (h : value.length + 1 = declared digits) :
    (value ++ [c]).length ≤ limit := by
  simpa [h] using hle

theorem length_lt_of_not_last (hm : value.length < declared digits)
    (h : ¬value.length + 1 = declared digits) : (value ++ [c]).length < declared digits := by
  rw [List.length_append, List.length_singleton]
  omega

end Counting

/-- Advance a partial element by one byte; delimiters are left to the cursor. -/
def feed (c : UInt8) : Partial limit → Option (Partial limit)
  | .length digits hd hle =>
    if hc : isDigit c = true then
      if h : declared (digits ++ [c]) ≤ limit then
        some (.length (digits ++ [c]) (isDigit_snoc hd hc) h)
      else none
    else if c = dot then
      if hne : digits = [] then none
      else if h0 : declared digits = 0 then
        some (.delim ⟨digits, [], hne, hd, h0, Nat.zero_le _, le_127_nil⟩)
      else some (.data digits [] hd hle (nil_length_lt h0) le_127_nil)
    else none
  | .data digits value hd hle hm ha =>
    if hc : c ≤ 127 then
      if h : value.length + 1 = declared digits then
        some (.delim ⟨digits, value ++ [c], ne_nil_of_last h, hd, declared_of_last h,
          length_le_of_last hle h, le_127_snoc ha hc⟩)
      else some (.data digits (value ++ [c]) hd hle (length_lt_of_not_last hm h)
        (le_127_snoc ha hc))
    else none
  | .delim _ => none

theorem bytes_feed {q q' : Partial limit} {c : UInt8} (h : q.feed c = some q') :
    q'.bytes = q.bytes ++ [c] := by
  cases q with
  | length digits hd hle =>
    simp only [feed] at h
    split_ifs at h with hc h1 hdot hne h0
    · cases h; rfl
    · cases h; simp [bytes, Element.body, hdot]
    · cases h; simp [bytes, hdot]
  | data digits value hd hle hm ha =>
    simp only [feed] at h
    split_ifs at h with hc h1
    · cases h; simp [bytes, Element.body]
    · cases h; simp [bytes]
  | delim e => simp [feed] at h

end Partial

/-- What a byte makes of a cursor: a longer cursor, or a whole instruction. -/
inductive Fed (limit : ℕ) where
  | more (cur : Cursor limit)
  | done (i : Instruction limit)

namespace Cursor

/-- Advance a cursor by one byte. -/
def feed (cur : Cursor limit) (c : UInt8) : Option (Fed limit) :=
  match cur.part with
  | .delim e =>
    if c = comma then some (.more ⟨cur.closed ++ [e], .start⟩)
    else if c = semicolon then some (.done ⟨cur.closed ++ [e], by simp⟩)
    else none
  | part => (part.feed c).map fun q => .more ⟨cur.closed, q⟩

theorem feed_comma (closed : List (Element limit)) (e : Element limit) :
    (⟨closed, .delim e⟩ : Cursor limit).feed comma = some (.more ⟨closed ++ [e], .start⟩) := by
  simp [feed]

theorem feed_semicolon (closed : List (Element limit)) (e : Element limit) :
    (⟨closed, .delim e⟩ : Cursor limit).feed semicolon =
      some (.done ⟨closed ++ [e], by simp⟩) := by
  have hne : semicolon ≠ comma := by decide
  simp [feed, hne]

/-- Behind a complete element only a comma continues the instruction. -/
theorem feed_delim_more {closed : List (Element limit)} {e : Element limit} {c : UInt8}
    {cur : Cursor limit} (h : (⟨closed, .delim e⟩ : Cursor limit).feed c = some (.more cur)) :
    c = comma ∧ cur = ⟨closed ++ [e], .start⟩ := by
  simp only [feed] at h
  split_ifs at h with h1 h2
  · cases h
    exact ⟨h1, rfl⟩
  · cases h

/-- Read a byte string: the instructions it completes and the cursor behind it. -/
def read : Cursor limit → Bytes → Option (List (Instruction limit) × Cursor limit)
  | cur, [] => some ([], cur)
  | cur, c :: w =>
    match cur.feed c with
    | none => none
    | some (.more cur') => cur'.read w
    | some (.done i) => (read start w).map fun r => (i :: r.1, r.2)

@[simp] theorem read_nil (cur : Cursor limit) : cur.read [] = some ([], cur) := rfl

theorem read_cons_none {cur : Cursor limit} {c : UInt8} (h : cur.feed c = none) (w : Bytes) :
    cur.read (c :: w) = none := by
  simp [read, h]

theorem read_cons_more {cur cur' : Cursor limit} {c : UInt8} (h : cur.feed c = some (.more cur'))
    (w : Bytes) : cur.read (c :: w) = cur'.read w := by
  simp [read, h]

theorem read_cons_done {cur : Cursor limit} {c : UInt8} {i : Instruction limit}
    (h : cur.feed c = some (.done i)) (w : Bytes) :
    cur.read (c :: w) = (start.read w).map fun r => (i :: r.1, r.2) := by
  simp [read, h]

-- ════════════════════════════════════════════════════════════════════════
-- What a read has consumed
-- ════════════════════════════════════════════════════════════════════════

theorem bytes_feed_more {cur cur' : Cursor limit} {c : UInt8}
    (h : cur.feed c = some (.more cur')) : cur'.bytes = cur.bytes ++ [c] := by
  obtain ⟨closed, part⟩ := cur
  cases part with
  | delim e =>
    simp only [feed] at h
    split_ifs at h with h1 h2
    · cases h
      subst h1
      simp [bytes]
    · cases h
  | length digits hd hle =>
    simp only [feed, Option.map_eq_some_iff] at h
    obtain ⟨q, hq, heq⟩ := h
    cases heq
    simp [bytes, Partial.bytes_feed hq]
  | data digits value hd hle hm ha =>
    simp only [feed, Option.map_eq_some_iff] at h
    obtain ⟨q, hq, heq⟩ := h
    cases heq
    simp [bytes, Partial.bytes_feed hq]

/-- Only the delimiter of a complete element ends an instruction. -/
theorem feed_eq_done {cur : Cursor limit} {c : UInt8} {i : Instruction limit}
    (h : cur.feed c = some (.done i)) :
    c = semicolon ∧ ∃ e, cur.part = .delim e ∧ i = ⟨cur.closed ++ [e], by simp⟩ := by
  obtain ⟨closed, part⟩ := cur
  cases part with
  | delim e =>
    simp only [feed] at h
    split_ifs at h with h1 h2
    · cases h
    · cases h
      exact ⟨h2, e, rfl, rfl⟩
  | length digits hd hle => simp [feed] at h
  | data digits value hd hle hm ha => simp [feed] at h

theorem bytes_feed_done {cur : Cursor limit} {c : UInt8} {i : Instruction limit}
    (h : cur.feed c = some (.done i)) : i.encode = cur.bytes ++ [c] := by
  obtain ⟨rfl, e, he, rfl⟩ := feed_eq_done h
  rw [Instruction.encode_mk_append]
  simp [bytes, he]

/-- Reading splits the bytes into whole instructions and the bytes of the final cursor. -/
theorem read_bytes {cur cur' : Cursor limit} {w : Bytes} {is : List (Instruction limit)}
    (h : cur.read w = some (is, cur')) : cur.bytes ++ w = wire is ++ cur'.bytes := by
  induction w generalizing cur is with
  | nil =>
    cases h
    simp
  | cons c w ih =>
    cases hf : cur.feed c with
    | none => simp [read_cons_none hf] at h
    | some fed =>
      cases fed with
      | more cur₁ =>
        rw [read_cons_more hf] at h
        rw [← ih h, bytes_feed_more hf]
        simp
      | done i =>
        rw [read_cons_done hf, Option.map_eq_some_iff] at h
        obtain ⟨⟨js, cur₂⟩, hr, heq⟩ := h
        cases heq
        have := ih hr
        rw [bytes_start, List.nil_append] at this
        simp [this, bytes_feed_done hf]

/-- Closed elements stay closed: the instruction in progress only grows. -/
theorem closed_feed_more {cur cur' : Cursor limit} {c : UInt8}
    (h : cur.feed c = some (.more cur')) : cur.closed <+: cur'.closed := by
  obtain ⟨closed, part⟩ := cur
  cases part with
  | delim e =>
    simp only [feed] at h
    split_ifs at h
    · cases h
      exact List.prefix_append _ _
    · cases h
  | length digits hd hle =>
    simp only [feed, Option.map_eq_some_iff] at h
    obtain ⟨q, -, heq⟩ := h
    cases heq
    exact List.prefix_rfl
  | data digits value hd hle hm ha =>
    simp only [feed, Option.map_eq_some_iff] at h
    obtain ⟨q, -, heq⟩ := h
    cases heq
    exact List.prefix_rfl

/-- The elements closed so far belong to the instruction that is completed first, or to
the instruction that is still in progress. -/
theorem closed_read {cur cur' : Cursor limit} {w : Bytes} {is : List (Instruction limit)}
    (h : cur.read w = some (is, cur')) :
    (is = [] ∧ cur.closed <+: cur'.closed) ∨ ∃ i ∈ is.head?, cur.closed <+: i.elements := by
  induction w generalizing cur with
  | nil =>
    cases h
    exact .inl ⟨rfl, List.prefix_rfl⟩
  | cons c w ih =>
    cases hf : cur.feed c with
    | none => simp [read_cons_none hf] at h
    | some fed =>
      cases fed with
      | more cur₁ =>
        rw [read_cons_more hf] at h
        have hcl := closed_feed_more hf
        rcases ih h with ⟨hnil, hpre⟩ | ⟨i, hi, hpre⟩
        · exact .inl ⟨hnil, hcl.trans hpre⟩
        · exact .inr ⟨i, hi, hcl.trans hpre⟩
      | done i =>
        rw [read_cons_done hf, Option.map_eq_some_iff] at h
        obtain ⟨⟨js, cur₂⟩, -, heq⟩ := h
        cases heq
        obtain ⟨-, e, -, rfl⟩ := feed_eq_done hf
        exact .inr ⟨_, rfl, List.prefix_append _ _⟩

/-- Reading one string after another. -/
theorem read_append (cur : Cursor limit) (u v : Bytes) :
    cur.read (u ++ v) = (cur.read u).bind fun r => (r.2.read v).map fun q => (r.1 ++ q.1, q.2) := by
  induction u generalizing cur with
  | nil => cases h : cur.read v <;> simp [h]
  | cons c u ih =>
    rw [List.cons_append]
    cases hf : cur.feed c with
    | none => simp [read_cons_none hf]
    | some fed =>
      cases fed with
      | more cur₁ => rw [read_cons_more hf, read_cons_more hf, ih]
      | done i =>
        rw [read_cons_done hf, read_cons_done hf, ih]
        cases start.read u with
        | none => rfl
        | some r => cases h : r.2.read v <;> simp [h]

theorem read_append_of_eq_some {cur cur' : Cursor limit} {u : Bytes} {is : List (Instruction limit)}
    (h : cur.read u = some (is, cur')) (v : Bytes) :
    cur.read (u ++ v) = (cur'.read v).map fun q => (is ++ q.1, q.2) := by
  rw [read_append, h]
  rfl

theorem exists_read_of_read_append {cur : Cursor limit} {u v : Bytes}
    {r : List (Instruction limit) × Cursor limit} (h : cur.read (u ++ v) = some r) :
    ∃ q, cur.read u = some q := by
  rw [read_append, Option.bind_eq_some_iff] at h
  obtain ⟨q, hq, _⟩ := h
  exact ⟨q, hq⟩

-- ════════════════════════════════════════════════════════════════════════
-- Every encoding is read back
-- ════════════════════════════════════════════════════════════════════════

/-- Bytes that only extend the element being received leave the closed elements alone. -/
theorem read_singleton_of_feed {closed : List (Element limit)} {q q' : Partial limit} {c : UInt8}
    (h : q.feed c = some q') :
    (⟨closed, q⟩ : Cursor limit).read [c] = some ([], ⟨closed, q'⟩) := by
  cases q with
  | delim e => simp [Partial.feed] at h
  | length digits hd hle => simp [read, feed, h]
  | data digits value hd hle hm ha => simp [read, feed, h]

theorem read_digits (closed : List (Element limit)) (digits : Bytes)
    (hd : ∀ d ∈ digits, isDigit d = true) (hle : declared digits ≤ limit) :
    (⟨closed, .start⟩ : Cursor limit).read digits = some ([], ⟨closed, .length digits hd hle⟩) := by
  induction digits using List.reverseRecOn with
  | nil => rfl
  | append_singleton ds d ih =>
    have hds : ∀ x ∈ ds, isDigit x = true := fun x hx => hd x (by simp [hx])
    have hle' := (declared_le_declared_append_singleton ds d).trans hle
    have hfeed : (Partial.length ds hds hle').feed d = some (.length (ds ++ [d]) hd hle) := by
      simp only [Partial.feed]
      rw [dif_pos (hd d (by simp)), dif_pos hle]
    rw [read_append_of_eq_some (ih hds hle'), read_singleton_of_feed hfeed]
    rfl

theorem read_data (closed : List (Element limit)) (digits value : Bytes)
    (hd : ∀ d ∈ digits, isDigit d = true) (hle : declared digits ≤ limit)
    (hm : value.length < declared digits) (ha : ∀ b ∈ value, b ≤ 127) :
    (⟨closed, .start⟩ : Cursor limit).read (digits ++ dot :: value) =
      some ([], ⟨closed, .data digits value hd hle hm ha⟩) := by
  induction value using List.reverseRecOn with
  | nil =>
    have hne : digits ≠ [] := by rintro rfl; simp at hm
    have h0 : declared digits ≠ 0 := by simp at hm; omega
    have hfeed : (Partial.length digits hd hle).feed dot =
        some (.data digits [] hd hle hm ha) := by
      simp only [Partial.feed]
      rw [dif_neg (by decide), if_pos trivial, dif_neg hne, dif_neg h0]
    rw [read_append_of_eq_some (read_digits closed digits hd hle), read_singleton_of_feed hfeed]
    rfl
  | append_singleton v b ih =>
    have hm' : v.length < declared digits := by simp at hm; omega
    have ha' : ∀ x ∈ v, x ≤ 127 := fun x hx => ha x (by simp [hx])
    have hfeed : (Partial.data digits v hd hle hm' ha').feed b =
        some (.data digits (v ++ [b]) hd hle hm ha) := by
      simp only [Partial.feed]
      rw [dif_pos (ha b (by simp)), dif_neg (by simp at hm; omega)]
    rw [show digits ++ dot :: (v ++ [b]) = (digits ++ dot :: v) ++ [b] by simp,
      read_append_of_eq_some (ih hm' ha'), read_singleton_of_feed hfeed]
    rfl

theorem read_body (closed : List (Element limit)) (e : Element limit) :
    (⟨closed, .start⟩ : Cursor limit).read e.body = some ([], ⟨closed, .delim e⟩) := by
  obtain ⟨digits, value, hne, hd, heq, hle, ha⟩ := e
  rcases List.eq_nil_or_concat value with rfl | ⟨v, b, rfl⟩
  · have h0 : declared digits = 0 := by simpa using heq
    have hfeed : (Partial.length digits hd (by omega)).feed dot =
        some (.delim ⟨digits, [], hne, hd, heq, hle, ha⟩ : Partial limit) := by
      simp only [Partial.feed]
      rw [dif_neg (by decide), if_pos trivial, dif_neg hne, dif_pos h0]
    change (⟨closed, .start⟩ : Cursor limit).read (digits ++ [dot]) = _
    rw [read_append_of_eq_some (read_digits closed digits hd (by omega)),
      read_singleton_of_feed hfeed]
    rfl
  · rw [List.concat_eq_append] at heq hle ha
    have hm : v.length < declared digits := by simp at heq; omega
    have ha' : ∀ x ∈ v, x ≤ 127 := fun x hx => ha x (by simp [hx])
    have hfeed : (Partial.data digits v hd (heq ▸ hle) hm ha').feed b =
        some (.delim ⟨digits, v ++ [b], hne, hd, heq, hle, ha⟩ : Partial limit) := by
      simp only [Partial.feed]
      rw [dif_pos (ha b (by simp)), dif_pos (by simp at heq; omega)]
    simp only [List.concat_eq_append, Element.body]
    rw [show digits ++ dot :: (v ++ [b]) = (digits ++ dot :: v) ++ [b] by simp,
      read_append_of_eq_some (read_data closed digits v hd (heq ▸ hle) hm ha'),
      read_singleton_of_feed hfeed]
    rfl

theorem read_partial (closed : List (Element limit)) (q : Partial limit) :
    (⟨closed, .start⟩ : Cursor limit).read q.bytes = some ([], ⟨closed, q⟩) := by
  cases q with
  | length digits hd hle => exact read_digits closed digits hd hle
  | data digits value hd hle hm ha => exact read_data closed digits value hd hle hm ha
  | delim e => exact read_body closed e

theorem read_closedBytes (es : List (Element limit)) :
    start.read (closedBytes es) = some ([], ⟨es, .start⟩) := by
  induction es using List.reverseRecOn with
  | nil => rfl
  | append_singleton es e ih =>
    rw [closedBytes_append_singleton, read_append_of_eq_some ih,
      read_append_of_eq_some (read_body es e), read_cons_more (feed_comma es e)]
    rfl

/-- A cursor is reached by reading its own bytes. -/
theorem read_bytes_self (cur : Cursor limit) : start.read cur.bytes = some ([], cur) := by
  rw [bytes, read_append_of_eq_some (read_closedBytes cur.closed), read_partial]
  rfl

theorem read_encode (i : Instruction limit) : start.read i.encode = some ([i], start) := by
  obtain ⟨es, e, rfl⟩ := i.exists_eq_append
  rw [Instruction.encode_mk_append, read_append_of_eq_some (read_closedBytes es),
    read_append_of_eq_some (read_body es e), read_cons_done (feed_semicolon es e)]
  rfl

theorem read_wire (is : List (Instruction limit)) : start.read (wire is) = some (is, start) := by
  induction is with
  | nil => rfl
  | cons i is ih =>
    rw [wire_cons, read_append_of_eq_some (read_encode i), ih]
    rfl

/-- Whole instructions followed by the bytes of a cursor are read as just that. -/
theorem read_wire_append_bytes (is : List (Instruction limit)) (cur : Cursor limit) :
    start.read (wire is ++ cur.bytes) = some (is, cur) := by
  rw [read_append_of_eq_some (read_wire is), read_bytes_self]
  simp

/-- A byte string splits into whole instructions and a cursor in one way only. -/
theorem split_unique {is js : List (Instruction limit)} {cur cur' : Cursor limit}
    (h : wire is ++ cur.bytes = wire js ++ cur'.bytes) : is = js ∧ cur = cur' := by
  have hr := read_wire_append_bytes is cur
  rw [h, read_wire_append_bytes] at hr
  simpa [eq_comm] using hr

-- ════════════════════════════════════════════════════════════════════════
-- Beginnings of instruction sequences
-- ════════════════════════════════════════════════════════════════════════

/-- Every length up to `limit` is the length of some element with given digits. -/
theorem exists_element_of_declared {digits : Bytes} (hne : digits ≠ [])
    (hd : ∀ d ∈ digits, isDigit d = true) (hle : declared digits ≤ limit) (v : Bytes)
    (hv : v.length ≤ declared digits) (ha : ∀ b ∈ v, b ≤ 127) :
    ∃ (e : Element limit) (rest : Bytes), e.digits = digits ∧ e.value = v ++ rest := by
  let rest : Bytes := List.replicate (declared digits - v.length) 48
  have hlen : (v ++ rest).length = declared digits := by simp [rest]; omega
  refine ⟨⟨digits, v ++ rest, hne, hd, hlen.symm, hlen ▸ hle, ?_⟩, rest, rfl, rfl⟩
  intro b hb
  rcases List.mem_append.mp hb with h | h
  · exact ha b h
  · rw [List.eq_of_mem_replicate h]
    decide

/-- A partial element is the beginning of an element. -/
theorem exists_body_of_partial (q : Partial limit) :
    ∃ (e : Element limit) (rest : Bytes), q.bytes ++ rest = e.body := by
  cases q with
  | length digits hd hle =>
    by_cases hne : digits = []
    · subst hne
      exact ⟨⟨[48], [], by simp, by decide +kernel, by decide +kernel, by simp, by simp⟩, [48, dot], rfl⟩
    · obtain ⟨e, rest, he, hv⟩ :=
        exists_element_of_declared hne hd hle [] (by simp) (by simp)
      exact ⟨e, dot :: rest, by simp [Partial.bytes, Element.body, he, hv]⟩
  | data digits value hd hle hm ha =>
    have hne : digits ≠ [] := by rintro rfl; simp at hm
    obtain ⟨e, rest, he, hv⟩ := exists_element_of_declared hne hd hle value hm.le ha
    exact ⟨e, rest, by simp [Partial.bytes, Element.body, he, hv]⟩
  | delim e => exact ⟨e, [], by simp⟩

/-- A cursor is the beginning of an instruction. -/
theorem exists_encode (cur : Cursor limit) :
    ∃ (i : Instruction limit) (rest : Bytes), cur.bytes ++ rest = i.encode := by
  obtain ⟨e, rest, he⟩ := exists_body_of_partial cur.part
  refine ⟨⟨cur.closed ++ [e], by simp⟩, rest ++ [semicolon], ?_⟩
  rw [Instruction.encode_mk_append, ← he]
  simp [bytes]

/-- The readable byte strings are the beginnings of instruction sequences. -/
theorem exists_read_iff {w : Bytes} :
    (∃ r, (start : Cursor limit).read w = some r) ↔
      ∃ is : List (Instruction limit), w <+: wire is := by
  constructor
  · rintro ⟨⟨is, cur⟩, h⟩
    obtain ⟨i, rest, hi⟩ := cur.exists_encode
    have hw := read_bytes h
    rw [bytes_start, List.nil_append] at hw
    exact ⟨is ++ [i], rest, by simp [hw, ← hi]⟩
  · rintro ⟨is, rest, h⟩
    have hr := read_wire is
    rw [← h] at hr
    exact exists_read_of_read_append hr

/-- A readable string splits, and a string that splits is readable. -/
theorem read_start_eq_some_iff {w : Bytes} {is : List (Instruction limit)} {cur : Cursor limit} :
    start.read w = some (is, cur) ↔ w = wire is ++ cur.bytes := by
  constructor
  · intro h
    simpa using read_bytes h
  · rintro rfl
    exact read_wire_append_bytes is cur

/-- A cursor reads whatever completes its bytes to a string that splits. -/
theorem read_eq_some_iff {cur cur' : Cursor limit} {w : Bytes} {is : List (Instruction limit)} :
    cur.read w = some (is, cur') ↔ cur.bytes ++ w = wire is ++ cur'.bytes := by
  rw [← read_start_eq_some_iff, read_append_of_eq_some (read_bytes_self cur)]
  simp

-- ════════════════════════════════════════════════════════════════════════
-- Streams that may leave the grammar
-- ════════════════════════════════════════════════════════════════════════

/-- The instructions that are completed before a byte leaves the grammar. -/
def completed : Cursor limit → Bytes → List (Instruction limit)
  | _, [] => []
  | cur, c :: w =>
    match cur.feed c with
    | none => []
    | some (.more cur) => completed cur w
    | some (.done i) => i :: completed .start w

/-- One byte completes one instruction at most. -/
theorem read_singleton {cur cur' : Cursor limit} {c : UInt8} {is : List (Instruction limit)}
    (h : cur.read [c] = some (is, cur')) : is = [] ∨ ∃ i, is = [i] := by
  cases hf : cur.feed c with
  | none => simp [read_cons_none hf] at h
  | some fed =>
    cases fed with
    | more cur₁ =>
      rw [read_cons_more hf] at h
      cases h
      exact .inl rfl
    | done i =>
      rw [read_cons_done hf, Option.map_eq_some_iff] at h
      obtain ⟨⟨js, cur₂⟩, hr, heq⟩ := h
      cases hr
      cases heq
      exact .inr ⟨i, rfl⟩

theorem completed_of_read {cur cur' : Cursor limit} {w : Bytes} {is : List (Instruction limit)}
    (h : cur.read w = some (is, cur')) : cur.completed w = is := by
  induction w generalizing cur is with
  | nil =>
    cases h
    rfl
  | cons c w ih =>
    rw [completed]
    cases hf : cur.feed c with
    | none => simp [read_cons_none hf] at h
    | some fed =>
      cases fed with
      | more cur₁ =>
        rw [read_cons_more hf] at h
        exact ih h
      | done i =>
        rw [read_cons_done hf, Option.map_eq_some_iff] at h
        obtain ⟨⟨js, cur₂⟩, hr, heq⟩ := h
        cases heq
        exact congrArg (i :: ·) (ih hr)

/-- What follows completes more instructions, unless the stream has left the grammar. -/
theorem completed_append (cur : Cursor limit) (u w : Bytes) :
    cur.completed (u ++ w) = cur.completed u ++
      ((cur.read u).map fun r => r.2.completed w).getD [] := by
  induction u generalizing cur with
  | nil => simp [completed]
  | cons c u ih =>
    rw [List.cons_append, completed, completed]
    cases hf : cur.feed c with
    | none => simp [read_cons_none hf]
    | some fed =>
      cases fed with
      | more cur₁ =>
        rw [read_cons_more hf]
        exact ih cur₁
      | done i =>
        rw [read_cons_done hf, Option.map_map]
        exact congrArg (i :: ·) (ih .start)

/-- The completed instructions are the beginning of the stream. -/
theorem wire_completed (cur : Cursor limit) (w : Bytes) :
    wire (cur.completed w) <+: cur.bytes ++ w := by
  induction w generalizing cur with
  | nil => exact List.nil_prefix
  | cons c w ih =>
    rw [completed]
    cases hf : cur.feed c with
    | none => exact List.nil_prefix
    | some fed =>
      cases fed with
      | more cur₁ =>
        have hinit := ih cur₁
        rwa [bytes_feed_more hf, List.append_assoc, List.singleton_append] at hinit
      | done i =>
        have hinit : wire (start.completed w) <+: w := ih .start
        have hbytes : cur.bytes ++ c :: w = i.encode ++ w := by
          rw [bytes_feed_done hf, List.append_assoc, List.singleton_append]
        rw [hbytes]
        dsimp only
        rw [wire_cons]
        exact (List.prefix_append_right_inj i.encode).mpr hinit

-- ════════════════════════════════════════════════════════════════════════
-- The first instruction
-- ════════════════════════════════════════════════════════════════════════

/-- The instruction that is completed first, and the bytes behind it. -/
def next : Cursor limit → Bytes → Option (Instruction limit × Bytes)
  | _, [] => none
  | cur, c :: w =>
    match cur.feed c with
    | none => none
    | some (.more cur) => next cur w
    | some (.done i) => some (i, w)

section

variable {cur cur' : Cursor limit} {c : UInt8} {i : Instruction limit}

theorem next_cons_none (h : cur.feed c = none) (w : Bytes) : cur.next (c :: w) = none := by
  rw [next, h]

theorem next_cons_more (h : cur.feed c = some (.more cur')) (w : Bytes) :
    cur.next (c :: w) = cur'.next w := by
  rw [next, h]

theorem next_cons_done (h : cur.feed c = some (.done i)) (w : Bytes) :
    cur.next (c :: w) = some (i, w) := by
  rw [next, h]

theorem next_bytes {w rest : Bytes} (h : cur.next w = some (i, rest)) :
    cur.bytes ++ w = i.encode ++ rest := by
  induction w generalizing cur with
  | nil => cases h
  | cons c w ih =>
    cases hf : cur.feed c with
    | none =>
      rw [next_cons_none hf] at h
      cases h
    | some fed =>
      cases fed with
      | more cur₁ =>
        rw [next_cons_more hf] at h
        have hbytes := ih h
        rwa [bytes_feed_more hf, List.append_assoc, List.singleton_append] at hbytes
      | done j =>
        rw [next_cons_done hf] at h
        cases h
        rw [bytes_feed_done hf, List.append_assoc, List.singleton_append]

/-- A read that ends with one instruction finds it first, whatever comes behind it. -/
theorem next_of_read {u : Bytes} (h : cur.read u = some ([i], start)) (rest : Bytes) :
    cur.next (u ++ rest) = some (i, rest) := by
  induction u generalizing cur with
  | nil => cases h
  | cons c u ih =>
    rw [List.cons_append]
    cases hf : cur.feed c with
    | none =>
      rw [read_cons_none hf] at h
      cases h
    | some fed =>
      cases fed with
      | more cur₁ =>
        rw [read_cons_more hf] at h
        rw [next_cons_more hf]
        exact ih h
      | done j =>
        rw [read_cons_done hf, Option.map_eq_some_iff] at h
        obtain ⟨⟨is, cur₂⟩, hr, heq⟩ := h
        cases heq
        have hu : u = [] := read_bytes hr
        rw [next_cons_done hf, hu, List.nil_append]

/-- The first instruction is the one that the bytes begin with. -/
theorem next_start_eq_some_iff {w rest : Bytes} :
    start.next w = some (i, rest) ↔ w = i.encode ++ rest := by
  constructor
  · intro h
    simpa using next_bytes h
  · rintro rfl
    exact next_of_read (read_encode i) rest

end

end Cursor

end Wire
