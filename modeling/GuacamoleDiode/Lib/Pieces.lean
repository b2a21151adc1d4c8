import GuacamoleDiode.Lib.Reader

/-!
# Instruction streams cut into pieces

A stream arrives in pieces whose borders fall anywhere. `Whole` says that an
instruction lies inside one of them. The lemmas say how this changes as the pieces
are read one after the other.
-/

namespace Wire

variable {limit : ℕ}

/-- The instruction that follows `before` lies wholly inside one of the pieces. The
bytes of `carry` have been received in front of the first piece. -/
def Whole (carry : Bytes) (pieces : List Bytes) (before : List (Instruction limit))
    (i : Instruction limit) : Prop :=
  ∃ pre piece post a b, pieces = pre ++ piece :: post ∧ piece = a ++ i.encode ++ b ∧
    carry ++ pre.flatten ++ a = wire before

namespace Cursor

/-- What has been received of an instruction contains no whole instruction. -/
theorem bytes_ne_wire_append {cur : Cursor limit} {is : List (Instruction limit)} (hne : is ≠ [])
    (x : Bytes) : cur.bytes ≠ wire is ++ x := by
  intro h
  have hself := read_bytes_self cur
  rw [h, read_append_of_eq_some (read_wire is), Option.map_eq_some_iff] at hself
  obtain ⟨r, -, hr⟩ := hself
  have hfst := congrArg Prod.fst hr
  simp [hne] at hfst

/-- A piece that completes an instruction ends behind the part received before. -/
theorem bytes_prefix_wire {cur cur' : Cursor limit} {d : Bytes} {is js : List (Instruction limit)}
    (h : cur.read d = some (is ++ js, cur')) (hne : is ≠ []) : cur.bytes <+: wire is := by
  have hb := read_bytes h
  rw [wire_append, List.append_assoc] at hb
  rcases List.prefix_or_prefix_of_prefix ⟨_, hb⟩ (List.prefix_append (wire is) _) with
    hp | ⟨x, hx⟩
  · exact hp
  · exact absurd hx.symm (bytes_ne_wire_append hne x)

/-- The first byte that no sequence of instructions continues with. -/
theorem exists_offending {cur : Cursor limit} {pieces : List Bytes}
    (h : cur.read pieces.flatten = none) :
    ∃ pre good bad rest post, pieces = pre ++ (good ++ bad :: rest) :: post ∧
      (∃ r, cur.read (pre.flatten ++ good) = some r) ∧
      cur.read (pre.flatten ++ good ++ [bad]) = none := by
  induction pieces generalizing cur with
  | nil => simp at h
  | cons d pieces ih =>
    cases hd : cur.read d with
    | none =>
      clear ih h
      suffices ∃ good bad rest, d = good ++ bad :: rest ∧ (∃ r, cur.read good = some r) ∧
          cur.read (good ++ [bad]) = none by
        obtain ⟨good, bad, rest, rfl, hgood, hbad⟩ := this
        exact ⟨[], good, bad, rest, pieces, rfl, hgood, hbad⟩
      induction d using List.reverseRecOn with
      | nil => simp at hd
      | append_singleton d c ih =>
        cases hd' : cur.read d with
        | none =>
          obtain ⟨good, bad, rest, rfl, hgood, hbad⟩ := ih hd'
          exact ⟨good, bad, rest ++ [c], by simp, hgood, hbad⟩
        | some r => exact ⟨d, c, [], rfl, ⟨r, hd'⟩, hd⟩
    | some r =>
      obtain ⟨is, cur₁⟩ := r
      rw [List.flatten_cons, read_append_of_eq_some hd, Option.map_eq_none_iff] at h
      obtain ⟨pre, good, bad, rest, post, rfl, ⟨r, hr⟩, hbad⟩ := ih h
      refine ⟨d :: pre, good, bad, rest, post, rfl, ⟨(is ++ r.1, r.2), ?_⟩, ?_⟩
      · rw [List.flatten_cons, List.append_assoc, read_append_of_eq_some hd, hr]
        rfl
      · rw [List.flatten_cons, List.append_assoc, List.append_assoc,
          read_append_of_eq_some hd, ← List.append_assoc, hbad]
        rfl

theorem not_prefix_iff {w : Bytes} :
    (¬∃ is : List (Instruction limit), w <+: wire is) ↔
      (start : Cursor limit).read w = none := by
  rw [← exists_read_iff, not_exists, Option.eq_none_iff_forall_ne_some]

end Cursor

theorem not_whole_of_carry {carry : Bytes} (hne : carry ≠ []) (pieces : List Bytes)
    (i : Instruction limit) : ¬Whole carry pieces [] i := by
  rintro ⟨pre, piece, post, a, b, -, -, h⟩
  simp [hne] at h

/-- An instruction that a piece completes lies inside it, unless it began before. -/
theorem whole_cons_of_read {cur cur' : Cursor limit} {d : Bytes} {is js : List (Instruction limit)}
    {i : Instruction limit} (h : cur.read d = some (is ++ i :: js, cur'))
    (hstart : is = [] → cur.bytes = []) (pieces : List Bytes) :
    Whole cur.bytes (d :: pieces) is i := by
  have hpre : cur.bytes <+: wire is := by
    by_cases hnil : is = []
    · rw [hstart hnil]
      exact List.nil_prefix
    · exact Cursor.bytes_prefix_wire h hnil
  obtain ⟨a, ha⟩ := hpre
  refine ⟨[], d, pieces, a, wire js ++ cur'.bytes, rfl, ?_, by simpa using ha⟩
  have hb := Cursor.read_bytes h
  rw [wire_append, ← ha] at hb
  simpa using hb

/-- Reading a piece moves the question on to the pieces behind it. -/
theorem whole_cons_iff {cur cur' : Cursor limit} {d : Bytes} {is : List (Instruction limit)}
    (h : cur.read d = some (is, cur')) (pieces : List Bytes) (before : List (Instruction limit))
    (i : Instruction limit) :
    Whole cur.bytes (d :: pieces) (is ++ before) i ↔ Whole cur'.bytes pieces before i := by
  have hb := Cursor.read_bytes h
  constructor
  · rintro ⟨pre, piece, post, a, b, hpieces, hpiece, hwire⟩
    cases pre with
    | nil =>
      -- the instruction would be completed by the first piece
      obtain ⟨rfl, rfl⟩ : d = piece ∧ pieces = post := by simpa using hpieces
      have hcur : cur'.bytes = wire (before ++ [i]) ++ b := by
        rw [hpiece, ← List.append_assoc, ← List.append_assoc] at hb
        simp only [List.flatten_nil, List.append_nil] at hwire
        rw [hwire, wire_append, List.append_assoc, List.append_assoc] at hb
        rw [← List.append_cancel_left hb]
        simp
      exact absurd hcur (Cursor.bytes_ne_wire_append (by simp) b)
    | cons d' pre =>
      obtain ⟨rfl, hrest⟩ : d = d' ∧ pieces = pre ++ piece :: post := by simpa using hpieces
      refine ⟨pre, piece, post, a, b, hrest, hpiece, ?_⟩
      rw [List.flatten_cons, ← List.append_assoc, hb, wire_append, List.append_assoc,
        List.append_assoc] at hwire
      rw [List.append_assoc]
      exact List.append_cancel_left hwire
  · rintro ⟨pre, piece, post, a, b, hpieces, hpiece, hwire⟩
    refine ⟨d :: pre, piece, post, a, b, by simp [hpieces], hpiece, ?_⟩
    rw [List.flatten_cons, ← List.append_assoc, hb, wire_append, ← hwire]
    simp

end Wire
