import GuacamoleDiode.Lib.Text

/-!
# The client of the network tests

The tests talk to gmlbroker through a parser of their own. It looks for the dot of a length from
its position on, cuts the element out of the buffer and goes on behind the delimiter. The lengths
count characters. Anything malformed raises an error, and a buffer that ends too early is returned
as it is.

## Main definitions

- `GuacClient.encode`, `GuacClient.parseInstruction`: the two directions, as the client has them
- `GuacClient.Reads`: the texts that begin with an instruction

## Main results

- `GuacClient.parseInstruction_iff`: the parser finds the instruction that a buffer begins with
- `GuacClient.exists_decode_encode`: what `encode` has written is such an instruction
-/

namespace GuacamoleDiode

open Wire

namespace GuacClient

/-- A Python `str`. -/
abbrev Text := List Char

/-- `MAX_ELEMENT`: anything bigger is not legitimate traffic. -/
def maxElement : ℕ := 8192

/-- `str(n)` -/
def str (n : ℕ) : Text := Nat.toDigits 10 n

/-- A `ProtocolError`, by the place that raises it. -/
inductive ProtocolError where
  | lengthPrefixTooLong (seen : Text)
  | badElementLength (lengthStr : Text)
  | elementExceedsCap (length : ℕ)
  | badDelimiter (delim : Char)
  deriving DecidableEq, Repr

/-- The text of an error; `repr` is Python's notation of a string. -/
def ProtocolError.message (repr : Text → Text) : ProtocolError → Text
  | .lengthPrefixTooLong seen => "length prefix too long: ".toList ++ repr seen
  | .badElementLength lengthStr => "bad element length ".toList ++ repr lengthStr
  | .elementExceedsCap length => "element of ".toList ++ str length ++ " chars exceeds cap".toList
  | .badDelimiter delim => "bad delimiter ".toList ++ repr [delim] ++ " after element".toList

/-- `buf.find(c, pos)`; `none` stands for `-1`. -/
def find (buf : Text) (c : Char) (pos : ℕ) : Option ℕ := ((buf.drop pos).idxOf? c).map (pos + ·)

/-- `buf[start:stop]` -/
def slice (buf : Text) (start stop : ℕ) : Text := (buf.drop start).take (stop - start)

/-- The characters that a length may consist of. -/
def digits : Text := ['0', '1', '2', '3', '4', '5', '6', '7', '8', '9']

/-- `int(s)` of a string of decimal digits. -/
def int (s : Text) : ℕ := s.foldl (fun n c => n * 10 + (c.toNat - 48)) 0

/-- What `parse_instruction` returns or raises. The elements are missing when more data is needed. -/
abbrev Outcome := Except ProtocolError (Option (List Text) × Text)

/-- The end of one turn of the loop: go on behind a comma, or return. -/
inductive Turn where
  | next (pos : ℕ) (elems : List Text)
  | ret (outcome : Outcome)

/-- The second half of a turn: the element at `start` and its delimiter. -/
def takeElement (buf : Text) (start length : ℕ) (elems : List Text) : Turn :=
  let stop := start + length
  if h : buf.length < stop + 1 then .ret (.ok (none, buf))
  else
    let elems := elems ++ [slice buf start stop]
    let delim := buf.get ⟨stop, Nat.le_of_not_lt h⟩
    if delim = ';' then .ret (.ok (some elems, buf.drop (stop + 1)))
    else if delim ≠ ',' then .ret (.error (.badDelimiter delim))
    else .next (stop + 1) elems

/-- One turn of the loop of `parse_instruction`. -/
def turn (buf : Text) (pos : ℕ) (elems : List Text) : Turn :=
  match find buf '.' pos with
  | none =>
    if (str maxElement).length < buf.length - pos then
      .ret (.error (.lengthPrefixTooLong (slice buf pos (pos + 16))))
    else .ret (.ok (none, buf))
  | some dot =>
    let lengthStr := slice buf pos dot
    if lengthStr = [] ∨ ¬lengthStr.all (digits.contains ·) then
      .ret (.error (.badElementLength lengthStr))
    else
      let length := int lengthStr
      if maxElement < length then .ret (.error (.elementExceedsCap length))
      else takeElement buf (dot + 1) length elems

/-- An element's text `v` behind its length `d`. -/
structure Declares (d v : Text) : Prop where
  ne_nil : d ≠ []
  mem_digits : ∀ c ∈ d, c ∈ digits
  int_eq : int d = v.length
  length_le : v.length ≤ maxElement

/-- The elements of the instruction that a text begins with, and the rest of the text. -/
inductive Reads : Text → List Text → Text → Prop where
  | last {d v rest : Text} (h : Declares d v) : Reads (d ++ '.' :: (v ++ ';' :: rest)) [v] rest
  | next {d v s rest : Text} {elems : List Text} (h : Declares d v) (hs : Reads s elems rest) :
    Reads (d ++ '.' :: (v ++ ',' :: s)) (v :: elems) rest

-- ════════════════════════════════════════════════════════════════════════
-- One turn
-- ════════════════════════════════════════════════════════════════════════

theorem idxOf?_eq_some_iff {s : Text} {c : Char} {k : ℕ} :
    s.idxOf? c = some k ↔ ∃ d t, s = d ++ c :: t ∧ c ∉ d ∧ d.length = k := by
  induction s generalizing k with
  | nil => simp
  | cons a s ih =>
    rw [List.idxOf?_cons]
    by_cases ha : a = c
    · subst ha
      rw [if_pos (beq_self_eq_true a)]
      constructor
      · intro h
        cases h
        exact ⟨[], s, rfl, List.not_mem_nil, rfl⟩
      · rintro ⟨d, t, hs, hd, rfl⟩
        cases d with
        | nil => rfl
        | cons b d =>
          obtain ⟨rfl, -⟩ := List.cons.inj hs
          exact absurd List.mem_cons_self hd
    · rw [if_neg (by simpa using ha), Option.map_eq_some_iff]
      constructor
      · rintro ⟨n, hn, rfl⟩
        obtain ⟨d, t, rfl, hd, rfl⟩ := ih.mp hn
        exact ⟨a :: d, t, rfl, List.not_mem_cons_of_ne_of_not_mem (Ne.symm ha) hd, rfl⟩
      · rintro ⟨d, t, hs, hd, rfl⟩
        cases d with
        | nil => exact absurd (List.cons.inj hs).1 ha
        | cons b d =>
          obtain ⟨-, htail⟩ := List.cons.inj hs
          exact ⟨d.length, ih.mpr ⟨d, t, htail, fun h => hd (List.mem_cons_of_mem b h), rfl⟩, rfl⟩

theorem find_eq_some_iff {buf : Text} {c : Char} {pos k : ℕ} : find buf c pos = some k ↔
    ∃ d t, buf.drop pos = d ++ c :: t ∧ c ∉ d ∧ k = pos + d.length := by
  rw [find, Option.map_eq_some_iff]
  constructor
  · rintro ⟨n, hn, rfl⟩
    obtain ⟨d, t, hs, hd, rfl⟩ := idxOf?_eq_some_iff.mp hn
    exact ⟨d, t, hs, hd, rfl⟩
  · rintro ⟨d, t, hs, hd, rfl⟩
    exact ⟨d.length, idxOf?_eq_some_iff.mpr ⟨d, t, hs, hd, rfl⟩, rfl⟩

theorem dot_not_mem {d : Text} (h : ∀ c ∈ d, c ∈ digits) : '.' ∉ d := by
  intro hdot
  have hno : '.' ∉ digits := by decide
  exact hno (h '.' hdot)

theorem all_digits_iff {d : Text} : d.all (digits.contains ·) = true ↔ ∀ c ∈ d, c ∈ digits := by
  simp only [List.all_eq_true, List.contains_iff_mem]

section

variable {buf : Text} {pos : ℕ}

/-- The part of a buffer behind a text that stands at a position. -/
theorem drop_of_drop {s t : Text} (h : buf.drop pos = s ++ t) : buf.drop (pos + s.length) = t := by
  rw [← List.drop_drop, h, List.drop_left]

theorem slice_of_drop {s t : Text} (h : buf.drop pos = s ++ t) :
    slice buf pos (pos + s.length) = s := by
  rw [slice, h, Nat.add_sub_cancel_left, List.take_left]

theorem get_of_drop {c : Char} {t : Text} (h : buf.drop pos = c :: t) (hlt : pos < buf.length) :
    buf.get ⟨pos, hlt⟩ = c := by
  rw [List.drop_eq_getElem_cons hlt] at h
  exact (List.cons.inj h).1

/-- A turn reads the element at its position, and its delimiter decides what comes next. -/
theorem turn_of_declares (elems : List Text) {d v r : Text} {c : Char} (hd : Declares d v)
    (hbuf : buf.drop pos = d ++ '.' :: (v ++ c :: r)) :
    turn buf pos elems =
      if c = ';' then .ret (.ok (some (elems ++ [v]), r))
      else if c ≠ ',' then .ret (.error (.badDelimiter c))
      else .next (pos + d.length + 1 + v.length + 1) (elems ++ [v]) := by
  have hfind : find buf '.' pos = some (pos + d.length) :=
    find_eq_some_iff.mpr ⟨d, v ++ c :: r, hbuf, dot_not_mem hd.mem_digits, rfl⟩
  have hdot : buf.drop (pos + d.length) = ['.'] ++ (v ++ c :: r) := drop_of_drop hbuf
  have hvalue : buf.drop (pos + d.length + 1) = v ++ c :: r := drop_of_drop hdot
  have hdelim : buf.drop (pos + d.length + 1 + v.length) = [c] ++ r := drop_of_drop hvalue
  have hrest : buf.drop (pos + d.length + 1 + v.length + 1) = r := drop_of_drop hdelim
  have hlt : pos + d.length + 1 + v.length < buf.length := by
    by_contra hge
    rw [List.drop_eq_nil_of_le (Nat.not_lt.mp hge)] at hdelim
    cases hdelim
  have hlengthStr : ¬(d = [] ∨ ¬d.all (digits.contains ·) = true) := by
    rw [not_or, not_not, all_digits_iff]
    exact ⟨hd.ne_nil, hd.mem_digits⟩
  have hcap : ¬maxElement < v.length := Nat.not_lt.mpr hd.length_le
  rw [turn, hfind]
  dsimp only
  rw [slice_of_drop hbuf, if_neg hlengthStr, hd.int_eq, if_neg hcap, takeElement]
  dsimp only
  rw [dif_neg (by omega), slice_of_drop hvalue, get_of_drop hdelim, hrest]

/-- A turn reads an element with its delimiter, or the loop ends without a result. -/
theorem turn_cases (buf : Text) (pos : ℕ) (elems : List Text) :
    (∃ d v c r, Declares d v ∧ buf.drop pos = d ++ '.' :: (v ++ c :: r)) ∨
      turn buf pos elems = .ret (.ok (none, buf)) ∨ ∃ e, turn buf pos elems = .ret (.error e) := by
  rw [turn]
  cases hfind : find buf '.' pos with
  | none =>
    dsimp only
    split_ifs
    · exact .inr (.inr ⟨_, rfl⟩)
    · exact .inr (.inl rfl)
  | some dot =>
    obtain ⟨d, t, hbuf, -, rfl⟩ := find_eq_some_iff.mp hfind
    have hdot : buf.drop (pos + d.length) = ['.'] ++ t := drop_of_drop hbuf
    have htext : buf.drop (pos + d.length + 1) = t := drop_of_drop hdot
    dsimp only
    rw [slice_of_drop hbuf]
    by_cases hlengthStr : d = [] ∨ ¬d.all (digits.contains ·) = true
    · rw [if_pos hlengthStr]
      exact .inr (.inr ⟨_, rfl⟩)
    · rw [if_neg hlengthStr]
      by_cases hcap : maxElement < int d
      · rw [if_pos hcap]
        exact .inr (.inr ⟨_, rfl⟩)
      · rw [if_neg hcap, takeElement]
        dsimp only
        by_cases hshort : buf.length < pos + d.length + 1 + int d + 1
        · rw [dif_pos hshort]
          exact .inr (.inl rfl)
        · have hlength : int d < t.length := by
            rw [← htext, List.length_drop]
            omega
          have hvalue : (t.take (int d)).length = int d := List.length_take_of_le hlength.le
          rw [not_or, not_not, all_digits_iff] at hlengthStr
          refine .inl ⟨d, t.take (int d), t[int d], t.drop (int d + 1), ?_, ?_⟩
          · exact ⟨hlengthStr.1, hlengthStr.2, hvalue.symm, by omega⟩
          · rw [hbuf, List.getElem_cons_drop, List.take_append_drop]

/-- A turn that goes on has moved forward, and stays inside the buffer. -/
theorem turn_next {pos' : ℕ} {elems elems' : List Text} (h : turn buf pos elems = .next pos' elems') :
    buf.length - pos' < buf.length - pos := by
  obtain ⟨d, v, c, r, hd, hbuf⟩ | hret | ⟨e, hret⟩ := turn_cases buf pos elems
  · have hlength := congrArg List.length hbuf
    rw [turn_of_declares elems hd hbuf] at h
    simp only [List.length_drop, List.length_append, List.length_cons] at hlength
    split_ifs at h
    obtain ⟨rfl, -⟩ := Turn.next.inj h
    omega
  · rw [hret] at h
    cases h
  · rw [hret] at h
    cases h

end

-- ════════════════════════════════════════════════════════════════════════
-- The whole loop
-- ════════════════════════════════════════════════════════════════════════

/-- The loop of `parse_instruction` from a position on. -/
def loop (buf : Text) (pos : ℕ) (elems : List Text) : Outcome :=
  match _h : turn buf pos elems with
  | .next pos elems => loop buf pos elems
  | .ret outcome => outcome
termination_by buf.length - pos
decreasing_by exact turn_next _h

/-- `parse_instruction` -/
def parseInstruction (buf : Text) : Outcome := loop buf 0 []

section

variable {buf : Text} {pos : ℕ} {elems : List Text}

theorem loop_next {pos' : ℕ} {elems' : List Text} (h : turn buf pos elems = .next pos' elems') :
    loop buf pos elems = loop buf pos' elems' := by
  rw [loop]
  split
  · rename_i p es heq
    obtain ⟨rfl, rfl⟩ := Turn.next.inj (heq.symm.trans h)
    rfl
  · rename_i outcome heq
    cases heq.symm.trans h

theorem loop_ret {outcome : Outcome} (h : turn buf pos elems = .ret outcome) :
    loop buf pos elems = outcome := by
  rw [loop]
  split
  · rename_i p es heq
    cases heq.symm.trans h
  · rename_i o heq
    exact Turn.ret.inj (heq.symm.trans h)

/-- A semicolon behind an element ends the loop with the elements. -/
theorem loop_semicolon {d v r : Text} (hd : Declares d v)
    (hbuf : buf.drop pos = d ++ '.' :: (v ++ ';' :: r)) :
    loop buf pos elems = .ok (some (elems ++ [v]), r) :=
  loop_ret (by rw [turn_of_declares elems hd hbuf, if_pos rfl])

/-- A comma behind an element makes the loop go on with the next one. -/
theorem loop_comma (elems : List Text) {d v r : Text} (hd : Declares d v)
    (hbuf : buf.drop pos = d ++ '.' :: (v ++ ',' :: r)) :
    ∃ pos', loop buf pos elems = loop buf pos' (elems ++ [v]) ∧ buf.drop pos' = r := by
  have hsemi : ',' ≠ ';' := by decide
  refine ⟨pos + d.length + 1 + v.length + 1, loop_next ?_, ?_⟩
  · rw [turn_of_declares elems hd hbuf, if_neg hsemi, if_neg (not_not.mpr rfl)]
  · have hdot : buf.drop (pos + d.length) = ['.'] ++ (v ++ ',' :: r) := drop_of_drop hbuf
    have hvalue : buf.drop (pos + d.length + 1) = v ++ ',' :: r := drop_of_drop hdot
    have hdelim : buf.drop (pos + d.length + 1 + v.length) = [','] ++ r := drop_of_drop hvalue
    exact drop_of_drop hdelim

/-- Every element that the text goes on with is taken. -/
theorem loop_of_reads {s rest : Text} {vs : List Text} (h : Reads s vs rest)
    (hbuf : buf.drop pos = s) : loop buf pos elems = .ok (some (elems ++ vs), rest) := by
  induction h generalizing pos elems with
  | last hd => exact loop_semicolon hd hbuf
  | @next d v s rest vs hd hs ih =>
    obtain ⟨pos', hloop, hbuf'⟩ := loop_comma elems hd hbuf
    rw [hloop, ih hbuf', List.append_assoc, List.singleton_append]

/-- The elements that the loop returns have been in the text. -/
theorem reads_of_loop {out : List Text} {rest : Text}
    (h : loop buf pos elems = .ok (some out, rest)) :
    ∃ vs, out = elems ++ vs ∧ Reads (buf.drop pos) vs rest := by
  induction hn : buf.length - pos using Nat.strong_induction_on generalizing pos elems with
  | _ n ih =>
    subst hn
    obtain ⟨d, v, c, r, hd, hbuf⟩ | hret | ⟨e, hret⟩ := turn_cases buf pos elems
    · have hturn := turn_of_declares elems hd hbuf
      by_cases hsemi : c = ';'
      · subst hsemi
        rw [loop_semicolon hd hbuf] at h
        cases h
        exact ⟨[v], rfl, hbuf ▸ .last hd⟩
      · rw [if_neg hsemi] at hturn
        by_cases hcomma : c = ','
        · subst hcomma
          rw [if_neg (not_not.mpr rfl)] at hturn
          obtain ⟨pos', hloop, hbuf'⟩ := loop_comma elems hd hbuf
          have hshorter : buf.length - pos' < buf.length - pos := by
            have hlength := congrArg List.length hbuf
            have hlength' := congrArg List.length hbuf'
            simp only [List.length_drop, List.length_append, List.length_cons] at hlength hlength'
            omega
          rw [hloop] at h
          obtain ⟨vs, rfl, hreads⟩ := ih _ hshorter h rfl
          rw [hbuf'] at hreads
          refine ⟨v :: vs, List.append_assoc .., ?_⟩
          rw [hbuf]
          exact .next hd hreads
        · rw [if_pos hcomma] at hturn
          cases (loop_ret hturn).symm.trans h
    · cases (loop_ret hret).symm.trans h
    · cases (loop_ret hret).symm.trans h

end

/-- The parser finds an instruction if and only if the buffer begins with one, and returns what is
behind it. -/
theorem parseInstruction_iff {buf rest : Text} {elems : List Text} :
    parseInstruction buf = .ok (some elems, rest) ↔ Reads buf elems rest := by
  constructor
  · intro h
    obtain ⟨vs, rfl, hreads⟩ := reads_of_loop h
    exact hreads
  · intro h
    exact loop_of_reads h rfl

-- ════════════════════════════════════════════════════════════════════════
-- What the client writes
-- ════════════════════════════════════════════════════════════════════════

/-- One element as `encode` formats it. -/
def field (e : Text) : Text := str e.length ++ '.' :: e

/-- `encode` -/
def encode (elems : List Text) : Bytes :=
  utf8 ([','].intercalate (elems.map field)) ++ [semicolon]

theorem digitChar_mem {n : ℕ} (h : n < 10) : n.digitChar ∈ digits ∧ n.digitChar.toNat - 48 = n := by
  have hall : ∀ k < 10, Nat.digitChar k ∈ digits ∧ (Nat.digitChar k).toNat - 48 = k := by decide
  exact hall n h

theorem int_append_singleton (d : Text) (c : Char) : int (d ++ [c]) = int d * 10 + (c.toNat - 48) := by
  rw [int, List.foldl_append]
  rfl

/-- `int` undoes `str`. -/
theorem int_str (n : ℕ) : int (str n) = n ∧ ∀ c ∈ str n, c ∈ digits := by
  induction n using Nat.strong_induction_on with
  | _ n ih =>
    rw [str, Nat.toDigits_eq_if (by decide)]
    split_ifs with hn
    · obtain ⟨hmem, hval⟩ := digitChar_mem hn
      refine ⟨?_, fun c hc => ?_⟩
      · show 0 * 10 + (n.digitChar.toNat - 48) = n
        omega
      · rw [List.mem_singleton.mp hc]
        exact hmem
    · obtain ⟨hint, hdigits⟩ := ih (n / 10) (by omega)
      obtain ⟨hmem, hval⟩ := digitChar_mem (Nat.mod_lt n (by decide))
      rw [str] at hint hdigits
      refine ⟨?_, fun c hc => ?_⟩
      · rw [int_append_singleton, hint, hval]
        omega
      · rcases List.mem_append.mp hc with hc | hc
        · exact hdigits c hc
        · rw [List.mem_singleton.mp hc]
          exact hmem

theorem declares_str {v : Text} (h : v.length ≤ maxElement) : Declares (str v.length) v where
  ne_nil := Nat.toDigits_ne_nil
  mem_digits := (int_str v.length).2
  int_eq := (int_str v.length).1
  length_le := h

theorem reads_fields {elems : List Text} (hne : elems ≠ [])
    (h : ∀ e ∈ elems, e.length ≤ maxElement) (rest : Text) :
    Reads ([','].intercalate (elems.map field) ++ ';' :: rest) elems rest := by
  induction elems with
  | nil => exact absurd rfl hne
  | cons e es ih =>
    have hd := declares_str (h e List.mem_cons_self)
    cases es with
    | nil =>
      have hlast : [','].intercalate ([e].map field) ++ ';' :: rest =
          str e.length ++ '.' :: (e ++ ';' :: rest) := by
        simp [field]
      rw [hlast]
      exact .last hd
    | cons e' es =>
      have hnext : [','].intercalate ((e :: e' :: es).map field) ++ ';' :: rest =
          str e.length ++ '.' :: (e ++ ',' :: ([','].intercalate ((e' :: es).map field) ++
            ';' :: rest)) := by
        simp [field, List.intercalate]
      rw [hnext]
      exact .next hd (ih (List.cons_ne_nil e' es) fun x hx => h x (List.mem_cons_of_mem e hx))

/-- `encode` writes a text that begins with the instruction, whatever is put behind it. -/
theorem exists_decode_encode {elems : List Text} (hne : elems ≠ [])
    (h : ∀ e ∈ elems, e.length ≤ maxElement) :
    ∃ text, decodeUtf8 (encode elems) = some text ∧
      ∀ rest, parseInstruction (text ++ rest) = .ok (some elems, rest) := by
  refine ⟨[','].intercalate (elems.map field) ++ [';'], ?_, fun rest => ?_⟩
  · have hsemi : [semicolon] = utf8 [';'] := rfl
    rw [encode, hsemi, ← utf8_append, decodeUtf8_utf8]
  · rw [List.append_assoc, List.singleton_append, parseInstruction_iff]
    exact reads_fields hne h rest

end GuacClient

end GuacamoleDiode
