import Mathlib.Data.List.Basic
import Mathlib.Data.List.Infix
import Mathlib.Tactic.Common

/-!
# Length-prefixed instruction streams

The wire grammar of an instruction stream whose elements carry their length in
front of them: an element is a nonempty decimal number, a dot and that many
ASCII bytes; an instruction is a nonempty list of elements separated by commas
and closed by a semicolon.

## Main definitions

- `Element` — one element, together with the proof that its digits declare the
  length of its value, that the value is ASCII and at most `limit` bytes long
- `Instruction` — a nonempty list of elements
- `wire` — the bytes of a sequence of instructions
- `Partial` — the part of an element that has been received so far
- `Cursor` — the part of an instruction that has been received so far

## Design notes

Digits are kept next to the value because the grammar allows leading zeros: two
different byte strings may carry the same element value. Partial elements carry
the same invariants as elements, so a cursor is always the beginning of some
instruction.
-/

namespace Wire

/-- Raw bytes as they travel on a connection. -/
abbrev Bytes := List UInt8

/-- The bytes of an ASCII string. -/
def ascii (s : String) : Bytes := s.toList.map fun c => c.toNat.toUInt8

theorem ascii_ofList (cs : List Char) :
    ascii (String.ofList cs) = cs.map fun c => c.toNat.toUInt8 := by
  rw [ascii, String.toList_ofList]

/-- The byte that closes a length prefix. -/
abbrev dot : UInt8 := 46

/-- The byte that separates two elements of one instruction. -/
abbrev comma : UInt8 := 44

/-- The byte that closes an instruction. -/
abbrev semicolon : UInt8 := 59

/-- Decimal digits. -/
def isDigit (c : UInt8) : Bool := 48 ≤ c && c ≤ 57

/-- The number a decimal digit stands for. -/
def digitValue (c : UInt8) : ℕ := c.toNat - 48

/-- The number a string of decimal digits declares; `0` for the empty string. -/
def declared (digits : Bytes) : ℕ :=
  digits.foldl (fun n d => n * 10 + digitValue d) 0

@[simp] theorem declared_nil : declared [] = 0 := rfl

@[simp] theorem declared_append_singleton (digits : Bytes) (d : UInt8) :
    declared (digits ++ [d]) = declared digits * 10 + digitValue d := by
  simp [declared]

/-- A shorter digit string never declares more than its continuation. -/
theorem declared_le_declared_append_singleton (digits : Bytes) (d : UInt8) :
    declared digits ≤ declared (digits ++ [d]) := by
  rw [declared_append_singleton]
  omega

/-- One element: the digits of its length prefix and its value. -/
@[ext] structure Element (limit : ℕ) where
  digits : Bytes
  value : Bytes
  digits_ne_nil : digits ≠ []
  digits_isDigit : ∀ d ∈ digits, isDigit d = true
  declared_eq : declared digits = value.length
  length_le : value.length ≤ limit
  value_ascii : ∀ b ∈ value, b ≤ 127

variable {limit : ℕ}

namespace Element

/-- The bytes of an element without its closing delimiter. -/
def body (e : Element limit) : Bytes := e.digits ++ dot :: e.value

theorem body_ne_nil (e : Element limit) : e.body ≠ [] := by
  simp [body]

end Element

/-- Elements that have been closed by a comma. -/
def closedBytes (es : List (Element limit)) : Bytes :=
  es.flatMap fun e => e.body ++ [comma]

@[simp] theorem closedBytes_nil : closedBytes ([] : List (Element limit)) = [] := rfl

@[simp] theorem closedBytes_append_singleton (es : List (Element limit)) (e : Element limit) :
    closedBytes (es ++ [e]) = closedBytes es ++ (e.body ++ [comma]) := by
  simp [closedBytes]

/-- The bytes of a nonempty list of elements, closed by a semicolon. -/
def encodeElements : List (Element limit) → Bytes
  | [] => []
  | [e] => e.body ++ [semicolon]
  | e :: e' :: es => e.body ++ comma :: encodeElements (e' :: es)

theorem encodeElements_append_singleton (es : List (Element limit)) (e : Element limit) :
    encodeElements (es ++ [e]) = closedBytes es ++ (e.body ++ [semicolon]) := by
  induction es with
  | nil => simp [encodeElements]
  | cons a es ih =>
    cases es with
    | nil => simp [encodeElements, closedBytes]
    | cons b es =>
      simp only [List.cons_append, encodeElements] at ih ⊢
      rw [ih]
      simp [closedBytes]

/-- One instruction: its opcode element followed by its arguments. -/
@[ext] structure Instruction (limit : ℕ) where
  elements : List (Element limit)
  elements_ne_nil : elements ≠ []

namespace Instruction

/-- The values of the elements, opcode first. -/
def values (i : Instruction limit) : List Bytes := i.elements.map Element.value

/-- The value of the opcode element. -/
def opcode (i : Instruction limit) : Bytes := (i.elements.head i.elements_ne_nil).value

/-- The bytes of an instruction. -/
def encode (i : Instruction limit) : Bytes := encodeElements i.elements

theorem values_eq_cons (i : Instruction limit) : ∃ args, i.values = i.opcode :: args := by
  obtain ⟨elements, hne⟩ := i
  cases elements with
  | nil => exact absurd rfl hne
  | cons e es => exact ⟨es.map Element.value, rfl⟩

/-- Every instruction is some closed elements followed by a last one. -/
theorem exists_eq_append (i : Instruction limit) :
    ∃ es e, i = ⟨es ++ [e], by simp⟩ := by
  obtain ⟨elements, hne⟩ := i
  exact ⟨elements.dropLast, elements.getLast hne,
    Instruction.ext (List.dropLast_append_getLast hne).symm⟩

theorem encode_mk_append (es : List (Element limit)) (e : Element limit) (h) :
    (⟨es ++ [e], h⟩ : Instruction limit).encode = closedBytes es ++ (e.body ++ [semicolon]) :=
  encodeElements_append_singleton es e

theorem encode_ne_nil (i : Instruction limit) : i.encode ≠ [] := by
  obtain ⟨es, e, rfl⟩ := i.exists_eq_append
  rw [encode_mk_append]
  simp

end Instruction

/-- The bytes of a sequence of instructions. -/
def wire (is : List (Instruction limit)) : Bytes := is.flatMap Instruction.encode

@[simp] theorem wire_nil : wire ([] : List (Instruction limit)) = [] := rfl

@[simp] theorem wire_cons (i : Instruction limit) (is : List (Instruction limit)) :
    wire (i :: is) = i.encode ++ wire is := by
  simp [wire]

@[simp] theorem wire_append (is js : List (Instruction limit)) :
    wire (is ++ js) = wire is ++ wire js := by
  simp [wire]

/-- Leaving out instructions makes the bytes shorter. -/
theorem length_wire_le_of_sublist {is js : List (Instruction limit)} (h : is.Sublist js) :
    (wire is).length ≤ (wire js).length := by
  induction h with
  | slnil => exact le_rfl
  | cons i _ ih =>
    rw [wire_cons, List.length_append]
    exact ih.trans (Nat.le_add_left _ _)
  | cons_cons i _ ih =>
    rw [wire_cons, wire_cons, List.length_append, List.length_append]
    exact Nat.add_le_add_left ih _

/-- The part of an element that has been received so far. -/
inductive Partial (limit : ℕ) where
  /-- inside the length prefix, possibly before its first digit -/
  | length (digits : Bytes) (digits_isDigit : ∀ d ∈ digits, isDigit d = true)
      (declared_le : declared digits ≤ limit)
  /-- behind the dot, with value bytes still missing -/
  | data (digits value : Bytes) (digits_isDigit : ∀ d ∈ digits, isDigit d = true)
      (declared_le : declared digits ≤ limit) (missing : value.length < declared digits)
      (value_ascii : ∀ b ∈ value, b ≤ 127)
  /-- complete, with its delimiter still missing -/
  | delim (e : Element limit)

namespace Partial

/-- Nothing of the element has been received. -/
def start : Partial limit := .length [] (by simp) (by simp)

/-- The bytes received of the element. -/
def bytes : Partial limit → Bytes
  | .length digits _ _ => digits
  | .data digits value _ _ _ _ => digits ++ dot :: value
  | .delim e => e.body

@[simp] theorem bytes_start : (start : Partial limit).bytes = [] := rfl

@[simp] theorem bytes_delim (e : Element limit) : (delim e).bytes = e.body := rfl

theorem eq_start_of_bytes_eq_nil {q : Partial limit} (h : q.bytes = []) : q = start := by
  cases q with
  | length digits hd hle =>
    simp only [bytes] at h
    subst h
    rfl
  | data digits value hd hle hm ha => simp [bytes] at h
  | delim e => exact absurd h e.body_ne_nil

end Partial

/-- The part of an instruction that has been received so far: the elements that
have been closed by a comma and the element that is being received. -/
structure Cursor (limit : ℕ) where
  closed : List (Element limit) := []
  part : Partial limit := .start

namespace Cursor

/-- A clean instruction boundary. -/
def start : Cursor limit := {}

/-- The bytes received of the instruction. -/
def bytes (cur : Cursor limit) : Bytes := closedBytes cur.closed ++ cur.part.bytes

/-- The values of the closed elements. -/
def values (cur : Cursor limit) : List Bytes := cur.closed.map Element.value

@[simp] theorem bytes_start : (start : Cursor limit).bytes = [] := rfl

@[simp] theorem values_start : (start : Cursor limit).values = [] := rfl

theorem closedBytes_eq_nil {es : List (Element limit)} (h : closedBytes es = []) : es = [] := by
  cases es with
  | nil => rfl
  | cons e es => simp [closedBytes] at h

/-- Only the clean boundary has received nothing. -/
theorem eq_start_of_bytes_eq_nil {cur : Cursor limit} (h : cur.bytes = []) : cur = start := by
  obtain ⟨closed, part⟩ := cur
  simp only [bytes, List.append_eq_nil_iff] at h
  rw [closedBytes_eq_nil h.1, Partial.eq_start_of_bytes_eq_nil h.2]
  rfl

theorem bytes_eq_nil_iff {cur : Cursor limit} : cur.bytes = [] ↔ cur = start :=
  ⟨eq_start_of_bytes_eq_nil, fun h => h ▸ rfl⟩

end Cursor

end Wire
