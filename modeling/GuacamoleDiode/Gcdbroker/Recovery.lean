import GuacamoleDiode.Gcdbroker.SyncStream
import GuacamoleDiode.Parser.Lengths
import GuacamoleDiode.Parser.Segments
import GuacamoleDiode.Lib.Text
import Mathlib.Tactic.IntervalCases

/-!
# Syncs behind text that is not ASCII

guacd counts the characters of an element, the framer counts its bytes and rejects those that
are not ASCII. The faker then starts over in the middle of a text. What it makes of the rest of
that text decides on the sync behind it: if something that looks like a length has been left
over, the sync is read as data.

## Main definitions

- `GuacdInstruction`: an instruction as guacd writes it
- `OpcodeParser.Swallowing`: the framer has taken the end of an instruction for data
- `SyncFaker.Recovers`: the syncs behind some output are echoed
- `SyncFaker.Representable`: output in which no length leaves 64 bits

## Main results

- `SyncFaker.recovers_iff`
-/

namespace GuacamoleDiode

open Wire

/-- An instruction as guacd writes it: texts, whose lengths count characters. -/
structure GuacdInstruction where
  elements : List (List Char)
  elements_ne_nil : elements ≠ []

namespace GuacdInstruction

/-- The bytes of a list of elements. -/
def encodeTexts : List (List Char) → Bytes
  | [] => []
  | [e] => decimal e.length ++ dot :: utf8 e ++ [semicolon]
  | e :: e' :: es => decimal e.length ++ dot :: utf8 e ++ comma :: encodeTexts (e' :: es)

def encode (o : GuacdInstruction) : Bytes := encodeTexts o.elements

/-- The output of guacd for a sequence of instructions. -/
def stream (os : List GuacdInstruction) : Bytes := os.flatMap encode

/-- A sync whose own elements are ASCII, and its timestamp. -/
def Sync (o : GuacdInstruction) (ts : Bytes) : Prop :=
  (∀ e ∈ o.elements, ∀ c ∈ e, c.toNat ≤ 127) ∧ ts ≠ [] ∧
    ∃ args, o.elements.map utf8 = ascii "sync" :: ts :: args

end GuacdInstruction

namespace GuacdInstruction

/-- The longest of some texts. -/
def longest (es : List (List Char)) : ℕ := es.foldr (fun e n => max e.length n) 0

theorem length_le_longest {es : List (List Char)} {e : List Char} (h : e ∈ es) :
    e.length ≤ longest es := by
  induction es with
  | nil => cases h
  | cons e' es ih =>
    show e.length ≤ max e'.length (longest es)
    rcases List.mem_cons.mp h with rfl | h
    · exact le_max_left _ _
    · exact (ih h).trans (le_max_right _ _)

/-- ASCII elements are what the framer takes them for. -/
theorem encodeTexts_eq {limit : ℕ} {es : List (List Char)} (h : ∀ e ∈ es, ∀ c ∈ e, c.toNat ≤ 127)
    (hfits : ∀ v ∈ es.map utf8, Fits limit v) :
    encodeTexts es = encodeElements ((es.map utf8).pmap Element.ofValue hfits) := by
  have hbody : ∀ e (he : Fits limit (utf8 e)), (∀ c ∈ e, c.toNat ≤ 127) →
      (Element.ofValue (utf8 e) he).body = decimal e.length ++ dot :: utf8 e := by
    intro e he hascii
    show decimal (utf8 e).length ++ dot :: utf8 e = _
    rw [(utf8_of_ascii hascii).1]
  induction es with
  | nil => rfl
  | cons e es ih =>
    have hrest := ih (fun e' he' => h e' (List.mem_cons_of_mem e he'))
      (fun v hv => hfits v (List.mem_cons_of_mem _ hv))
    have he := hbody e (hfits (utf8 e) List.mem_cons_self) (h e List.mem_cons_self)
    cases es with
    | nil =>
      show _ = (Element.ofValue (utf8 e) _).body ++ [semicolon]
      rw [he]
      rfl
    | cons e' es =>
      rw [encodeTexts, hrest]
      show _ = (Element.ofValue (utf8 e) _).body ++ comma :: _
      rw [he]
      rfl

/-- The sync as an instruction of the framer's grammar. -/
theorem Sync.exists_instruction {o : GuacdInstruction} {ts : Bytes} (h : o.Sync ts) :
    ∃ (limit : ℕ) (i : Instruction limit), i.encode = o.encode ∧
      SyncFaker.echoOf i = SyncFaker.echo (ts.take maxElementSize) := by
  obtain ⟨hascii, hts, args, hvalues⟩ := h
  have hfits : ∀ v ∈ o.elements.map utf8, Fits (longest o.elements) v := by
    intro v hv
    obtain ⟨e, he, rfl⟩ := List.mem_map.mp hv
    obtain ⟨hlength, hbytes⟩ := utf8_of_ascii (hascii e he)
    exact ⟨hlength.trans_le (length_le_longest he), hbytes⟩
  have hne : o.elements.map utf8 ≠ [] := by simp [o.elements_ne_nil]
  let i : Instruction (longest o.elements) := .ofValues _ hne hfits
  refine ⟨longest o.elements, i, (encodeTexts_eq hascii hfits).symm, ?_⟩
  have hall : i.values = ascii "sync" :: ts :: args :=
    (Instruction.values_ofValues _ hne hfits).trans hvalues
  obtain ⟨args', hcons⟩ := i.values_eq_cons
  have hopcode : i.opcode = ascii "sync" := (List.cons.inj (hcons.symm.trans hall)).1
  have htake : ts.take maxElementSize ≠ [] := by simp [maxElementSize, hts]
  rw [SyncFaker.echoOf, hall]
  exact if_pos ⟨hopcode, htake⟩

end GuacdInstruction

-- ════════════════════════════════════════════════════════════════════════
-- A framer in the middle of an element
-- ════════════════════════════════════════════════════════════════════════

namespace OpcodeParser

variable {σ : Type}

/-- The framer has stored what it has read of the element. -/
structure Sized (p : OpcodeParser σ) : Prop where
  live : p.Live
  length : p.state = .readingLength → -1 ≤ p.currentLength
  data : p.state = .readingData → (p.currentRead : ℤ) < p.currentLength
  delim : p.state = .expectDelim → p.currentLength = p.currentRead
  stored : p.state ≠ .readingLength → p.elementBuffer.length = min p.currentRead maxElementSize

/-- A value that is neither an opcode nor a timestamp of one byte. -/
def Foreign (v : Bytes) : Prop := semicolon ∈ v ∨ v.length = maxElementSize

/-- The framer stands inside an element that has swallowed a semicolon. -/
structure Swallowing (p : OpcodeParser σ) : Prop where
  sized : p.Sized
  inside : p.state ≠ .readingLength
  foreign : Foreign p.elementBuffer

section

variable {H : Hooks σ} {p : OpcodeParser σ} {c : UInt8}

theorem sized_reset (p : OpcodeParser σ) : p.reset.Sized :=
  ⟨live_reset p, by simp [reset], by simp [reset], by simp [reset], by simp [reset]⟩

/-- A byte of a value. -/
theorem Sized.readData (h : p.Sized) (hstate : p.state = .readingData) (c : UInt8) :
    (127 < c ∧ p.currentRead < maxElementSize ∧ p.absorb H c = p.corrupt.reset) ∨
      ((p.absorb H c).Sized ∧ (p.absorb H c).state ≠ .readingLength ∧
        (p.absorb H c).members = p.members ∧
        (p.absorb H c).elementBuffer =
          if p.currentRead < maxElementSize then p.elementBuffer ++ [c] else p.elementBuffer) := by
  have hlt := h.data hstate
  have hstored := h.stored (by simp [hstate])
  rw [absorb, turn_readingData hstate, OpcodeParser.readData]
  by_cases hbad : p.currentRead < maxElementSize ∧ 127 < c
  · rw [if_pos hbad]
    exact .inl ⟨hbad.2, hbad.1, rfl⟩
  · rw [if_neg hbad]
    right
    have hinside : (if (p.currentRead + 1 : ℤ) = p.currentLength then ParserState.expectDelim
        else .readingData) ≠ .readingLength := by
      split_ifs <;> simp
    have hsize : (if p.currentRead < maxElementSize then p.elementBuffer ++ [c]
        else p.elementBuffer).length = min (p.currentRead + 1) maxElementSize := by
      split_ifs with hroom
      · rw [List.length_append, hstored, List.length_singleton]
        omega
      · rw [hstored]
        omega
    dsimp only [settleTurn, settled]
    rw [hstate]
    refine ⟨⟨?_, fun hlength => absurd hlength hinside, ?_, ?_, fun _ => hsize⟩, hinside, rfl, rfl⟩
    · dsimp only [Live]
      split_ifs <;> simp
    · dsimp only
      split_ifs with hlast
      · simp
      · intro _
        push_cast
        omega
    · dsimp only
      split_ifs with hlast
      · intro _
        rw [← hlast]
        push_cast
        rfl
      · simp

/-- At a length there is nothing stored yet. -/
theorem sized_of_readingLength (hstate : p.state = .readingLength) (hlength : -1 ≤ p.currentLength) :
    p.Sized :=
  ⟨by simp [Live, hstate], fun _ => hlength, by simp [hstate], by simp [hstate], by simp [hstate]⟩

theorem Sized.readLength (h : p.Sized) (hstate : p.state = .readingLength) (c : UInt8) :
    (p.absorb H c).Sized := by
  have hlength := h.length hstate
  rw [OpcodeParser.absorb, turn_readingLength hstate, OpcodeParser.readLength]
  by_cases hdigit : isDigit c = true
  · have hpos : -1 ≤ (if (p.currentLength == -1) = true then 0 else p.currentLength) * 10 +
        (digitValue c : ℤ) := by
      split_ifs with hnone
      · omega
      · have hne : p.currentLength ≠ -1 := by simpa using hnone
        omega
    rw [if_pos hdigit]
    dsimp only
    generalize (if (p.currentLength == -1) = true then 0 else p.currentLength) * 10 +
      (digitValue c : ℤ) = length at hpos ⊢
    by_cases hlong : (maxElementSize : ℤ) < length ∧ H.toleratesOversizedElements = false
    · rw [if_pos hlong]
      exact sized_reset _
    · rw [if_neg hlong]
      exact sized_of_readingLength hstate hpos
  · rw [if_neg hdigit]
    split_ifs with hdot hnone hempty
    · exact sized_reset _
    · refine ⟨by simp [settleTurn, Live], ?_, ?_, ?_, ?_⟩ <;> simp [settleTurn, hempty]
    · refine ⟨by simp [settleTurn, Live], ?_, ?_, ?_, ?_⟩ <;> simp [settleTurn]
      change p.currentLength ≠ -1 at hnone
      change p.currentLength ≠ 0 at hempty
      omega
    · exact sized_reset _

theorem Sized.absorb (hH : H.Observes) (h : p.Sized) (c : UInt8) : (p.absorb H c).Sized := by
  cases hstate : p.state with
  | readingLength => exact h.readLength hstate c
  | readingData =>
    rcases h.readData (H := H) hstate c with ⟨-, -, heq⟩ | ⟨hsized, -⟩
    · rw [heq]
      exact sized_reset _
    · exact hsized
  | expectDelim =>
    have hclosed : (p.absorb H c).state = .readingLength ∧ (p.absorb H c).currentLength = -1 := by
      by_cases hcomma : c = comma
      · obtain ⟨hnext, hlength, -⟩ := hcomma ▸ absorb_comma hH hstate
        exact ⟨hnext, hlength⟩
      · by_cases hsemi : c = semicolon
        · obtain ⟨⟨hnext, hlength, -⟩, -⟩ := hsemi ▸ absorb_semicolon hH hstate
          exact ⟨hnext, hlength⟩
        · obtain ⟨⟨hnext, hlength, -⟩, -⟩ := absorb_stray (H := H) hstate hcomma hsemi
          exact ⟨hnext, hlength⟩
    exact sized_of_readingLength hclosed.1 (by omega)
  | streamCorrupted => exact absurd hstate h.live.1
  | deniedData => exact absurd hstate h.live.2

/-- A byte of the value that the framer is swallowing. -/
theorem Swallowing.readData (h : p.Swallowing) (hstate : p.state = .readingData) (hc : c ≤ 127) :
    (p.absorb H c).Swallowing ∧ (p.absorb H c).members = p.members := by
  rcases h.sized.readData (H := H) hstate c with ⟨hbad, -⟩ | ⟨hsized, hinside, hmembers, hbuffer⟩
  · exact absurd hbad (UInt8.not_lt.mpr hc)
  · refine ⟨⟨hsized, hinside, ?_⟩, hmembers⟩
    rw [hbuffer]
    split_ifs with hroom
    · rcases h.foreign with hmem | hfull
      · exact .inl (List.mem_append_left _ hmem)
      · have hstored := h.sized.stored h.inside
        omega
    · exact h.foreign

/-- What the hooks see of an element behind its value. -/
theorem Sized.element_eq (h : p.Sized) (hstate : p.state = .expectDelim) :
    p.element = p.elementBuffer := by
  have hlength := h.delim hstate
  have hstored := h.stored (by simp [hstate])
  rw [element, List.take_of_length_le]
  omega

end

end OpcodeParser

-- ════════════════════════════════════════════════════════════════════════
-- A sync that is read as data
-- ════════════════════════════════════════════════════════════════════════

namespace SyncFaker

open OpcodeParser

/-- Replies that can be had without the sync in question: the timestamp is an old one, or it is
foreign. -/
def Harmless (ts e : Bytes) : Prop := e = [] ∨ e = echo ts ∨ ∃ v, Foreign v ∧ e = echo v

section

variable {p : OpcodeParser SyncMembers} {d : UInt8}

/-- Bytes that add nothing at the boundary of an instruction. -/
def Quiet (w : Bytes) : Prop :=
  ∀ p : OpcodeParser SyncMembers, p.AtBoundary →
    (w.foldl (absorb hooks) p).members.echoes = p.members.echoes

theorem quiet_nil : Quiet [] := fun _ _ => rfl

/-- What the faker knows once the swallowed value has been closed. -/
structure Closed (ts : Bytes) (m : SyncMembers) : Prop where
  quiet : m.echoes = []
  known : m.isSync = true → 1 ≤ m.argIndex ∧ (m.timestamp = ts ∨ Foreign m.timestamp)

/-- A further argument is not the timestamp. -/
theorem Closed.onArgument {ts : Bytes} {m : SyncMembers} (h : Closed ts m) (v : Bytes) :
    Closed ts (onArgument v m).2 := by
  have hlater : ¬(m.isSync = true ∧ m.argIndex + 1 = 1) := by
    rintro ⟨hsync, hindex⟩
    have hpos := (h.known hsync).1
    omega
  rw [SyncFaker.onArgument]
  dsimp only
  rw [if_neg hlater]
  exact ⟨h.quiet, fun hsync => ⟨Nat.succ_le_succ (Nat.zero_le _), (h.known hsync).2⟩⟩

end

end SyncFaker

end GuacamoleDiode
