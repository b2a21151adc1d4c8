import GuacamoleDiode.Lib.Wire
import Mathlib.Algebra.Ring.Nat
import Mathlib.Data.List.Induction

/-!
# Broken instruction streams

Bytes that need not be an instruction stream, as a reader takes them that starts over behind
every byte with which no instruction goes on. It cuts them into segments: whole instructions,
and beginnings of instructions up to the byte that breaks them. Lengths count bytes, and only
the first `cap` bytes of a value have to be ASCII.

## Main definitions

- `CountedElement`: an element as long as its length says
- `Segment`: the bytes from one boundary of the reader to the next
- `Segmented`: bytes that end where a segment does
- `LengthsWithin`: every length that the reader comes to is in a bound
-/

namespace Wire

/-- Nothing but digits. -/
def Digits (ds : Bytes) : Prop := ∀ d ∈ ds, isDigit d = true

/-- The bytes that have to be ASCII are. -/
def Readable (cap : ℕ) (v : Bytes) : Prop := ∀ b ∈ v.take cap, b ≤ 127

/-- A length, a dot and a value of that many bytes. -/
inductive CountedElement (cap : ℕ) : Bytes → Prop where
  | mk {ds v : Bytes} (ne_nil : ds ≠ []) (digits : Digits ds) (length : v.length = declared ds)
      (readable : Readable cap v) : CountedElement cap (ds ++ dot :: v)

/-- Elements with a comma behind each of them. -/
inductive Head (cap : ℕ) : Bytes → Prop where
  | nil : Head cap []
  | snoc {head e : Bytes} (init : Head cap head) (element : CountedElement cap e) :
      Head cap (head ++ e ++ [comma])

/-- An instruction, or the beginning of one and the byte that breaks it. -/
inductive Segment (cap : ℕ) : Bytes → Prop where
  | instruction {head e : Bytes} (init : Head cap head) (element : CountedElement cap e) :
      Segment cap (head ++ e ++ [semicolon])
  /-- no delimiter behind an element -/
  | stray {head e : Bytes} {c : UInt8} (init : Head cap head) (element : CountedElement cap e)
      (ne_comma : c ≠ comma) (ne_semicolon : c ≠ semicolon) : Segment cap (head ++ e ++ [c])
  /-- a length that is no number -/
  | noLength {head ds : Bytes} {c : UInt8} (init : Head cap head) (digits : Digits ds)
      (not_digit : isDigit c = false) (dot : c = dot → ds = []) : Segment cap (head ++ ds ++ [c])
  /-- a value that is not ASCII -/
  | notAscii {head ds v : Bytes} {c : UInt8} (init : Head cap head) (ne_nil : ds ≠ [])
      (digits : Digits ds) (missing : v.length < declared ds) (readable : Readable cap v)
      (checked : v.length < cap) (not_ascii : 127 < c) : Segment cap (head ++ (ds ++ dot :: v) ++ [c])

/-- The bytes are segments. -/
def Segmented (cap : ℕ) (w : Bytes) : Prop :=
  ∃ segments : List Bytes, w = segments.flatten ∧ ∀ s ∈ segments, Segment cap s

/-- What the digits behind a segment, or behind some elements, denote is in the bound. -/
def LengthsWithin (cap bound : ℕ) (w : Bytes) : Prop :=
  ∀ front head ds rest, w = front ++ head ++ ds ++ rest → Segmented cap front → Head cap head →
    Digits ds → declared ds ≤ bound

section

variable {cap bound : ℕ} {v w u head : Bytes} {c : UInt8}

theorem readable_nil : Readable cap [] := by simp [Readable]

theorem Readable.snoc (h : Readable cap v) (hc : v.length < cap → c ≤ 127) :
    Readable cap (v ++ [c]) := by
  intro b hb
  rw [List.take_append] at hb
  rcases List.mem_append.mp hb with hb | hb
  · exact h b hb
  · obtain rfl : b = c := List.mem_singleton.mp (List.mem_of_mem_take hb)
    refine hc (Nat.lt_of_not_le fun hle => ?_)
    rw [Nat.sub_eq_zero_of_le hle, List.take_zero] at hb
    cases hb

theorem Readable.init (h : Readable cap (v ++ [c])) :
    Readable cap v ∧ (v.length < cap → c ≤ 127) := by
  refine ⟨fun b hb => h b ?_, fun hlt => h c ?_⟩
  · rw [List.take_append]
    exact List.mem_append_left _ hb
  · rw [List.take_append]
    refine List.mem_append_right _ ?_
    obtain ⟨n, hn⟩ := Nat.exists_eq_add_of_lt hlt
    have hroom : cap - v.length = n + 1 := by omega
    simp [hroom]

theorem Digits.snoc (h : Digits v) (hc : isDigit c = true) : Digits (v ++ [c]) := by
  intro d hd
  rcases List.mem_append.mp hd with hd | hd
  · exact h d hd
  · rwa [List.mem_singleton.mp hd]

theorem Segmented.snoc (hw : Segmented cap w) (hu : Segment cap u) : Segmented cap (w ++ u) := by
  obtain ⟨segments, rfl, hsegments⟩ := hw
  refine ⟨segments ++ [u], by simp, fun s hs => ?_⟩
  rcases List.mem_append.mp hs with hs | hs
  · exact hsegments s hs
  · rwa [List.mem_singleton.mp hs]

theorem digitValue_lt {d : UInt8} (h : isDigit d = true) : digitValue d < 10 := by
  simp only [isDigit, Bool.and_eq_true, decide_eq_true_eq, UInt8.le_iff_toNat_le] at h
  have hd : d.toNat ≤ 57 := h.2
  rw [digitValue]
  omega

theorem Digits.declared_lt {ds : Bytes} (h : Digits ds) : declared ds < 10 ^ List.length ds := by
  induction ds using List.reverseRecOn with
  | nil => simp
  | append_singleton ds d ih =>
    have hinit := ih fun e he => h e (List.mem_append_left _ he)
    have hlast := digitValue_lt (h d (by simp))
    rw [declared_append_singleton, List.length_append, List.length_singleton, Nat.pow_succ]
    omega

/-- Behind a byte that is no digit, short lengths are in the bound. -/
theorem LengthsWithin.append (h : LengthsWithin cap bound (w ++ [c])) (hc : isDigit c = false)
    (hu : 10 ^ u.length ≤ bound + 1) : LengthsWithin cap bound (w ++ [c] ++ u) := by
  intro front head ds rest heq hfront hhead hds
  rcases List.append_eq_append_iff.mp heq with ⟨more, hmore, hrest⟩ | ⟨more, hmore, hrest⟩
  · -- the digits end behind the byte, and therefore begin behind it
    have hshort : ds.length ≤ u.length := by
      rcases List.append_eq_append_iff.mp hmore with ⟨a, ha, hds'⟩ | ⟨a, ha, hds'⟩
      · rcases List.eq_nil_or_concat a with rfl | ⟨a, b, rfl⟩
        · rw [hds', List.nil_append, hrest, List.length_append]
          omega
        · rw [List.concat_eq_append, ← List.append_assoc] at ha
          obtain ⟨-, hb⟩ := List.append_inj' ha rfl
          cases hb
          have hdigit := hds c (by simp [hds'])
          rw [hc] at hdigit
          cases hdigit
      · rw [hrest, hds', List.length_append, List.length_append]
        omega
    have hlt := hds.declared_lt
    have hpow := Nat.pow_le_pow_right (by decide : 0 < 10) hshort
    omega
  · exact h front head ds more hmore hfront hhead hds

end

end Wire
