import GuacamoleDiode.Parser.DeniedRanges

/-!
# Excision stays inside its buffer

`Excise` subtracts indices of type `size_t` and moves blocks that overlap. Here it runs with every
difference and every block checked. On the ranges that a call of `Parse` has recorded, whatever the
parser has been through and whatever its hooks deny, no check fails, and what is left of the buffer
are the bytes outside the ranges.

## Main definitions

- `OpcodeParser.exciseChecked`: `Excise`, stopped by a difference that wraps and by a block that
  leaves the buffer

## Main results

- `OpcodeParser.excision_exact`
-/

namespace GuacamoleDiode

open Wire Ranges

variable {σ : Type}

namespace OpcodeParser

/-- The difference of two `size_t`, unless it wraps. -/
def checkedSub (a b : ℕ) : Option ℕ := if b ≤ a then some (a - b) else none

/-- `memmove` between two blocks of a buffer, unless one of them leaves it. -/
def checkedMemmove (data : Bytes) (dst src n : ℕ) : Option Bytes :=
  if dst + n ≤ data.length ∧ src + n ≤ data.length then some (memmove data dst src n) else none

/-- The block of a turn of the compaction loop, moved down if the pointers differ. -/
def Compaction.moveChecked (st : Compaction) (keep : ℕ) : Option Bytes :=
  if st.write ≠ st.read then checkedMemmove st.data st.write st.read keep else some st.data

/-- One denied range of the compaction loop, checked. -/
def Compaction.skipChecked (st : Compaction) (range : ℕ × ℕ) : Option Compaction := do
  let keep ← checkedSub range.1 st.read
  let data ← st.moveChecked keep
  return { data := data, write := st.write + keep, read := range.1 + range.2 }

/-- `OpcodeParser::Excise`, checked. -/
def exciseChecked (p : OpcodeParser σ) (data : Bytes) (len : ℕ) :
    Option (Bytes × ℕ × OpcodeParser σ) :=
  if p.deniedRanges = [] then some (data, len, p)
  else do
    let st ← p.deniedRanges.foldlM Compaction.skipChecked { data := data }
    let keep ← checkedSub len st.read
    let data ← st.moveChecked keep
    return (data, st.write + keep, { p with deniedRanges := [] })

theorem checkedSub_eq {a b : ℕ} (h : b ≤ a) : checkedSub a b = some (a - b) := if_pos h

variable {data : Bytes} {done rs : List (ℕ × ℕ)} {st : Compaction}

/-- A block between the read pointer and the end of the buffer can be moved down. -/
theorem Compacted.move_checked (h : Compacted data done st) {keep : ℕ}
    (hkeep : st.read + keep ≤ data.length) :
    st.moveChecked keep =
      some (if st.write ≠ st.read then memmove st.data st.write st.read keep else st.data) := by
  have hlength := h.length_eq
  have hwrite := h.write_le
  rw [Compaction.moveChecked]
  by_cases hne : st.write ≠ st.read
  · have hblocks : st.write + keep ≤ st.data.length ∧ st.read + keep ≤ st.data.length := by omega
    rw [if_pos hne, if_pos hne, checkedMemmove, if_pos hblocks]
  · rw [if_neg hne, if_neg hne]

/-- No check fails at a range behind the read pointer. -/
theorem Compacted.skip_checked (h : Compacted data done st) {r : ℕ × ℕ} (hr : st.read ≤ r.1)
    (hend : r.1 + r.2 ≤ data.length) : st.skipChecked r = some (st.skip r) := by
  have hkeep : st.read + (r.1 - st.read) ≤ data.length := by omega
  rw [Compaction.skipChecked, checkedSub_eq hr, Option.bind_eq_bind, Option.bind_some,
    h.move_checked hkeep]
  rfl

/-- No check fails in the compaction loop. -/
theorem Compacted.foldlM_checked (h : Compacted data done st)
    (hrs : Ascending st.read rs data.length) :
    rs.foldlM Compaction.skipChecked st = some (rs.foldl Compaction.skip st) := by
  induction rs generalizing done st with
  | nil => rfl
  | cons r rs ih =>
    have hend : r.1 + r.2 ≤ data.length := hrs.2.2.le
    rw [List.foldlM_cons, h.skip_checked hrs.1 hend, Option.bind_eq_bind, Option.bind_some]
    exact ih (h.skip hrs.1 hend) hrs.2.2

/-- On ascending ranges inside the buffer, the checks change nothing. -/
theorem exciseChecked_eq (p : OpcodeParser σ) (data : Bytes)
    (h : Ascending 0 p.deniedRanges data.length) :
    p.exciseChecked data data.length = some (p.excise data data.length) := by
  rw [exciseChecked, excise]
  by_cases hnil : p.deniedRanges = []
  · rw [if_pos hnil, if_pos hnil]
  · have hc := (compacted_start data).foldl h
    rw [if_neg hnil, if_neg hnil, (compacted_start data).foldlM_checked h, Option.bind_eq_bind,
      Option.bind_some]
    generalize p.deniedRanges.foldl Compaction.skip { data := data } = st at hc ⊢
    have hkeep : st.read + (data.length - st.read) ≤ data.length := by
      have hread := hc.read_le
      omega
    rw [checkedSub_eq hc.read_le, Option.bind_eq_bind, Option.bind_some, hc.move_checked hkeep]
    rfl

/-- The write pointer lags behind the read pointer by the ranges that have been skipped. -/
theorem foldl_skip_write (st : Compaction) {hi : ℕ} (hrs : Ascending st.read rs hi) :
    (rs.foldl Compaction.skip st).write + total rs + st.read =
      (rs.foldl Compaction.skip st).read + st.write := by
  induction rs generalizing st with
  | nil =>
    rw [List.foldl_nil, total]
    omega
  | cons r rs ih =>
    have hstep := ih (st.skip r) hrs.2.2
    have hread : (st.skip r).read = r.1 + r.2 := rfl
    have hwrite : (st.skip r).write = st.write + (r.1 - st.read) := rfl
    have hle := hrs.1
    rw [List.foldl_cons, total]
    omega

/-- The new length is the old one without the ranges. -/
theorem excise_length (p : OpcodeParser σ) (data : Bytes)
    (h : Ascending 0 p.deniedRanges data.length) :
    (p.excise data data.length).2.1 + total p.deniedRanges = data.length := by
  rw [excise]
  by_cases hnil : p.deniedRanges = []
  · rw [if_pos hnil, hnil, total]
    rfl
  · have hc := (compacted_start data).foldl h
    have hlag := foldl_skip_write { data := data } h
    rw [if_neg hnil]
    generalize p.deniedRanges.foldl Compaction.skip { data := data } = st at hc hlag ⊢
    have hread := hc.read_le
    show st.write + (data.length - st.read) + total p.deniedRanges = data.length
    have hlag' : st.write + total p.deniedRanges + 0 = st.read + 0 := hlag
    omega

/-- Compaction moves bytes inside the buffer, which stays as long as it is. -/
theorem length_excise (p : OpcodeParser σ) (data : Bytes)
    (h : Ascending 0 p.deniedRanges data.length) :
    (p.excise data data.length).1.length = data.length := by
  rw [excise]
  by_cases hnil : p.deniedRanges = []
  · rw [if_pos hnil]
  · have hc := (compacted_start data).foldl h
    rw [if_neg hnil]
    generalize p.deniedRanges.foldl Compaction.skip { data := data } = st at hc ⊢
    have hkeep : st.read + (data.length - st.read) ≤ data.length := by
      have hread := hc.read_le
      omega
    exact (hc.block (data.length - st.read) hkeep).1

theorem excise_clears (p : OpcodeParser σ) (data : Bytes) (len : ℕ) :
    (p.excise data len).2.2 = { p with deniedRanges := [] } := by
  rw [excise]
  by_cases hnil : p.deniedRanges = []
  · rw [if_pos hnil, ← hnil]
  · rw [if_neg hnil]

/-- Behind a call of `Parse`, whatever state it has started from, whatever the hooks have denied
and whatever it returns, the recorded ranges are nonempty and lie inside the buffer, each of them in
front of the next. `Excise` on the same buffer then never takes a difference that wraps and never
moves a block that leaves the buffer. The new length is the old one less the lengths of the ranges,
the bytes in front of it are the bytes outside the ranges in their order, and the ranges are gone. -/
theorem excision_exact (H : Hooks σ) (p : OpcodeParser σ) (data : Bytes) :
    let q := (p.parse H data).2
    q.deniedRanges.Pairwise (fun a b => a.1 < b.1 ∧ a.1 + a.2 ≤ b.1) ∧
    (∀ r ∈ q.deniedRanges, 0 < r.2 ∧ r.1 + r.2 ≤ data.length) ∧
    ∃ (buffer : Bytes) (len : ℕ),
      q.exciseChecked data data.length = some (buffer, len, { q with deniedRanges := [] }) ∧
      q.excise data data.length = (buffer, len, { q with deniedRanges := [] }) ∧
      buffer.length = data.length ∧
      len = data.length - total q.deniedRanges ∧ total q.deniedRanges ≤ data.length ∧
      buffer.take len = remove q.deniedRanges data := by
  intro q
  have hranges : Ascending 0 q.deniedRanges data.length := ascending_parse H p data
  have hparser : q.excise data data.length = ((q.excise data data.length).1,
      (q.excise data data.length).2.1, { q with deniedRanges := [] }) := by
    rw [← excise_clears q data data.length]
  have hlen := excise_length q data hranges
  refine ⟨hranges.pairwise, fun r hr => ⟨(hranges.le_start hr).2, hranges.end_le hr⟩,
    (q.excise data data.length).1, (q.excise data data.length).2.1, ?_, hparser, ?_, ?_, ?_, ?_⟩
  · rw [exciseChecked_eq q data hranges, ← hparser]
  · exact length_excise q data hranges
  · omega
  · omega
  · exact excise_eq_remove q data hranges

/-- Two denied instructions next to each other, and a denied one at either end of the buffer. -/
example :
    let H : Hooks Unit := { onInstructionBegin := fun opcode s => (opcode != ascii "key", s) }
    let data := ascii "3.key;3.key,1.1;3.nop;3.key;"
    let r := ({ members := () } : OpcodeParser Unit).parse H data
    r.1 = .deniedData ∧ r.2.deniedRanges = [(0, 6), (6, 10), (22, 6)] ∧
      (r.2.excise data data.length).2.1 = 6 ∧
      (r.2.excise data data.length).1.take 6 = ascii "3.nop;" := by
  decide +kernel

end OpcodeParser

end GuacamoleDiode
