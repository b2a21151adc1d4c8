import Mathlib.Data.List.Basic
import Mathlib.Order.Nat
import Mathlib.Tactic.Common

/-!
# Cutting index ranges out of a list

Ranges are pairs of a start index and a length. `remove` drops the entries whose
index lies in one of the ranges and keeps the others in order; `Ascending` says
that the ranges are nonempty, disjoint, in order and inside an interval;
`memmove` is the overlapping block copy that an in-place compaction uses.
-/

namespace Ranges

variable {α : Type*}

/-- The index `n` lies in none of the ranges. -/
def outside (rs : List (ℕ × ℕ)) (n : ℕ) : Bool :=
  rs.all fun r => n < r.1 || r.1 + r.2 ≤ n

/-- The entries outside the ranges, in their original order. -/
def remove (rs : List (ℕ × ℕ)) (l : List α) : List α :=
  (l.zipIdx.filter fun x => outside rs x.2).map Prod.fst

/-- Nonempty ranges in ascending order, disjoint, inside `[lo, hi)`. -/
def Ascending : ℕ → List (ℕ × ℕ) → ℕ → Prop
  | lo, [], hi => lo ≤ hi
  | lo, r :: rs, hi => lo ≤ r.1 ∧ 0 < r.2 ∧ Ascending (r.1 + r.2) rs hi

theorem Ascending.le {lo hi : ℕ} {rs : List (ℕ × ℕ)} (h : Ascending lo rs hi) : lo ≤ hi := by
  induction rs generalizing lo with
  | nil => exact h
  | cons r rs ih =>
    have := ih h.2.2
    have := h.1
    omega

theorem Ascending.mono {lo hi hi' : ℕ} {rs : List (ℕ × ℕ)} (h : Ascending lo rs hi)
    (hle : hi ≤ hi') : Ascending lo rs hi' := by
  induction rs generalizing lo with
  | nil => exact h.trans hle
  | cons r rs ih => exact ⟨h.1, h.2.1, ih h.2.2⟩

/-- Ranges stay ascending when a range behind all of them is added. -/
theorem Ascending.append_singleton {lo hi : ℕ} {rs : List (ℕ × ℕ)} (h : Ascending lo rs hi)
    {n : ℕ} (hn : 0 < n) : Ascending lo (rs ++ [(hi, n)]) (hi + n) := by
  induction rs generalizing lo with
  | nil => exact ⟨h, hn, le_rfl⟩
  | cons r rs ih => exact ⟨h.1, h.2.1, ih h.2.2⟩

theorem Ascending.end_le {lo hi : ℕ} {rs : List (ℕ × ℕ)} (h : Ascending lo rs hi)
    {r : ℕ × ℕ} (hr : r ∈ rs) : r.1 + r.2 ≤ hi := by
  induction rs generalizing lo with
  | nil => cases hr
  | cons a rs ih =>
    rcases List.mem_cons.mp hr with rfl | hr
    · exact h.2.2.le
    · exact ih h.2.2 hr

theorem Ascending.le_start {lo hi : ℕ} {rs : List (ℕ × ℕ)} (h : Ascending lo rs hi)
    {r : ℕ × ℕ} (hr : r ∈ rs) : lo ≤ r.1 ∧ 0 < r.2 := by
  induction rs generalizing lo with
  | nil => cases hr
  | cons a rs ih =>
    rcases List.mem_cons.mp hr with rfl | hr
    · exact ⟨h.1, h.2.1⟩
    · have hlo := h.1
      have hrest := ih h.2.2 hr
      exact ⟨by omega, hrest.2⟩

/-- A range ends in front of every later one. -/
theorem Ascending.pairwise {lo hi : ℕ} {rs : List (ℕ × ℕ)} (h : Ascending lo rs hi) :
    rs.Pairwise fun a b => a.1 < b.1 ∧ a.1 + a.2 ≤ b.1 := by
  induction rs generalizing lo with
  | nil => exact List.Pairwise.nil
  | cons a rs ih =>
    refine List.Pairwise.cons (fun b hb => ?_) (ih h.2.2)
    have hpos := h.2.1
    have hend := (h.2.2.le_start hb).1
    exact ⟨by omega, hend⟩

/-- The sum of the lengths of the ranges. -/
def total : List (ℕ × ℕ) → ℕ
  | [] => 0
  | r :: rs => r.2 + total rs

theorem outside_of_end_le {rs : List (ℕ × ℕ)} {n : ℕ} (h : ∀ r ∈ rs, r.1 + r.2 ≤ n) :
    outside rs n = true := by
  simp only [outside, List.all_eq_true, Bool.or_eq_true, decide_eq_true_eq]
  exact fun r hr => Or.inr (h r hr)

@[simp] theorem remove_nil (l : List α) : remove [] l = l := by
  simp [remove, outside]

/-- Entries behind all ranges are kept. -/
theorem remove_append {rs : List (ℕ × ℕ)} {x : List α} (h : ∀ r ∈ rs, r.1 + r.2 ≤ x.length)
    (y : List α) : remove rs (x ++ y) = remove rs x ++ y := by
  have hy : (y.zipIdx x.length).filter (fun p => outside rs p.2) = y.zipIdx x.length := by
    rw [List.filter_eq_self]
    intro p hp
    have := List.le_snd_of_mem_zipIdx hp
    exact outside_of_end_le fun r hr => (h r hr).trans this
  simp [remove, List.zipIdx_append, hy]

/-- A range that covers everything behind the earlier ranges removes just that. -/
theorem remove_append_range (rs : List (ℕ × ℕ)) (x y : List α) :
    remove (rs ++ [(x.length, y.length)]) (x ++ y) = remove rs x := by
  have hx : x.zipIdx.filter (fun p => outside (rs ++ [(x.length, y.length)]) p.2) =
      x.zipIdx.filter fun p => outside rs p.2 := by
    apply List.filter_congr
    intro p hp
    have := List.snd_lt_of_mem_zipIdx hp
    simp only [outside, List.all_append, List.all_cons, List.all_nil, Bool.and_true]
    rw [show decide (p.2 < x.length) = true by simpa using this]
    simp
  have hy : (y.zipIdx x.length).filter
      (fun p => outside (rs ++ [(x.length, y.length)]) p.2) = [] := by
    rw [List.filter_eq_nil_iff]
    intro p hp
    have hle := List.le_snd_of_mem_zipIdx hp
    have hlt := List.snd_lt_add_of_mem_zipIdx hp
    simp only [outside, List.all_append, List.all_cons, List.all_nil, Bool.and_true,
      Bool.and_eq_true, Bool.or_eq_true, decide_eq_true_eq, not_and]
    omega
  simp [remove, List.zipIdx_append, hx, hy]

/-- Copy `n` entries from index `src` to index `dst`; the blocks may overlap. -/
def memmove (l : List α) (dst src n : ℕ) : List α :=
  l.take dst ++ (l.drop src).take n ++ l.drop (dst + n)

theorem length_memmove {l : List α} {dst src n : ℕ} (hd : dst + n ≤ l.length)
    (hs : src + n ≤ l.length) : (memmove l dst src n).length = l.length := by
  simp [memmove]
  omega

theorem take_memmove {l : List α} {dst src n : ℕ} (hd : dst + n ≤ l.length)
    (hs : src + n ≤ l.length) :
    (memmove l dst src n).take (dst + n) = l.take dst ++ (l.drop src).take n := by
  have hlen : (l.take dst ++ (l.drop src).take n).length = dst + n := by
    simp
    omega
  rw [memmove, List.take_append_of_le_length hlen.ge, List.take_of_length_le hlen.le]

theorem drop_memmove {l : List α} {dst src n m : ℕ} (hd : dst + n ≤ l.length)
    (hs : src + n ≤ l.length) (hm : dst + n ≤ m) :
    (memmove l dst src n).drop m = l.drop m := by
  have hlen : (l.take dst ++ (l.drop src).take n).length = dst + n := by
    simp
    omega
  rw [memmove, List.drop_append, List.drop_of_length_le (by omega), List.nil_append, hlen,
    List.drop_drop]
  congr 1
  omega

end Ranges
