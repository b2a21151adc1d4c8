import GuacamoleDiode.Parser.OpcodeParser

/-!
# Excision is exact

`excise` compacts the buffer in place. On ascending ranges inside the buffer the
result is the buffer without the bytes of the ranges, and the returned length is
the number of bytes that remain.
-/

namespace GuacamoleDiode

open Wire Ranges

variable {σ : Type}

namespace OpcodeParser

/-- The compaction of `data` after the ranges `done`: the bytes below `write` are
what is left of the bytes below `read`, and the bytes from `read` on are untouched. -/
structure Compacted (data : Bytes) (done : List (ℕ × ℕ)) (st : Compaction) : Prop where
  length_eq : st.data.length = data.length
  write_le : st.write ≤ st.read
  read_le : st.read ≤ data.length
  ends_le : ∀ r ∈ done, r.1 + r.2 ≤ st.read
  take_eq : st.data.take st.write = remove done (data.take st.read)
  drop_eq : st.data.drop st.read = data.drop st.read

theorem compacted_start (data : Bytes) : Compacted data [] { data := data } where
  length_eq := rfl
  write_le := le_rfl
  read_le := Nat.zero_le _
  ends_le := by simp
  take_eq := by simp
  drop_eq := rfl

/-- Moving a block down to the write pointer; nothing moves when the pointers agree. -/
theorem Compacted.block {data : Bytes} {done : List (ℕ × ℕ)} {st : Compaction}
    (h : Compacted data done st) (keep : ℕ) (hk : st.read + keep ≤ data.length) :
    let moved := if st.write ≠ st.read then memmove st.data st.write st.read keep else st.data
    moved.length = data.length ∧
      moved.take (st.write + keep) =
        remove done (data.take st.read) ++ (data.drop st.read).take keep ∧
      ∀ m, st.read + keep ≤ m → moved.drop m = data.drop m := by
  have hw := h.write_le
  have hlen := h.length_eq
  have hdrop : ∀ m, st.read ≤ m → st.data.drop m = data.drop m := by
    intro m hm
    obtain ⟨n, rfl⟩ := Nat.exists_eq_add_of_le hm
    rw [← List.drop_drop, h.drop_eq, List.drop_drop]
  intro moved
  by_cases hne : st.write ≠ st.read
  · have hmoved : moved = memmove st.data st.write st.read keep := if_pos hne
    rw [hmoved]
    refine ⟨?_, ?_, ?_⟩
    · rw [length_memmove (by omega) (by omega), hlen]
    · rw [take_memmove (by omega) (by omega), h.take_eq, h.drop_eq]
    · intro m hm
      rw [drop_memmove (by omega) (by omega) (by omega), hdrop m (by omega)]
  · have hmoved : moved = st.data := if_neg hne
    have heq : st.write = st.read := not_not.mp hne
    rw [hmoved]
    refine ⟨hlen, ?_, fun m hm => hdrop m (by omega)⟩
    rw [List.take_add, h.take_eq, heq, h.drop_eq]

theorem Compacted.skip {data : Bytes} {done : List (ℕ × ℕ)} {st : Compaction}
    (h : Compacted data done st) {r : ℕ × ℕ} (hr : st.read ≤ r.1)
    (hend : r.1 + r.2 ≤ data.length) : Compacted data (done ++ [r]) (st.skip r) := by
  have hw := h.write_le
  have hkeep : st.read + (r.1 - st.read) = r.1 := by omega
  obtain ⟨hlen, htake, hdrop⟩ := h.block (r.1 - st.read) (by omega)
  have hlenr : (data.take r.1).length = r.1 := by simp; omega
  refine ⟨hlen, ?_, hend, ?_, ?_, hdrop (r.1 + r.2) (by omega)⟩
  · simp only [Compaction.skip]
    omega
  · intro x hx
    simp only [Compaction.skip]
    rcases List.mem_append.mp hx with hx | hx
    · have := h.ends_le x hx
      omega
    · rw [List.mem_singleton.mp hx]
  · have hsplit : data.take (r.1 + r.2) = data.take r.1 ++ (data.drop r.1).take r.2 :=
      List.take_add
    have hlen2 : ((data.drop r.1).take r.2).length = r.2 := by simp; omega
    have hcut := remove_append_range done (data.take r.1) ((data.drop r.1).take r.2)
    rw [hlenr, hlen2] at hcut
    have hkept : data.take r.1 = data.take st.read ++ (data.drop st.read).take (r.1 - st.read) := by
      conv_lhs => rw [← hkeep, List.take_add]
    have hbound : ∀ x ∈ done, x.1 + x.2 ≤ (data.take st.read).length := by
      intro x hx
      have := h.ends_le x hx
      have := h.read_le
      simp
      omega
    calc (st.skip r).data.take (st.skip r).write
        = remove done (data.take st.read) ++ (data.drop st.read).take (r.1 - st.read) := htake
      _ = remove done (data.take r.1) := by rw [hkept, remove_append hbound]
      _ = remove (done ++ [r]) (data.take (r.1 + r.2)) := by rw [hsplit, ← hcut]

theorem Compacted.foldl {data : Bytes} {done rs : List (ℕ × ℕ)} {st : Compaction}
    (h : Compacted data done st) (hrs : Ascending st.read rs data.length) :
    Compacted data (done ++ rs) (rs.foldl Compaction.skip st) := by
  induction rs generalizing done st with
  | nil => simpa using h
  | cons r rs ih =>
    have hstep := h.skip hrs.1 hrs.2.2.le
    simpa using ih hstep hrs.2.2

/-- **Excision is exact**: on ascending ranges inside the buffer, the bytes that
remain are the bytes outside the ranges, in order. -/
theorem excise_eq_remove (p : OpcodeParser σ) (data : Bytes)
    (h : Ascending 0 p.deniedRanges data.length) :
    (p.excise data data.length).1.take (p.excise data data.length).2.1 =
      remove p.deniedRanges data := by
  by_cases hnil : p.deniedRanges = []
  · simp [excise, hnil]
  · have hc := (compacted_start data).foldl h
    rw [List.nil_append] at hc
    simp only [excise, if_neg hnil]
    generalize p.deniedRanges.foldl Compaction.skip { data := data } = st at hc ⊢
    have hread := hc.read_le
    obtain ⟨_, htake, _⟩ := hc.block (data.length - st.read) (by omega)
    have hbound : ∀ x ∈ p.deniedRanges, x.1 + x.2 ≤ (data.take st.read).length := by
      intro x hx
      have := hc.ends_le x hx
      simp
      omega
    have htail : (data.drop st.read).take (data.length - st.read) = data.drop st.read :=
      List.take_of_length_le (by simp)
    rw [htake, htail, ← remove_append hbound, List.take_append_drop]

end OpcodeParser

end GuacamoleDiode
