import GuacamoleDiode.Lib.Reader

/-!
# One instruction under two limits

The limit of an element belongs to the reader and not to the bytes. The same bytes are an
instruction under every limit that none of its elements exceeds, and cannot be read under any
other.

## Main results

- `Instruction.exists_relimit`
- `Cursor.read_encode_none`
-/

namespace Wire

variable {limit limit' : ℕ}

/-- The same element under another limit. -/
def Element.relimit (e : Element limit) (h : e.value.length ≤ limit') : Element limit' :=
  { e with length_le := h }

/-- The elements of an instruction keep to a limit. -/
def Instruction.Within (limit' : ℕ) (i : Instruction limit) : Prop :=
  ∀ v ∈ i.values, v.length ≤ limit'

theorem closedBytes_congr {es : List (Element limit)} {es' : List (Element limit')}
    (h : es.map Element.body = es'.map Element.body) : closedBytes es = closedBytes es' := by
  have hbodies : ∀ {l : ℕ} (es : List (Element l)),
      closedBytes es = (es.map Element.body).flatMap (· ++ [comma]) := by
    intro l es
    rw [closedBytes, List.flatMap_map]
  rw [hbodies, hbodies, h]

theorem encodeElements_congr {es : List (Element limit)} {es' : List (Element limit')}
    (h : es.map Element.body = es'.map Element.body) : encodeElements es = encodeElements es' := by
  rcases List.eq_nil_or_concat es with rfl | ⟨init, last, rfl⟩
  · obtain rfl : es' = [] := by simpa using h.symm
    rfl
  · rcases List.eq_nil_or_concat es' with rfl | ⟨init', last', rfl⟩
    · simp at h
    · simp only [List.concat_eq_append, List.map_append, List.map_cons, List.map_nil] at h ⊢
      obtain ⟨hinit, hlast⟩ := List.append_inj' h rfl
      rw [encodeElements_append_singleton, encodeElements_append_singleton,
        closedBytes_congr hinit, List.singleton_inj.mp hlast]

/-- An instruction is one under every limit that its elements keep to. -/
theorem Instruction.exists_relimit {i : Instruction limit} (h : i.Within limit') :
    ∃ j : Instruction limit', j.encode = i.encode ∧ j.values = i.values := by
  have hfits : ∀ e ∈ i.elements, e.value.length ≤ limit' := fun e he =>
    h e.value (List.mem_map_of_mem he)
  have hne : i.elements.pmap Element.relimit hfits ≠ [] := by
    simpa using i.elements_ne_nil
  refine ⟨⟨i.elements.pmap Element.relimit hfits, hne⟩, ?_, ?_⟩
  · apply encodeElements_congr
    simp [List.map_pmap, Element.relimit, Element.body]
  · simp [Instruction.values, List.map_pmap, Element.relimit]

/-- What has been received of an element is there under every larger limit. -/
theorem Partial.exists_mono (hle : limit ≤ limit') (q : Partial limit) :
    ∃ q' : Partial limit', q'.bytes = q.bytes := by
  cases q with
  | length digits hd h => exact ⟨.length digits hd (h.trans hle), rfl⟩
  | data digits value hd h hm ha => exact ⟨.data digits value hd (h.trans hle) hm ha, rfl⟩
  | delim e => exact ⟨.delim (e.relimit (e.length_le.trans hle)), rfl⟩

namespace Instruction

/-- The same instruction under a larger limit. -/
def mono (hle : limit ≤ limit') (i : Instruction limit) : Instruction limit' where
  elements := i.elements.map fun e => e.relimit (e.length_le.trans hle)
  elements_ne_nil := by simpa using i.elements_ne_nil

theorem encode_mono (hle : limit ≤ limit') (i : Instruction limit) : (i.mono hle).encode = i.encode := by
  apply encodeElements_congr
  simp [mono, Element.relimit, Element.body]

theorem values_mono (hle : limit ≤ limit') (i : Instruction limit) : (i.mono hle).values = i.values := by
  simp [mono, values, Element.relimit]

theorem within (i : Instruction limit) : i.Within limit := by
  intro v hv
  obtain ⟨e, -, rfl⟩ := List.mem_map.mp hv
  exact e.length_le

end Instruction

theorem wire_mono (hle : limit ≤ limit') (is : List (Instruction limit)) :
    wire (is.map (Instruction.mono hle)) = wire is := by
  induction is with
  | nil => rfl
  | cons i is ih => rw [List.map_cons, wire_cons, wire_cons, ih, Instruction.encode_mono]

namespace Cursor

theorem exists_mono (hle : limit ≤ limit') (cur : Cursor limit) :
    ∃ cur' : Cursor limit', cur'.bytes = cur.bytes := by
  obtain ⟨q, hq⟩ := cur.part.exists_mono hle
  refine ⟨⟨cur.closed.map fun e => e.relimit (e.length_le.trans hle), q⟩, ?_⟩
  have hclosed : closedBytes (cur.closed.map fun e => e.relimit (e.length_le.trans hle)) =
      closedBytes cur.closed := by
    apply closedBytes_congr
    simp [Element.relimit, Element.body]
  rw [bytes, bytes, hclosed, hq]

/-- An instruction with a longer element cannot be read. -/
theorem read_encode_none {i : Instruction limit} (h : ¬i.Within limit') :
    (start : Cursor limit').read i.encode = none := by
  have hle : limit' ≤ limit := by
    apply Nat.le_of_lt
    by_contra hge
    exact h fun v hv => (i.within v hv).trans (Nat.le_of_not_lt hge)
  apply Option.eq_none_iff_forall_ne_some.mpr
  rintro ⟨is, cur⟩ hr
  -- read under the larger limit, the bytes hold the same instructions and the instruction itself
  obtain ⟨cur', hcur⟩ := cur.exists_mono hle
  have hsplit : i.encode = wire (is.map (Instruction.mono hle)) ++ cur'.bytes := by
    rw [wire_mono, hcur]
    exact read_start_eq_some_iff.mp hr
  have hboth := (read_encode i).symm.trans (read_start_eq_some_iff.mpr hsplit)
  obtain ⟨hone, -⟩ := Prod.mk.inj (Option.some.inj hboth)
  obtain ⟨j, rfl, hj⟩ := List.map_eq_singleton_iff.mp hone.symm
  apply h
  rw [Instruction.Within, ← hj, Instruction.values_mono]
  exact j.within

end Cursor

end Wire
