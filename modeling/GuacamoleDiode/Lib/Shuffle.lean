import GuacamoleDiode.Lib.Pieces

/-!
# Several writers on one connection

Writes of several writers follow each other on one connection. One of them, the cut
writer, sends an instruction stream in pieces whose borders fall anywhere; the others
only write whole instructions. `Shuffled` says that every instruction still arrives in
one piece. It holds exactly if the others only write while the cut writer stands at an
instruction boundary.

## Main definitions

- `labelled`: the bytes of a sequence of writes, each with its writer
- `Shuffled`: the bytes begin a sequence of instructions that have one writer each

## Main results

- `shuffled_of_boundary`, `boundary_of_shuffled`
-/

namespace Wire

variable {κ : Type*} {limit : ℕ}

/-- The bytes of a sequence of writes, each with its writer. -/
def labelled (ws : List (κ × Bytes)) : List (κ × UInt8) :=
  ws.flatMap fun w => w.2.map (Prod.mk w.1)

@[simp] theorem labelled_nil : labelled ([] : List (κ × Bytes)) = [] := rfl

@[simp] theorem labelled_cons (w : κ × Bytes) (ws : List (κ × Bytes)) :
    labelled (w :: ws) = w.2.map (Prod.mk w.1) ++ labelled ws := by
  simp [labelled]

@[simp] theorem labelled_append (ws ws' : List (κ × Bytes)) :
    labelled (ws ++ ws') = labelled ws ++ labelled ws' := by
  simp [labelled]

theorem labelled_mono {ws ws' : List (κ × Bytes)} (h : ws <+: ws') :
    labelled ws <+: labelled ws' := by
  obtain ⟨more, rfl⟩ := h
  rw [labelled_append]
  exact List.prefix_append _ _

/-- Writing the instructions of a stream one by one. -/
theorem labelled_map_encode (m : κ) (is : List (Instruction limit)) :
    labelled (is.map fun i => (m, i.encode)) = (wire is).map (Prod.mk m) := by
  induction is with
  | nil => rfl
  | cons i is ih => simp [ih]

/-- Empty writes leave no trace. -/
theorem labelled_filter_ne_nil (ws : List (κ × Bytes)) :
    labelled (ws.filter fun w => w.2 ≠ []) = labelled ws := by
  induction ws with
  | nil => rfl
  | cons w ws ih =>
    by_cases hw : w.2 = []
    · rw [List.filter_cons_of_neg (by simp [hw]), ih, labelled_cons, hw]
      rfl
    · rw [List.filter_cons_of_pos (by simp [hw]), labelled_cons, labelled_cons, ih]

variable [DecidableEq κ]

/-- The writes of one writer. -/
def writesOf (m : κ) (ws : List (κ × Bytes)) : List Bytes :=
  ws.filterMap fun w => if w.1 = m then some w.2 else none

@[simp] theorem writesOf_nil (m : κ) : writesOf m ([] : List (κ × Bytes)) = [] := rfl

@[simp] theorem writesOf_append (m : κ) (ws ws' : List (κ × Bytes)) :
    writesOf m (ws ++ ws') = writesOf m ws ++ writesOf m ws' := by
  simp [writesOf]

theorem writesOf_cons_self (m : κ) (d : Bytes) (ws : List (κ × Bytes)) :
    writesOf m ((m, d) :: ws) = d :: writesOf m ws := by
  simp [writesOf]

theorem writesOf_cons_of_ne {m a : κ} (h : a ≠ m) (d : Bytes) (ws : List (κ × Bytes)) :
    writesOf m ((a, d) :: ws) = writesOf m ws := by
  simp [writesOf, h]

theorem writesOf_map_self (m : κ) (ds : List Bytes) : writesOf m (ds.map (Prod.mk m)) = ds := by
  induction ds with
  | nil => rfl
  | cons d ds ih => rw [List.map_cons, writesOf_cons_self, ih]

theorem writesOf_map_of_ne {m a : κ} (h : a ≠ m) (ds : List Bytes) :
    writesOf m (ds.map (Prod.mk a)) = [] := by
  induction ds with
  | nil => rfl
  | cons d ds ih => rw [List.map_cons, writesOf_cons_of_ne h, ih]

/-- The bytes begin a sequence of blocks. Those of the cut writer are the instructions of
its stream, in order, and those of the others are whole instructions of theirs. -/
def Shuffled (m : κ) (is : List (Instruction limit)) (whole : Bytes → Prop)
    (ws : List (κ × Bytes)) : Prop :=
  ∃ blocks : List (κ × Bytes), labelled ws <+: labelled blocks ∧
    writesOf m blocks <+: is.map Instruction.encode ∧ ∀ b ∈ blocks, b.1 ≠ m → whole b.2

/-- Fewer bytes have been written. -/
theorem Shuffled.mono {m : κ} {is : List (Instruction limit)} {whole : Bytes → Prop}
    {ws ws' : List (κ × Bytes)} (h : Shuffled m is whole ws') (hws : labelled ws <+: labelled ws') :
    Shuffled m is whole ws := by
  obtain ⟨blocks, hpre, hblocks⟩ := h
  exact ⟨blocks, hws.trans hpre, hblocks⟩

/-- A beginning of an instruction stream ends at a boundary or inside its next instruction. -/
theorem Cursor.prefix_of_prefix_wire {is js : List (Instruction limit)} {cur : Cursor limit}
    (h : wire is ++ cur.bytes <+: wire js) :
    is <+: js ∧ (cur = start ∨ ∃ i, is ++ [i] <+: js ∧ cur.bytes <+: i.encode) := by
  obtain ⟨rest, hrest⟩ := h
  have hr := read_wire js
  rw [← hrest, read_append_of_eq_some (read_wire_append_bytes is cur), Option.map_eq_some_iff] at hr
  obtain ⟨⟨qs, cur'⟩, hq, heq⟩ := hr
  cases heq
  refine ⟨List.prefix_append _ _, ?_⟩
  cases qs with
  | nil =>
    have hnil : cur.bytes ++ rest = [] := read_bytes hq
    exact .inl (bytes_eq_nil_iff.mp (List.append_eq_nil_iff.mp hnil).1)
  | cons i qs =>
    have hpre : cur.bytes <+: wire [i] := bytes_prefix_wire (hq : _ = some ([i] ++ qs, _)) (by simp)
    exact .inr ⟨i, ⟨qs, by simp⟩, by simpa using hpre⟩

section

variable {m : κ} {whole : Bytes → Prop} {ws : List (κ × Bytes)}

/-- The bytes so far are blocks, and behind them what the cut writer has begun. -/
def Blocked (m : κ) (whole : Bytes → Prop) (ws : List (κ × Bytes)) (is : List (Instruction limit))
    (cur : Cursor limit) : Prop :=
  ∃ blocks : List (κ × Bytes), labelled ws = labelled blocks ++ cur.bytes.map (Prod.mk m) ∧
    writesOf m blocks = is.map Instruction.encode ∧ ∀ b ∈ blocks, b.1 ≠ m → whole b.2

/-- A piece of the cut writer completes some instructions and begins another. -/
theorem Blocked.append_cut {is js : List (Instruction limit)} {cur cur' : Cursor limit} {d : Bytes}
    (h : Blocked m whole ws is cur) (hd : cur.read d = some (js, cur')) :
    Blocked m whole (ws ++ [(m, d)]) (is ++ js) cur' := by
  obtain ⟨blocks, hws, hm, hb⟩ := h
  refine ⟨blocks ++ js.map fun i => (m, i.encode), ?_, ?_, ?_⟩
  · have hbytes := congrArg (List.map (Prod.mk m)) (Cursor.read_bytes hd)
    simp only [List.map_append] at hbytes
    simp [hws, labelled_map_encode, hbytes]
  · rw [writesOf_append, hm, List.map_append]
    simpa [Function.comp_def] using writesOf_map_self m (js.map Instruction.encode)
  · intro b hbm hne
    rcases List.mem_append.mp hbm with hbm | hbm
    · exact hb b hbm hne
    · obtain ⟨i, -, rfl⟩ := List.mem_map.mp hbm
      exact absurd rfl hne

/-- Another writer writes whole instructions at a boundary. -/
theorem Blocked.append_whole {is : List (Instruction limit)} {a : κ} {ds : List Bytes}
    (h : Blocked m whole ws is .start) (ha : a ≠ m) (hds : ∀ d ∈ ds, whole d) :
    Blocked m whole (ws ++ [(a, ds.flatten)]) is .start := by
  obtain ⟨blocks, hws, hm, hb⟩ := h
  refine ⟨blocks ++ ds.map (Prod.mk a), ?_, ?_, ?_⟩
  · have hlab : labelled (ds.map (Prod.mk a)) = ds.flatten.map (Prod.mk a) := by
      simp [labelled, List.map_flatten, List.flatMap_def, Function.comp_def]
    simp [hws, hlab]
  · rw [writesOf_append, writesOf_map_of_ne ha, hm, List.append_nil]
  · intro b hbm hne
    rcases List.mem_append.mp hbm with hbm | hbm
    · exact hb b hbm hne
    · obtain ⟨d, hd, rfl⟩ := List.mem_map.mp hbm
      exact hds d hd

/-- The others write whole instructions, and only while the cut writer stands at an
instruction boundary of its stream. -/
def AtBoundaries (m : κ) (limit : ℕ) (whole : Bytes → Prop) (ws : List (κ × Bytes)) : Prop :=
  ∀ pre a d post, ws = pre ++ (a, d) :: post → a ≠ m → d ≠ [] →
    (∃ ds : List Bytes, d = ds.flatten ∧ ∀ d ∈ ds, whole d) ∧
    ∃ is : List (Instruction limit), (writesOf m pre).flatten = wire is

theorem AtBoundaries.of_append {ws' : List (κ × Bytes)}
    (h : AtBoundaries m limit whole (ws ++ ws')) : AtBoundaries m limit whole ws := by
  rintro pre a d post rfl ha hd
  exact h pre a d (post ++ ws') (by simp) ha hd

theorem atBoundaries_nil : AtBoundaries m limit whole [] := by
  intro pre a d post h
  simp at h

theorem AtBoundaries.snoc {a : κ} {d : Bytes} (h : AtBoundaries m limit whole ws)
    (hlast : a ≠ m → d ≠ [] → (∃ ds : List Bytes, d = ds.flatten ∧ ∀ d ∈ ds, whole d) ∧
      ∃ is : List (Instruction limit), (writesOf m ws).flatten = wire is) :
    AtBoundaries m limit whole (ws ++ [(a, d)]) := by
  intro pre b d' post heq hb hd'
  rcases List.eq_nil_or_concat post with rfl | ⟨post, w, rfl⟩
  · obtain ⟨rfl, hlast'⟩ := List.append_inj' heq rfl
    cases hlast'
    exact hlast hb hd'
  · rw [List.concat_eq_append, ← List.cons_append, ← List.append_assoc] at heq
    obtain ⟨rfl, -⟩ := List.append_inj' heq rfl
    exact h pre b d' post rfl hb hd'

theorem blocked_of_boundary {is : List (Instruction limit)} {cur : Cursor limit}
    (hread : Cursor.start.read (writesOf m ws).flatten = some (is, cur))
    (h : AtBoundaries m limit whole ws) : Blocked m whole ws is cur := by
  induction ws using List.reverseRecOn generalizing is cur with
  | nil =>
    cases hread
    exact ⟨[], by simp, rfl, by simp⟩
  | append_singleton ws w ih =>
    obtain ⟨a, d⟩ := w
    by_cases ha : a = m
    · -- the cut writer goes on reading where it stood
      subst ha
      rw [writesOf_append, writesOf_cons_self, writesOf_nil, List.flatten_append,
        List.flatten_singleton] at hread
      obtain ⟨⟨js, cur₁⟩, h₁⟩ := Cursor.exists_read_of_read_append hread
      rw [Cursor.read_append_of_eq_some h₁, Option.map_eq_some_iff] at hread
      obtain ⟨⟨qs, cur₂⟩, h₂, heq⟩ := hread
      cases heq
      exact (ih h₁ h.of_append).append_cut h₂
    · rw [writesOf_append, writesOf_cons_of_ne ha, writesOf_nil, List.append_nil] at hread
      have hblocked := ih hread h.of_append
      by_cases hd : d = []
      · subst hd
        obtain ⟨blocks, hws, hblocks⟩ := hblocked
        exact ⟨blocks, by simpa using hws, hblocks⟩
      · obtain ⟨⟨ds, rfl, hds⟩, js, hjs⟩ := h ws a d [] rfl ha hd
        rw [hjs, Cursor.read_wire] at hread
        cases hread
        exact hblocked.append_whole ha hds

/-- Instructions stay in one piece if the others only write at boundaries. -/
theorem shuffled_of_boundary {is : List (Instruction limit)}
    (hpre : (writesOf m ws).flatten <+: wire is) (h : AtBoundaries m limit whole ws) :
    Shuffled m is whole ws := by
  obtain ⟨⟨js, cur⟩, hread⟩ := Cursor.exists_read_iff.mpr ⟨is, hpre⟩
  obtain ⟨blocks, hws, hm, hb⟩ := blocked_of_boundary hread h
  rw [Cursor.read_start_eq_some_iff.mp hread] at hpre
  obtain ⟨hjs, rfl | ⟨i, hi, hcur⟩⟩ := Cursor.prefix_of_prefix_wire hpre
  · exact ⟨blocks, by simp [hws], hm ▸ hjs.map _, hb⟩
  · refine ⟨blocks ++ [(m, i.encode)], ?_, ?_, ?_⟩
    · simpa [hws] using hcur.map (Prod.mk m)
    · rw [writesOf_append, hm, writesOf_cons_self, writesOf_nil]
      simpa using hi.map Instruction.encode
    · intro b hbm hne
      rcases List.mem_append.mp hbm with hbm | hbm
      · exact hb b hbm hne
      · rw [List.mem_singleton] at hbm
        exact absurd (congrArg Prod.fst hbm) hne

/-- The bytes of one writer. -/
def bytesOf (m : κ) (w : List (κ × UInt8)) : Bytes :=
  w.filterMap fun b => if b.1 = m then some b.2 else none

theorem bytesOf_append (m : κ) (w w' : List (κ × UInt8)) :
    bytesOf m (w ++ w') = bytesOf m w ++ bytesOf m w' := by
  simp [bytesOf]

theorem bytesOf_map_self (m : κ) (d : Bytes) : bytesOf m (d.map (Prod.mk m)) = d := by
  simp [bytesOf, List.filterMap_map]

theorem bytesOf_map_of_ne {m a : κ} (h : a ≠ m) (d : Bytes) :
    bytesOf m (d.map (Prod.mk a)) = [] := by
  simp [bytesOf, List.filterMap_map, h]

theorem bytesOf_labelled (m : κ) (ws : List (κ × Bytes)) :
    bytesOf m (labelled ws) = (writesOf m ws).flatten := by
  induction ws with
  | nil => rfl
  | cons w ws ih =>
    obtain ⟨a, d⟩ := w
    rw [labelled_cons, bytesOf_append, ih]
    by_cases ha : a = m
    · subst ha
      rw [bytesOf_map_self, writesOf_cons_self, List.flatten_cons]
    · rw [bytesOf_map_of_ne ha, writesOf_cons_of_ne ha, List.nil_append]

/-- In front of a byte of another writer stand whole blocks of the cut writer. -/
theorem bytesOf_of_prefix_labelled {a : κ} (ha : a ≠ m) {b : UInt8} {blocks : List (κ × Bytes)}
    {u : List (κ × UInt8)} (h : u ++ [(a, b)] <+: labelled blocks) :
    ∃ pre, pre <+: blocks ∧ bytesOf m u = bytesOf m (labelled pre) := by
  induction blocks generalizing u with
  | nil => simp at h
  | cons w blocks ih =>
    obtain ⟨x, d⟩ := w
    rw [labelled_cons] at h
    have hsplit : u ++ [(a, b)] <+: d.map (Prod.mk x) ∨ d.map (Prod.mk x) <+: u := by
      rcases List.prefix_or_prefix_of_prefix h (List.prefix_append _ _) with hp | hp
      · exact .inl hp
      · rcases List.prefix_concat_iff.mp hp with heq | hp
        · exact .inl (heq ▸ List.prefix_rfl)
        · exact .inr hp
    rcases hsplit with hp | ⟨u', rfl⟩
    · -- the byte lies inside the first block, which therefore is not one of the cut writer
      have hx : x = a := by
        have hmem : (a, b) ∈ d.map (Prod.mk x) := hp.subset (by simp)
        obtain ⟨_, -, heq⟩ := List.mem_map.mp hmem
        exact congrArg Prod.fst heq
      obtain ⟨t, ht⟩ := hp
      have hbytes := congrArg (bytesOf m) ht
      rw [hx, bytesOf_map_of_ne ha, bytesOf_append, bytesOf_append, List.append_assoc] at hbytes
      exact ⟨[], List.nil_prefix, (List.append_eq_nil_iff.mp hbytes).1⟩
    · rw [List.append_assoc, List.prefix_append_right_inj] at h
      obtain ⟨pre, hpre, hbytes⟩ := ih h
      refine ⟨(x, d) :: pre, List.cons_prefix_cons.mpr ⟨rfl, hpre⟩, ?_⟩
      rw [labelled_cons, bytesOf_append, bytesOf_append, hbytes]

/-- If instructions stay in one piece, the others only write at boundaries. -/
theorem boundary_of_shuffled {is : List (Instruction limit)} (h : Shuffled m is whole ws)
    {pre post : List (κ × Bytes)} {a : κ} {d : Bytes} (hws : ws = pre ++ (a, d) :: post)
    (ha : a ≠ m) (hd : d ≠ []) :
    ∃ js : List (Instruction limit), (writesOf m pre).flatten = wire js := by
  obtain ⟨blocks, hpre, hm, -⟩ := h
  obtain ⟨b, d, rfl⟩ := List.exists_cons_of_ne_nil hd
  have hbyte : labelled pre ++ [(a, b)] <+: labelled blocks :=
    List.IsPrefix.trans ⟨d.map (Prod.mk a) ++ labelled post, by simp [hws]⟩ hpre
  obtain ⟨front, ⟨back, rfl⟩, hbytes⟩ := bytesOf_of_prefix_labelled (m := m) ha hbyte
  rw [writesOf_append] at hm
  obtain ⟨n, hn⟩ : ∃ n, writesOf m front = (is.take n).map Instruction.encode := by
    have hfront := (List.prefix_append _ _).trans hm
    exact ⟨_, (List.prefix_iff_eq_take.mp hfront).trans (List.map_take ..).symm⟩
  refine ⟨is.take n, ?_⟩
  rw [← bytesOf_labelled, hbytes, bytesOf_labelled, hn, wire, List.flatMap_def]

end

end Wire
