import GuacamoleDiode.Lib.Machine
import Mathlib.Logic.Function.Basic
import Mathlib.Tactic.SplitIfs
import Mathlib.Data.Nat.Notation

/-!
# The channel table

The mapping between the multiplexing channel ids and the sockets. gmlbroker allocates
channels round-robin: a freed channel is not handed out again until the cursor has wrapped
the whole 16-bit space, so that frames of the old channel that are still in flight can drain
first. gcdbroker records the choice of its peer.

The calls of the threads are serialised by a lock, so that a list of calls is a run.

## Main definitions

- `ChannelTable.allocate`: the scan for a free channel
- `ChannelTable.machine`: the calls on one table
- `ChannelTable.BoundBetween`: a channel that was bound at some moment of a run

## Main results

- `ChannelTable.round_robin`: what an allocation returns, and how long an id is kept back
-/

namespace GuacamoleDiode

/-- `ChannelTable::Allocate`: the next free channel from the cursor on. -/
def ChannelTable.allocate (table : UInt16 → Option ℕ) (next : UInt16) : Option UInt16 :=
  scan 65536 next
where
  /-- the channels that are left to try -/
  scan : ℕ → UInt16 → Option UInt16
    | 0, _ => none
    | left + 1, channel => if table channel = none then some channel else scan left (channel + 1)

structure ChannelTable where
  channelToFd : UInt16 → Option ℕ := fun _ => none
  /-- round-robin cursor of `allocate` -/
  nextChannel : UInt16 := 0

namespace ChannelTable

/-- The calls that change or read a table. -/
inductive Call where
  | allocate (fd : ℕ)
  | insert (channel : UInt16) (fd : ℕ)
  | get (channel : UInt16)
  | remove (channel : UInt16)
  deriving DecidableEq, Repr

/-- What a call returns. -/
inductive Result where
  /-- the allocated channel, if one was free -/
  | allocated (channel : Option UInt16)
  /-- whether the channel was not in use -/
  | inserted (fresh : Bool)
  /-- the descriptor that is, or was, bound -/
  | fd (bound : Option ℕ)
  deriving DecidableEq, Repr

/-- One call. -/
def step (t : ChannelTable) : Call → ChannelTable × List Result
  | .allocate fd =>
    match allocate t.channelToFd t.nextChannel with
    | none => (t, [.allocated none])
    | some channel =>
      ({ channelToFd := Function.update t.channelToFd channel (some fd)
         nextChannel := channel + 1 }, [.allocated (some channel)])
  | .insert channel fd =>
    -- `emplace` does nothing when the key is there
    if t.channelToFd channel = none then
      ({ t with channelToFd := Function.update t.channelToFd channel (some fd) },
        [.inserted true])
    else (t, [.inserted false])
  | .get channel => (t, [.fd (t.channelToFd channel)])
  | .remove channel =>
    match t.channelToFd channel with
    | none => (t, [.fd none])
    | some fd =>
      ({ t with channelToFd := Function.update t.channelToFd channel none }, [.fd (some fd)])

/-- A table on which nothing has been called yet, and the calls. -/
def machine : Machine ChannelTable Call Result where
  init := {}
  step := step

/-- The channel was bound at some moment between the call behind `pre` and the end of
`pre ++ mid`. -/
def BoundBetween (pre mid : List Call) (channel : UInt16) : Prop :=
  ∃ m, m <+: mid ∧ (machine.run (pre ++ m)).channelToFd channel ≠ none

-- ═══════════════════════════════════════════════════════════════════════════
-- Offsets
-- ═══════════════════════════════════════════════════════════════════════════

/-- How many steps of the cursor lead from `c` to `d`. -/
def offset (c d : UInt16) : ℕ := (d - c).toNat

theorem offset_lt (c d : UInt16) : offset c d < 65536 := (d - c).toNat_lt

theorem add_offset (c d : UInt16) : c + UInt16.ofNat (offset c d) = d := by
  rw [offset, UInt16.ofNat_toNat, UInt16.add_comm, UInt16.sub_add_cancel]

theorem offset_add {c d : UInt16} {k : ℕ} (h : offset c d + k < 65536) :
    offset c (d + UInt16.ofNat k) = offset c d + k := by
  have hk : k % 65536 = k := Nat.mod_eq_of_lt (by omega)
  have hassoc : d + UInt16.ofNat k - c = (d - c) + UInt16.ofNat k := by
    rw [UInt16.sub_eq_add_neg, UInt16.sub_eq_add_neg, UInt16.add_assoc, UInt16.add_assoc,
      UInt16.add_comm (UInt16.ofNat k)]
  rw [offset, hassoc, UInt16.toNat_add, UInt16.toNat_ofNat', Nat.mod_eq_of_lt]
  · show offset c d + k % 65536 = offset c d + k
    rw [hk]
  · show offset c d + k % 65536 < 65536
    omega

theorem offset_self (c : UInt16) : offset c c = 0 := by
  rw [offset, UInt16.sub_self]
  rfl

/-- The ids in front of `d` that are at most `k` steps away from `c` lie between the two. -/
theorem exists_add_of_offset_lt {c d x : UInt16} {k : ℕ} (hle : offset c d ≤ offset c x)
    (hlt : offset c x < offset c d + k) : ∃ i < k, x = d + UInt16.ofNat i := by
  refine ⟨offset c x - offset c d, by omega, ?_⟩
  have hx := offset_lt c x
  have heq : offset c (d + UInt16.ofNat (offset c x - offset c d)) = offset c x := by
    rw [offset_add (by omega)]
    omega
  calc x = c + UInt16.ofNat (offset c x) := (add_offset c x).symm
    _ = c + UInt16.ofNat (offset c (d + UInt16.ofNat (offset c x - offset c d))) := by rw [heq]
    _ = d + UInt16.ofNat (offset c x - offset c d) := add_offset c _

theorem succ_add (d : UInt16) (k : ℕ) : d + 1 + UInt16.ofNat k = d + UInt16.ofNat (k + 1) := by
  rw [UInt16.add_assoc, UInt16.add_comm 1, UInt16.ofNat_add]
  rfl

/-- The cursor is furthest away from where it has just been. -/
theorem offset_succ_self (c : UInt16) : offset (c + 1) c = 65535 := by
  have hneg : c - (c + 1) = 65535 := by
    rw [UInt16.sub_eq_add_neg, UInt16.neg_add, UInt16.sub_eq_add_neg, ← UInt16.add_assoc,
      UInt16.add_right_neg]
    rfl
  rw [offset, hneg]
  rfl

theorem offset_lt_of_ne {c d : UInt16} (h : d ≠ c) : offset (c + 1) d < 65535 := by
  have hlt := offset_lt (c + 1) d
  have hne : offset (c + 1) d ≠ 65535 := by
    intro heq
    apply h
    rw [← add_offset (c + 1) d, heq, ← offset_succ_self c, add_offset]
  omega

-- ═══════════════════════════════════════════════════════════════════════════
-- The scan
-- ═══════════════════════════════════════════════════════════════════════════

section

variable {table : UInt16 → Option ℕ} {next channel : UInt16}

/-- The scan skips the bound channels and stops at the first one that is free. -/
theorem exists_of_scan {left : ℕ} (h : allocate.scan table left next = some channel) :
    ∃ i < left, channel = next + UInt16.ofNat i ∧ table channel = none ∧
      ∀ k < i, table (next + UInt16.ofNat k) ≠ none := by
  induction left generalizing next with
  | zero => cases h
  | succ left ih =>
    rw [allocate.scan] at h
    split_ifs at h with hfree
    · cases h
      exact ⟨0, Nat.succ_pos left, (UInt16.add_zero _).symm, hfree, by simp⟩
    · obtain ⟨i, hi, hchannel, hnone, hskip⟩ := ih h
      refine ⟨i + 1, Nat.succ_lt_succ hi, by rw [hchannel, succ_add], hnone, ?_⟩
      intro k hk
      cases k with
      | zero => exact (UInt16.add_zero next).symm ▸ hfree
      | succ k =>
        rw [← succ_add]
        exact hskip k (Nat.lt_of_succ_lt_succ hk)

theorem scan_eq_none_iff {left : ℕ} :
    allocate.scan table left next = none ↔ ∀ k < left, table (next + UInt16.ofNat k) ≠ none := by
  induction left generalizing next with
  | zero => simp [allocate.scan]
  | succ left ih =>
    rw [allocate.scan]
    split_ifs with hfree
    · refine iff_of_false (by simp) fun h => h 0 (Nat.succ_pos left) ?_
      exact (UInt16.add_zero next).symm ▸ hfree
    · rw [ih]
      constructor
      · intro h k hk
        cases k with
        | zero => exact (UInt16.add_zero next).symm ▸ hfree
        | succ k =>
          rw [← succ_add]
          exact h k (Nat.lt_of_succ_lt_succ hk)
      · intro h k hk
        rw [succ_add]
        exact h (k + 1) (Nat.succ_lt_succ hk)

/-- An allocated channel was free. -/
theorem allocate_free (h : allocate table next = some channel) : table channel = none := by
  obtain ⟨-, -, -, hnone, -⟩ := exists_of_scan h
  exact hnone

/-- The scan covers every slot. -/
theorem allocate_eq_none_iff : allocate table next = none ↔ ∀ c, table c ≠ none := by
  rw [allocate, scan_eq_none_iff]
  constructor
  · intro h c
    rw [← add_offset next c]
    exact h _ (offset_lt next c)
  · intro h k _
    exact h _

end

-- ═══════════════════════════════════════════════════════════════════════════
-- The ids that the cursor has passed
-- ═══════════════════════════════════════════════════════════════════════════

section

variable {pre mid : List Call} {c d channel : UInt16} {t : ChannelTable} {fd : ℕ}

theorem BoundBetween.snoc (h : BoundBetween pre mid d) (call : Call) :
    BoundBetween pre (mid ++ [call]) d := by
  obtain ⟨m, hm, hbound⟩ := h
  exact ⟨m, hm.trans (List.prefix_append _ _), hbound⟩

theorem boundBetween_now (h : (machine.run (pre ++ mid)).channelToFd d ≠ none) :
    BoundBetween pre mid d :=
  ⟨mid, List.prefix_rfl, h⟩

theorem step_allocate (h : allocate t.channelToFd t.nextChannel = some channel) :
    t.step (.allocate fd) =
      ({ channelToFd := Function.update t.channelToFd channel (some fd)
         nextChannel := channel + 1 }, [.allocated (some channel)]) := by
  rw [step, h]

theorem step_allocate_none (h : allocate t.channelToFd t.nextChannel = none) :
    t.step (.allocate fd) = (t, [.allocated none]) := by
  rw [step, h]

theorem returns_iff : (t.step (.allocate fd)).2 = [.allocated (some channel)] ↔
    allocate t.channelToFd t.nextChannel = some channel := by
  cases h : allocate t.channelToFd t.nextChannel with
  | none => simp [step_allocate_none h]
  | some r => simp [step_allocate h]

theorem fails_iff : (t.step (.allocate fd)).2 = [.allocated none] ↔
    allocate t.channelToFd t.nextChannel = none := by
  cases h : allocate t.channelToFd t.nextChannel with
  | none => simp [step_allocate_none h]
  | some r => simp [step_allocate h]

/-- Only a successful allocation moves the cursor. -/
theorem nextChannel_step (call : Call) : (t.step call).1.nextChannel = t.nextChannel ∨
    ∃ fd channel, call = .allocate fd ∧ allocate t.channelToFd t.nextChannel = some channel := by
  cases call with
  | allocate fd =>
    cases h : allocate t.channelToFd t.nextChannel with
    | none => exact .inl (by rw [step_allocate_none h])
    | some r => exact .inr ⟨fd, r, rfl, rfl⟩
  | insert channel fd =>
    rw [step]
    split_ifs <;> exact .inl rfl
  | get channel => exact .inl rfl
  | remove channel =>
    rw [step]
    split <;> exact .inl rfl

/-- Since `c` was handed out the cursor has passed bound ids only; once it has come round to
`c` again these are all others. -/
def Swept (pre mid : List Call) (c : UInt16) : Prop :=
  (∀ d ≠ c, BoundBetween pre mid d) ∨
    ∀ d, offset (c + 1) d < offset (c + 1) (machine.run (pre ++ mid)).nextChannel →
      BoundBetween pre mid d

/-- The cursor passes the ids that the scan skips, and the one that it returns. -/
theorem Swept.step (h : Swept pre mid c) (call : Call) : Swept pre (mid ++ [call]) c := by
  rcases h with hall | hpassed
  · exact .inl fun d hd => (hall d hd).snoc call
  rw [Swept, ← List.append_assoc, Machine.run_snoc]
  rcases nextChannel_step (t := machine.run (pre ++ mid)) call with
    hsame | ⟨fd, channel, rfl, hallocate⟩
  · refine .inr fun d hd => (hpassed d ?_).snoc call
    rw [show machine.step = ChannelTable.step from rfl, hsame] at hd
    exact hd
  obtain ⟨i, hi, hchannel, -, hskip⟩ := exists_of_scan hallocate
  have hcovered : ∀ d, offset (c + 1) d <
      offset (c + 1) (machine.run (pre ++ mid)).nextChannel + (i + 1) →
      BoundBetween pre (mid ++ [.allocate fd]) d := by
    intro d hd
    by_cases hle : offset (c + 1) (machine.run (pre ++ mid)).nextChannel ≤ offset (c + 1) d
    · obtain ⟨k, hk, rfl⟩ := exists_add_of_offset_lt hle hd
      rcases Nat.lt_succ_iff_lt_or_eq.mp hk with hlt | rfl
      · exact (boundBetween_now (hskip k hlt)).snoc _
      · apply boundBetween_now
        rw [← List.append_assoc, Machine.run_snoc, ← hchannel]
        show (ChannelTable.step _ _).1.channelToFd channel ≠ none
        rw [step_allocate hallocate]
        simp
    · exact (hpassed d (Nat.lt_of_not_le hle)).snoc _
  have hnext : ((machine.run (pre ++ mid)).step (.allocate fd)).1.nextChannel =
      (machine.run (pre ++ mid)).nextChannel + UInt16.ofNat (i + 1) := by
    rw [step_allocate hallocate, ← succ_add, hchannel, UInt16.add_assoc, UInt16.add_assoc,
      UInt16.add_comm 1]
  by_cases hwrap : offset (c + 1) (machine.run (pre ++ mid)).nextChannel + (i + 1) < 65536
  · right
    intro d hd
    apply hcovered
    rw [← offset_add hwrap, ← hnext]
    exact hd
  · left
    intro d _
    have := offset_lt (c + 1) d
    exact hcovered d (by omega)

/-- Behind the allocation of `c`. -/
theorem swept_allocate (h : allocate (machine.run pre).channelToFd (machine.run pre).nextChannel = some c)
    (mid : List Call) : Swept (pre ++ [.allocate fd]) mid c := by
  induction mid using List.reverseRecOn with
  | nil =>
    right
    intro d hd
    rw [List.append_nil, Machine.run_snoc] at hd
    have hnext : ((machine.run pre).step (.allocate fd)).1.nextChannel = c + 1 := by
      rw [step_allocate h]
    rw [show machine.step = ChannelTable.step from rfl, hnext, offset_self] at hd
    cases hd
  | append_singleton mid call ih => exact ih.step call

/-- When `c` is handed out again, the cursor has passed all other ids. -/
theorem Swept.reused (h : Swept pre mid c)
    (hreuse : allocate (machine.run (pre ++ mid)).channelToFd
      (machine.run (pre ++ mid)).nextChannel = some c) (hd : d ≠ c) : BoundBetween pre mid d := by
  rcases h with hall | hpassed
  · exact hall d hd
  obtain ⟨i, hi, hchannel, -, hskip⟩ := exists_of_scan hreuse
  have hlast := offset_succ_self c
  have hlt := offset_lt_of_ne hd
  by_cases hle : offset (c + 1) (machine.run (pre ++ mid)).nextChannel ≤ offset (c + 1) d
  · have hreach : offset (c + 1) d < offset (c + 1) (machine.run (pre ++ mid)).nextChannel + i := by
      by_cases hwrap : offset (c + 1) (machine.run (pre ++ mid)).nextChannel + i < 65536
      · have hoffset := offset_add hwrap
        rw [← hchannel, hlast] at hoffset
        omega
      · omega
    obtain ⟨k, hk, rfl⟩ := exists_add_of_offset_lt hle hreach
    exact boundBetween_now (hskip k hk)
  · exact hpassed d (Nat.lt_of_not_le hle)

end

/-- In every run of calls on an initially empty table, `Allocate` binds a free channel and
nothing else, fails only when every channel is bound, and returns a channel for the second
time only when each other one was returned or bound since. -/
theorem round_robin (pre : List Call) (fd : ℕ) (c : UInt16) :
    ((machine.step (machine.run pre) (.allocate fd)).2 = [.allocated (some c)] →
      (machine.run pre).channelToFd c = none ∧
      (machine.run (pre ++ [.allocate fd])).channelToFd =
        Function.update (machine.run pre).channelToFd c (some fd)) ∧
    ((machine.step (machine.run pre) (.allocate fd)).2 = [.allocated none] ↔
      ∀ d, (machine.run pre).channelToFd d ≠ none) ∧
    ∀ mid fd', (machine.step (machine.run pre) (.allocate fd)).2 = [.allocated (some c)] →
      (machine.step (machine.run (pre ++ [.allocate fd] ++ mid)) (.allocate fd')).2 =
        [.allocated (some c)] →
      ∀ d ≠ c,
        (∃ m fd'', m ++ [.allocate fd''] <+: mid ∧
          (machine.step (machine.run (pre ++ [.allocate fd] ++ m)) (.allocate fd'')).2 =
            [.allocated (some d)]) ∨
        BoundBetween (pre ++ [.allocate fd]) mid d := by
  refine ⟨?_, ?_, ?_⟩
  · intro h
    have hallocate := returns_iff.mp h
    refine ⟨allocate_free hallocate, ?_⟩
    rw [Machine.run_snoc]
    show ((machine.run pre).step (.allocate fd)).1.channelToFd = _
    rw [step_allocate hallocate]
  · have hfull : allocate (machine.run pre).channelToFd (machine.run pre).nextChannel = none ↔
        ∀ d, (machine.run pre).channelToFd d ≠ none := allocate_eq_none_iff
    rw [← hfull]
    exact fails_iff
  · intro mid fd' hfirst hsecond d hd
    right
    exact (swept_allocate (returns_iff.mp hfirst) mid).reused (returns_iff.mp hsecond) hd

/-- Channel 0 is given back, and then each of `n` other channels is taken and given back. -/
def lap (n : ℕ) : List Call :=
  .remove 0 :: (List.range n).flatMap fun k => [.allocate 7, .remove (UInt16.ofNat (k + 1))]

theorem run_lap (n : ℕ) : machine.run ([.allocate 7] ++ lap n) =
    { channelToFd := fun _ => none, nextChannel := UInt16.ofNat (n + 1) } := by
  induction n with
  | zero =>
    have hempty : Function.update (Function.update (fun _ => none) 0 (some 7)) 0 none =
        (fun _ : UInt16 => (none : Option ℕ)) := by
      rw [Function.update_idem]
      exact Function.update_eq_self 0 _
    exact congrArg (ChannelTable.mk · 1) hempty
  | succ n ih =>
    have hlap : [Call.allocate 7] ++ lap (n + 1) =
        [Call.allocate 7] ++ lap n ++ [.allocate 7] ++ [.remove (UInt16.ofNat (n + 1))] := by
      simp [lap, List.range_succ]
    rw [hlap, Machine.run_snoc, Machine.run_snoc, ih]
    have hallocate : allocate (fun _ => none) (UInt16.ofNat (n + 1)) =
        some (UInt16.ofNat (n + 1)) := rfl
    show ((ChannelTable.step _ (.allocate 7)).1.step _).1 = _
    rw [step_allocate hallocate, step]
    simp only [Function.update_self, Function.update_idem, ChannelTable.mk.injEq]
    refine ⟨Function.update_eq_self _ _, ?_⟩
    exact (UInt16.ofNat_add (n + 1) 1).symm

/-- Channel 0 is handed out again after a whole lap. -/
theorem round_robin_lap : ∀ d ≠ 0,
    (∃ m fd, m ++ [.allocate fd] <+: lap 65535 ∧
      (machine.step (machine.run ([.allocate 7] ++ m)) (.allocate fd)).2 =
        [.allocated (some d)]) ∨
    BoundBetween [.allocate 7] (lap 65535) d := by
  have hagain : (machine.step (machine.run ([.allocate 7] ++ lap 65535)) (.allocate 7)).2 =
      [.allocated (some 0)] := by
    rw [run_lap]
    rfl
  exact (round_robin [] 7 0).2.2 (lap 65535) 7 rfl hagain

end ChannelTable

end GuacamoleDiode
