import GuacamoleDiode.Guard.Gate

/-!
# The global deny

A deny takes two steps of the control thread: it flips the switch of the approver, and then
it stores the teardown flag. The main loop looks at the flag only at its top, so that the
receive that is under way when the deny completes still returns a datagram, and a channel
that is approved in between is torn down by the flag of the deny before.

## Main definitions

- `Guard.Checks`: the main loop takes the flag
- `Guard.Underway`: the main loop has not been back at its top
- `Guard.CutsOff`, `Guard.Spares`: what a deny that were atomic would do

## Main results

- `Guard.deny_cuts`: what a deny does to the datagrams and to the channels that come after it
- `Guard.not_atomic`: it is not atomic
-/

namespace GuacamoleDiode

open Wire

namespace Guard

/-- The control thread completes a deny. -/
def CompletesDeny (g : Guard) (e : Event) : Prop := e = .flagTeardown ∧ g.denying = true

/-- The main loop is at its top, and exchanges the flag. -/
def Checks (g : Guard) (e : Event) : Prop :=
  ∃ order, e = .poll order ∧ g.receiving = false ∧ g.stopped = false ∧
    (g.denyTeardown = true → g.Visits order)

/-- The CREATE of a channel is received and approved. -/
def Approves (c : UInt16) (g : Guard) (e : Event) : Prop :=
  g.channelEvent e c = some (.created true)

/-- A `NONE` datagram of a channel is received and forwarded, as it is or filtered. -/
def Forwards (c : UInt16) (g : Guard) (e : Event) : Prop :=
  ∃ msg, g.received e = some msg ∧ msg.channel = c ∧ msg.action = .none ∧
    ∃ payload, Multiplexer.serialize { msg with payload := payload } ∈ (g.step e).2

/-- An approved channel is torn down by the flag. -/
def TearsDown (c : UInt16) (g : Guard) (e : Event) : Prop :=
  g.channelEvent e c = some .denied ∧ c ∈ g.approved

/-- Behind `pre` the main loop has been in its receive all the time. -/
def Underway (pre mid : List Event) : Prop :=
  ∀ m, m <+: mid → (machine.run (pre ++ m)).receiving = true

section

variable {g : Guard} {e : Event} {c : UInt16} {pre mid : List Event}

theorem Forwards.receiving (h : Forwards c g e) : g.receiving = true := by
  obtain ⟨msg, hrec, -⟩ := h
  obtain ⟨data, -, hreceiving, -⟩ := exists_datagram hrec
  exact hreceiving

theorem Forwards.cleared (h : Forwards c g e) : c ∈ g.approved := by
  obtain ⟨msg, hrec, rfl, hact, payload, hmem⟩ := h
  exact (outcome g e).cleared hrec hact (List.ne_nil_of_mem hmem)

theorem denyTeardown_of_tearsDown (h : TearsDown c g e) : g.denyTeardown = true := by
  obtain ⟨hevent, -⟩ := h
  cases e with
  | poll order =>
    simp only [channelEvent] at hevent
    split_ifs at hevent with hpoll
    exact hpoll.2.2.1
  | datagram data =>
    simp only [channelEvent] at hevent
    split at hevent
    · next msg _ =>
      split_ifs at hevent
      unfold messageEvent at hevent
      split at hevent
      all_goals first
        | cases hevent
        | (split_ifs at hevent; cases hevent)
    · cases hevent
  | _ => cases hevent

/-- A datagram does not touch the flags of the loop. -/
theorem handle_flags (g : Guard) (data : Bytes) :
    (g.handle data).1.denyTeardown = g.denyTeardown ∧ (g.handle data).1.receiving = g.receiving := by
  have hsettle : ∀ buffer msg r, (g.settle buffer msg r).1.denyTeardown = g.denyTeardown ∧
      (g.settle buffer msg r).1.receiving = g.receiving := by
    rintro buffer msg ⟨state, parser⟩
    cases state <;> exact ⟨rfl, rfl⟩
  have hrelay : ∀ buffer msg, (g.relay buffer msg).1.denyTeardown = g.denyTeardown ∧
      (g.relay buffer msg).1.receiving = g.receiving := by
    intro buffer msg
    dsimp only [relay]
    split_ifs
    · exact ⟨rfl, rfl⟩
    · exact hsettle buffer msg _
    · exact ⟨rfl, rfl⟩
  rw [handle]
  split
  · exact ⟨rfl, rfl⟩
  · next msg _ =>
    rw [dispatch]
    split
    · dsimp only [create]
      split_ifs <;> exact ⟨rfl, rfl⟩
    · exact ⟨rfl, rfl⟩
    · exact hrelay _ msg
    · exact hrelay _ msg

/-- A datagram ends the receive. -/
theorem receiving_of_forwards (h : Forwards c g e) : (g.step e).1.receiving = false := by
  obtain ⟨msg, hrec, -⟩ := h
  obtain ⟨data, rfl, hreceiving, -⟩ := exists_datagram hrec
  rw [step, if_pos hreceiving]
  exact (handle_flags _ data).2

/-- The check takes the flag, and with it every channel. -/
theorem checked (h : Checks g e) : (g.step e).1.denyTeardown = false ∧
    (g.denyTeardown = true → (g.step e).1.approved = ∅) := by
  obtain ⟨order, rfl, hreceiving, hstopped, hvisits⟩ := h
  rw [step, if_neg (by simp [hreceiving, hstopped])]
  by_cases hflag : g.denyTeardown = true
  · rw [if_pos hflag, if_pos (hvisits hflag)]
    exact ⟨rfl, fun _ => rfl⟩
  · rw [if_neg hflag]
    exact ⟨Bool.eq_false_iff.mpr hflag, fun h => absurd h hflag⟩

/-- Nothing but the check takes the flag, and nothing else starts a receive. -/
theorem unchecked (h : ¬Checks g e) :
    (g.denyTeardown = true → (g.step e).1.denyTeardown = true) ∧
      (g.receiving = false → (g.step e).1.receiving = false) := by
  cases e with
  | command raw =>
    rw [step]
    split_ifs
    · exact ⟨id, id⟩
    · split <;> exact ⟨id, id⟩
  | flagTeardown =>
    rw [step]
    split_ifs
    · exact ⟨fun _ => rfl, id⟩
    · exact ⟨id, id⟩
  | poll order =>
    rw [step]
    split_ifs with hin hflag hvisits
    · exact ⟨id, id⟩
    · rw [not_or, Bool.not_eq_true, Bool.not_eq_true] at hin
      exact absurd ⟨order, rfl, hin.1, hin.2, fun _ => hvisits⟩ h
    · exact ⟨id, id⟩
    · rw [not_or, Bool.not_eq_true, Bool.not_eq_true] at hin
      exact absurd ⟨order, rfl, hin.1, hin.2, fun hf => absurd hf hflag⟩ h
  | datagram data =>
    rw [step]
    split_ifs with hreceiving
    · refine ⟨fun hflag => ?_, fun hn => absurd hreceiving (by simp [hn])⟩
      rw [(handle_flags _ data).1]
      exact hflag
    · exact ⟨id, id⟩
  | timeout => exact ⟨id, fun _ => rfl⟩
  | stop order =>
    rw [step]
    split_ifs <;> exact ⟨id, id⟩

/-- Nothing but the second step of a deny sets the flag. -/
theorem denyTeardown_step (hflag : g.denyTeardown = false) (h : ¬CompletesDeny g e) :
    (g.step e).1.denyTeardown = false := by
  cases e with
  | command raw =>
    rw [step]
    split_ifs
    · exact hflag
    · split <;> exact hflag
  | flagTeardown =>
    have hdenying : ¬g.denying = true := fun hd => h ⟨rfl, hd⟩
    rw [step, if_neg hdenying]
    exact hflag
  | poll order =>
    by_cases hchecks : Checks g (.poll order)
    · exact (checked hchecks).1
    · rw [step]
      split_ifs with hin hf
      · exact hflag
      · exact absurd hf (by simp [hflag])
      · exact absurd hf (by simp [hflag])
      · exact hflag
  | datagram data =>
    rw [step]
    split_ifs
    · rw [(handle_flags _ data).1]
      exact hflag
    · exact hflag
  | timeout => exact hflag
  | stop order =>
    rw [step]
    split_ifs <;> exact hflag

/-- How a deny takes effect on a channel: at first the flag waits, and the loop is in the
receive that was under way or on its way to the check; behind the check only a new CREATE
brings the channel back. -/
def Cut (c : UInt16) (pre mid : List Event) : Prop :=
  ((machine.run (pre ++ mid)).denyTeardown = true ∧
    (Underway pre mid ∨ (machine.run (pre ++ mid)).receiving = false)) ∨
  (c ∈ (machine.run (pre ++ mid)).approved → machine.Sometime (Approves c) pre mid)

theorem Underway.snoc (h : Underway pre mid)
    (he : (machine.run (pre ++ (mid ++ [e]))).receiving = true) : Underway pre (mid ++ [e]) := by
  intro m hm
  rcases List.prefix_concat_iff.mp hm with rfl | hm
  · exact he
  · exact h m hm

theorem Cut.step (h : Cut c pre mid) (e : Event) : Cut c pre (mid ++ [e]) := by
  have hrun : machine.run (pre ++ (mid ++ [e])) = ((machine.run (pre ++ mid)).step e).1 := by
    rw [← List.append_assoc, Machine.run_snoc]
    rfl
  rcases h with ⟨hflag, hloop⟩ | hcreated
  · by_cases hchecks : Checks (machine.run (pre ++ mid)) e
    · right
      rw [hrun, (checked hchecks).2 hflag]
      intro hc
      cases hc
    · obtain ⟨hkeeps, hstays⟩ := unchecked hchecks
      refine .inl ⟨hrun ▸ hkeeps hflag, ?_⟩
      rcases hloop with hunderway | hreceiving
      · cases hnow : (machine.run (pre ++ (mid ++ [e]))).receiving with
        | true => exact .inl (hunderway.snoc hnow)
        | false => exact .inr rfl
      · exact .inr (hrun ▸ hstays hreceiving)
  · right
    rw [hrun]
    intro hc
    rcases (outcome _ e).approved hc with hevent | ⟨-, hc⟩
    · exact Machine.sometime_snoc_self hevent
    · exact (hcreated hc).append [e]

/-- Behind the second step of a deny. -/
theorem cut_run (hdeny : (machine.run pre).denying = true) (c : UInt16) (mid : List Event) :
    Cut c (pre ++ [.flagTeardown]) mid := by
  induction mid using List.reverseRecOn with
  | nil =>
    left
    have hflag : (machine.run (pre ++ [.flagTeardown])).denyTeardown = true := by
      rw [Machine.run_snoc]
      show ((machine.run pre).step .flagTeardown).1.denyTeardown = true
      rw [step, if_pos hdeny]
    rw [List.append_nil]
    refine ⟨hflag, ?_⟩
    cases hnow : (machine.run (pre ++ [.flagTeardown])).receiving with
    | true =>
      left
      intro m hm
      rw [List.prefix_nil.mp hm, List.append_nil]
      exact hnow
    | false => exact .inr rfl
  | append_singleton mid e ih => exact ih.step e

/-- Behind a check, the flag is set again by the next deny only. -/
theorem denied_again {check : Event} (hchecks : Checks (machine.run pre) check) (mid : List Event) :
    (machine.run (pre ++ [check] ++ mid)).denyTeardown = true →
      machine.Sometime CompletesDeny (pre ++ [check]) mid := by
  induction mid using List.reverseRecOn with
  | nil =>
    intro hflag
    rw [List.append_nil, Machine.run_snoc, show machine.step = step from rfl,
      (checked hchecks).1] at hflag
    cases hflag
  | append_singleton mid e ih =>
    intro hflag
    rw [← List.append_assoc, Machine.run_snoc, show machine.step = step from rfl] at hflag
    cases hbefore : (machine.run (pre ++ [check] ++ mid)).denyTeardown with
    | true => exact (ih hbefore).append [e]
    | false =>
      by_cases hdeny : CompletesDeny (machine.run (pre ++ [check] ++ mid)) e
      · exact Machine.sometime_snoc_self hdeny
      · rw [denyTeardown_step hbefore hdeny] at hflag
        cases hflag

end

/-- Behind both steps of a deny, a `NONE` datagram is forwarded only if a later CREATE of its
channel has been approved, or if it ends the receive that was under way when the deny
completed. And behind the next check of the flag, a channel is torn down only if another deny
has completed since. -/
theorem deny_cuts (pre mid : List Event) (e : Event) (c : UInt16)
    (hdeny : (machine.run pre).denying = true) :
    (Forwards c (machine.run (pre ++ [.flagTeardown] ++ mid)) e →
      machine.Sometime (Approves c) (pre ++ [.flagTeardown]) mid ∨
        (Underway (pre ++ [.flagTeardown]) mid ∧
          ¬Underway (pre ++ [.flagTeardown]) (mid ++ [e]))) ∧
    (TearsDown c (machine.run (pre ++ [.flagTeardown] ++ mid)) e →
      ∀ before check after, mid = before ++ check :: after →
        Checks (machine.run (pre ++ [.flagTeardown] ++ before)) check →
        machine.Sometime CompletesDeny (pre ++ [.flagTeardown] ++ before ++ [check]) after) := by
  constructor
  · intro hforwards
    rcases cut_run hdeny c mid with ⟨-, hunderway | hreceiving⟩ | hcreated
    · refine .inr ⟨hunderway, fun hstill => ?_⟩
      have hnow := hstill _ List.prefix_rfl
      rw [← List.append_assoc, Machine.run_snoc, show machine.step = step from rfl,
        receiving_of_forwards hforwards] at hnow
      cases hnow
    · rw [hforwards.receiving] at hreceiving
      cases hreceiving
    · exact .inl (hcreated hforwards.cleared)
  · rintro htears before check after rfl hchecks
    have hflag := denyTeardown_of_tearsDown htears
    rw [List.append_cons before, ← List.append_assoc, ← List.append_assoc] at hflag
    exact denied_again hchecks after hflag

/-- A deny that has completed cuts off what comes behind it. -/
def CutsOff (es : List Event) : Prop :=
  ∀ pre mid e post c, es = pre ++ [.flagTeardown] ++ mid ++ e :: post →
    (machine.run pre).denying = true →
    Forwards c (machine.run (pre ++ [.flagTeardown] ++ mid)) e →
    machine.Sometime (Approves c) (pre ++ [.flagTeardown]) mid

/-- The control thread applies an approve command. -/
def Allows (g : Guard) (e : Event) : Prop := (g.step e).1.approve = true ∧ g.approve = false

/-- A channel that is approved behind an approve command is not torn down by the deny before
it: when it is torn down, the flag of that deny has been taken before. -/
def Spares (es : List Event) : Prop :=
  ∀ pre between approve before create behind e post c,
    es = pre ++ [.flagTeardown] ++ between ++ [approve] ++ before ++ [create] ++ behind ++ e :: post →
    (machine.run pre).denying = true →
    Allows (machine.run (pre ++ [.flagTeardown] ++ between)) approve →
    Approves c (machine.run (pre ++ [.flagTeardown] ++ between ++ [approve] ++ before)) create →
    TearsDown c (machine.run
      (pre ++ [.flagTeardown] ++ between ++ [approve] ++ before ++ [create] ++ behind)) e →
    machine.Sometime Checks (pre ++ [.flagTeardown])
      (between ++ [approve] ++ before ++ [create] ++ behind)

/-- A key press on channel 1. -/
def latePress : BridgeMessage :=
  { channel := 1, payload := ascii "3.key,2.98,1.1;" }

/-- Channel 1 is approved, and the loop goes on to its receive; there a deny completes. -/
def deniedMidway : List Event :=
  turn [] request ++ [.poll [], .command (ascii "deny")]

/-- A deny and an approve while the loop is in its receive, which returns a request. -/
def approvedMidway : List Event := [.poll [], .command (ascii "deny")]

theorem forwards_deniedMidway :
    Forwards 1 (machine.run (deniedMidway ++ [.flagTeardown]))
      (.datagram (Multiplexer.serialize latePress)) :=
  ⟨latePress, by decide +kernel, rfl, rfl, latePress.payload, by decide +kernel⟩

/-- A datagram is forwarded behind a deny, and a channel is torn down by the deny that was
taken back before its request. -/
theorem not_atomic :
    ¬CutsOff (deniedMidway ++ [.flagTeardown] ++ [.datagram (Multiplexer.serialize latePress)]) ∧
    ¬Spares (approvedMidway ++ [.flagTeardown, .command (ascii "approve"),
      .datagram (Multiplexer.serialize request), .poll [1]]) := by
  constructor
  · intro h
    exact Machine.not_sometime_nil (h deniedMidway [] (.datagram (Multiplexer.serialize latePress)) [] 1
      rfl (by decide +kernel) forwards_deniedMidway)
  · intro h
    have hchecks := h approvedMidway [] (.command (ascii "approve")) []
      (.datagram (Multiplexer.serialize request)) [] (.poll [1]) [] 1 rfl (by decide +kernel)
      ⟨by decide +kernel, by decide +kernel⟩ (by unfold Approves; decide +kernel)
      ⟨by decide +kernel, by decide +kernel⟩
    obtain ⟨a, e, b, hab, order, rfl, -⟩ := hchecks
    have hmem : Event.poll order ∈
        [Event.command (ascii "approve"), .datagram (Multiplexer.serialize request)] := by
      rw [show [Event.command (ascii "approve"), .datagram (Multiplexer.serialize request)] =
        a ++ .poll order :: b from hab]
      simp
    simp at hmem

/-- The datagram that ends the receive under way is forwarded. -/
theorem deny_cuts_deniedMidway :
    machine.Sometime (Approves 1) (deniedMidway ++ [.flagTeardown]) [] ∨
      (Underway (deniedMidway ++ [.flagTeardown]) [] ∧
        ¬Underway (deniedMidway ++ [.flagTeardown])
          ([] ++ [.datagram (Multiplexer.serialize latePress)])) :=
  (deny_cuts deniedMidway [] (.datagram (Multiplexer.serialize latePress)) 1
    (by decide +kernel)).1 (by simpa using forwards_deniedMidway)

end Guard

end GuacamoleDiode
