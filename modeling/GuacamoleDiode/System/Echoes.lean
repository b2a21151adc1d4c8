import GuacamoleDiode.Gcdbroker.Echoes
import GuacamoleDiode.Gmlbroker.Announcements
import GuacamoleDiode.System.Agreement

/-!
# No echo storm

Every SHUTDOWN of gmlbroker reaches the guard at most once, the guard passes it on and adds some
of its own, and gcdbroker answers what reaches it. Nobody answers the answers, so that the
SHUTDOWNs of a run are bounded by the sessions, by what the guard has originated and by the
connections.

## Main definitions

- `Guard.originated`: the SHUTDOWNs that the guard sends, except for copies of those it receives

## Main results

- `notified_run`, `arrivals_run`: nothing is added on the links
- `shutdowns_bounded`
-/

namespace GuacamoleDiode

open Wire

open ForwardPath (heard trim heard_serialize)

namespace Guard

/-- The SHUTDOWNs that a step of the guard originates. A SHUTDOWN that it receives is passed on
as it is, and nothing else. -/
def originated (g : Guard) (e : Event) : List BridgeMessage :=
  if (g.received e).any BridgeMessage.isShutdown then []
  else ((g.step e).2.filterMap heard).filter BridgeMessage.isShutdown

theorem shutdowns_filter (msgs : List BridgeMessage) :
    (msgs.filter BridgeMessage.isShutdown).length = shutdowns msgs :=
  List.countP_eq_length_filter.symm

/-- What the guard sends is what it has received, and what it originates. -/
theorem shutdowns_step (g : Guard) (e : Event) : shutdowns ((g.step e).2.filterMap heard) =
    (g.originated e).length + shutdowns (g.received e).toList := by
  by_cases hshutdown : (g.received e).any BridgeMessage.isShutdown = true
  · rw [originated, if_pos hshutdown, List.length_nil, Nat.zero_add]
    obtain ⟨msg, hreceived, haction⟩ := (Option.any_eq_true _ _).mp hshutdown
    have hone : shutdowns (g.received e).toList = 1 := by
      rw [hreceived, Option.toList_some, shutdowns, List.countP_singleton, if_pos haction]
    have hstep : (g.step e).2 = [Multiplexer.serialize msg] := by
      have haction : msg.action = .shutdownChannel := by simpa [BridgeMessage.isShutdown] using haction
      rw [step_of_received hreceived, dispatch, haction]
      rfl
    rw [hone, hstep, List.filterMap_cons, heard_serialize]
    show shutdowns [trim msg] = 1
    rw [shutdowns, List.countP_singleton]
    exact if_pos haction
  · rw [originated, if_neg hshutdown, shutdowns_filter]
    have hnone : shutdowns (g.received e).toList = 0 := by
      cases hreceived : g.received e with
      | none => rfl
      | some msg =>
        rw [hreceived] at hshutdown
        rw [Option.toList_some, shutdowns, List.countP_singleton, if_neg (by simpa using hshutdown)]
    rw [hnone, Nat.add_zero]

end Guard

namespace Diode

/-- A datagram keeps the action of its message. -/
theorem shutdowns_heard (msgs : List BridgeMessage) :
    shutdowns ((msgs.map Multiplexer.serialize).filterMap heard) = shutdowns msgs := by
  rw [filterMap_heard_serialize, shutdowns, List.countP_map]
  rfl

/-- The messages that the guard has received. -/
def notified (ids : ℕ → ℕ → Bytes) (es : List Event) : List BridgeMessage :=
  Guard.machine.collect (fun g e => (g.received e).toList) (guardEvents ids es)

/-- The SHUTDOWNs that the guard has originated. -/
def originated (ids : ℕ → ℕ → Bytes) (es : List Event) : List BridgeMessage :=
  Guard.machine.collect Guard.originated (guardEvents ids es)

section

variable (ids : ℕ → ℕ → Bytes) (es : List Event) (e : Event)

theorem queuedMessages_snoc : Gmlbroker.queuedMessages ids (gmlEvents ids (es ++ [e])) =
    Gmlbroker.queuedMessages ids (gmlEvents ids es) ++
      (((machine ids).run es).gmlEvent e).toList.flatMap fun e' =>
        (((machine ids).run es).gml.queued e').toList := by
  rw [gml_run, Gmlbroker.queuedMessages, gmlEvents, Machine.collect_snoc,
    Machine.collect_append_toList]
  rfl

theorem notified_snoc : notified ids (es ++ [e]) = notified ids es ++
    (((machine ids).run es).guardEvent e).toList.flatMap fun e' =>
      (((machine ids).run es).guard.received e').toList := by
  rw [guard_run, notified, guardEvents, Machine.collect_snoc, Machine.collect_append_toList]
  rfl

theorem originated_snoc : originated ids (es ++ [e]) = originated ids es ++
    (((machine ids).run es).guardEvent e).toList.flatMap ((machine ids).run es).guard.originated := by
  rw [guard_run, originated, guardEvents, Machine.collect_snoc, Machine.collect_append_toList]
  rfl

theorem arrivals_snoc : Gcdbroker.arrivals (gcdEvents ids (es ++ [e])) =
    Gcdbroker.arrivals (gcdEvents ids es) ++
      (((machine ids).run es).gcdEvent e).toList.flatMap fun e' =>
        (Gcdbroker.arrival e').toList := by
  rw [Gcdbroker.arrivals, gcdEvents, Machine.collect_snoc, Machine.collect_append_toList]
  rfl

end

section

variable {s : Diode}

theorem shutdowns_ahead_stepGml (ids : ℕ → ℕ → Bytes) (e : Gmlbroker.Event) :
    shutdowns (s.stepGml ids e).ahead = shutdowns s.ahead + shutdowns (s.gml.queued e).toList := by
  have hsplit : shutdowns s.gml.sendQueue =
      shutdowns (s.gml.sending e) + shutdowns (s.gml.unsent e) := by
    rw [← shutdowns_append, Gmlbroker.sending_append_unsent]
  simp only [ahead, stepGml, Gmlbroker.sendQueue_step, Gmlbroker.transmitted_step,
    List.filterMap_append, shutdowns_append, shutdowns_heard, hsplit]
  omega

end

/-- What gmlbroker queues is received by the guard, or still on its way. -/
theorem notified_run (ids : ℕ → ℕ → Bytes) (es : List Event) :
    shutdowns (notified ids es) + shutdowns ((machine ids).run es).ahead =
      shutdowns (Gmlbroker.queuedMessages ids (gmlEvents ids es)) := by
  induction es using List.reverseRecOn with
  | nil => rfl
  | append_singleton es e ih =>
    rw [notified_snoc, queuedMessages_snoc, Machine.run_snoc, shutdowns_append, shutdowns_append,
      ← ih]
    generalize (machine ids).run es = s
    show _ + _ + shutdowns (s.step ids e).1.ahead = _
    unfold step guardEvent gmlEvent
    split_ifs with happlies
    · cases e with
      | gml e =>
        simp only [Option.toList_none, Option.toList_some, List.flatMap_nil, List.flatMap_singleton,
          shutdowns_nil, shutdowns_ahead_stepGml]
        omega
      | guard e =>
        simp only [Option.toList_none, Option.toList_some, List.flatMap_nil, List.flatMap_singleton,
          shutdowns_nil, ahead_stepGuard happlies, shutdowns_append]
        omega
      | gcd e => rfl
    · rfl

/-- What reaches gcdbroker was received by the guard, or originated by it. -/
theorem arrivals_run (ids : ℕ → ℕ → Bytes) (es : List Event) :
    shutdowns (Gcdbroker.arrivals (gcdEvents ids es)) +
        shutdowns (((machine ids).run es).toGcd.filterMap heard) =
      (originated ids es).length + shutdowns (notified ids es) := by
  induction es using List.reverseRecOn with
  | nil => rfl
  | append_singleton es e ih =>
    rw [originated_snoc, notified_snoc, arrivals_snoc, Machine.run_snoc, shutdowns_append,
      shutdowns_append, List.length_append]
    have hstep := Guard.shutdowns_step ((machine ids).run es).guard
    generalize (machine ids).run es = s at ih hstep ⊢
    show _ + _ + shutdowns ((s.step ids e).1.toGcd.filterMap heard) = _
    unfold step guardEvent gcdEvent
    split_ifs with happlies
    · cases e with
      | gml e =>
        simp only [stepGml, Option.toList_none, List.flatMap_nil, shutdowns_nil, List.length_nil]
        omega
      | guard e =>
        simp only [stepGuard, Option.toList_none, Option.toList_some, List.flatMap_nil,
          List.flatMap_singleton, shutdowns_nil, List.filterMap_append, shutdowns_append, hstep]
        omega
      | gcd e =>
        have hheard := congrArg shutdowns (heard_undelivered happlies)
        rw [shutdowns_append] at hheard
        simp only [stepGcd, Option.toList_none, Option.toList_some, List.flatMap_nil,
          List.flatMap_singleton, shutdowns_nil, List.length_nil]
        omega
    · simp only [Option.toList_none, List.flatMap_nil, shutdowns_nil, List.length_nil]
      omega

/-- A list of distinct numbers below a bound is no longer than the bound. -/
theorem length_le_of_nodup {ks : List ℕ} {n : ℕ} (h : ks.Nodup) (hlt : ∀ k ∈ ks, k < n) : ks.length ≤ n := by
  have hsub : ks ⊆ List.range n := fun k hk => List.mem_range.mpr (hlt k hk)
  simpa using (h.subperm hsub).length_le

/-- No session and no connection announces its end twice, no SHUTDOWN is announced because of a
SHUTDOWN, gcdbroker answers each SHUTDOWN that reaches it once, and so the SHUTDOWNs of all
parties are bounded. -/
theorem shutdowns_bounded (ids : ℕ → ℕ → Bytes) (es : List Event) :
    -- gmlbroker: one for each session, and none because of a SHUTDOWN
    (shutdowns (Gmlbroker.queuedMessages ids (gmlEvents ids es)) =
        (Gmlbroker.announcers ids (gmlEvents ids es)).length ∧
      (Gmlbroker.announcers ids (gmlEvents ids es)).Nodup ∧
      (∀ n ∈ Gmlbroker.announcers ids (gmlEvents ids es), n < ((machine ids).run es).gml.accepted) ∧
      ∀ e n, ((machine ids).run es).gml.announcer e = some n →
        Gmlbroker.Decided ids n (gmlEvents ids es)) ∧
    -- gcdbroker: one for each that has reached it, and one for each connection
    (shutdowns (Gcdbroker.enqueuedMessages (gcdEvents ids es)) =
        shutdowns (Gcdbroker.answered (gcdEvents ids es)) +
          (Gcdbroker.announcers (gcdEvents ids es)).length ∧
      shutdowns (Gcdbroker.answered (gcdEvents ids es)) +
          shutdowns ((machine ids).run es).gcd.unanswered =
        shutdowns (Gcdbroker.arrivals (gcdEvents ids es)) ∧
      (Gcdbroker.announcers (gcdEvents ids es)).Nodup ∧
      ∀ k ∈ Gcdbroker.announcers (gcdEvents ids es), k < ((machine ids).run es).gcd.dialed) ∧
    -- all parties
    shutdowns (Gmlbroker.queuedMessages ids (gmlEvents ids es)) + (originated ids es).length +
        shutdowns (Gcdbroker.enqueuedMessages (gcdEvents ids es)) ≤
      2 * (((machine ids).run es).gml.accepted + (originated ids es).length) +
        ((machine ids).run es).gcd.dialed := by
  have hqueued := (Gmlbroker.length_announcers ids (gmlEvents ids es)).symm
  obtain ⟨hsessions, haccepted⟩ := Gmlbroker.announcers_nodup ids (gmlEvents ids es)
  have henqueued := Gcdbroker.shutdowns_enqueued (gcdEvents ids es)
  have hanswered := Gcdbroker.answered_run (gcdEvents ids es)
  obtain ⟨hconnections, hdialed⟩ := Gcdbroker.announcers_nodup (gcdEvents ids es)
  rw [← gml_run] at haccepted
  rw [← gcd_run] at hanswered hdialed
  refine ⟨⟨hqueued, hsessions, haccepted, fun e n h => ?_⟩, ⟨henqueued, hanswered, hconnections, hdialed⟩, ?_⟩
  · rw [gml_run] at h
    exact Gmlbroker.cause_of_announcement ids _ h
  · have hnotified := notified_run ids es
    have harrivals := arrivals_run ids es
    have hS := length_le_of_nodup hsessions haccepted
    have hC := length_le_of_nodup hconnections hdialed
    omega

end Diode

end GuacamoleDiode
