import GuacamoleDiode.Gcdbroker.Turns

/-!
# Which SHUTDOWNs gcdbroker queues

The handler answers each SHUTDOWN of the bridge with one of its own, whether there is a
connection or not. Besides, the reader of a connection announces its end if it was the first
to remove the channel, which it does once.

## Main definitions

- `answers`: what the handler relays in a step
- `announcer`: the connection whose reader announces its end in a step

## Main results

- `answered_run`: one answer for each SHUTDOWN that has arrived and has been handled
- `announcers_nodup`: no connection announces its end twice
-/

namespace GuacamoleDiode

open Wire

namespace Gcdbroker

/-- The message that the handler relays in a step. -/
def answers (s : Gcdbroker) : Event → List BridgeMessage
  | .handle =>
    match s.handler with
    | .relaying msg => [msg]
    | _ => []
  | _ => []

/-- The connection whose reader announces its end in a step. -/
def announcer (s : Gcdbroker) : Event → Option ℕ
  | .read k =>
    match s.readers k with
    | some r => if r.stage = .announcing then some k else none
    | none => none
  | _ => none

/-- The message in the hands of the handler, up to its answer. -/
def SendHandler.owed : SendHandler → List BridgeMessage
  | .busy item _ => [item.msg]
  | .relaying msg => [msg]
  | _ => []

/-- The messages that have not been answered yet. -/
def unanswered (s : Gcdbroker) : List BridgeMessage := s.handler.owed ++ s.recvQueue.map Item.msg

section

variable {s : Gcdbroker} {e : Event} {k : ℕ} {item : Item}

theorem shutdowns_eq_zero {msg : BridgeMessage} (h : msg.action ≠ .shutdownChannel) :
    shutdowns [msg] = 0 := by
  simp [shutdowns, BridgeMessage.isShutdown, h]

theorem shutdowns_eq_one {msg : BridgeMessage} (h : msg.action = .shutdownChannel) :
    shutdowns [msg] = 1 := by
  simp [shutdowns, BridgeMessage.isShutdown, h]

/-- Acks are no SHUTDOWNs. -/
theorem shutdowns_ackOf (s : Gcdbroker) (e : Event) :
    shutdowns ((s.ackOf e).toList.map Item.msg) = 0 := by
  have hsync : ∀ k channel (ack : Option Bytes),
      shutdowns ((ack.map (sync k channel)).toList.map Item.msg) = 0 := by
    intro k channel ack
    cases ack <;> rfl
  unfold ackOf
  split
  · split
    · split_ifs
      · exact hsync ..
      · rfl
    · rfl
  · split
    · split
      · exact hsync ..
      · rfl
    · rfl
  · rfl

theorem shutdowns_unanswered (s : Gcdbroker) : shutdowns s.unanswered =
    shutdowns s.handler.owed + shutdowns (s.recvQueue.map Item.msg) :=
  shutdowns_append _ _

/-- Neither the handler nor the queue comes to owe more or less. -/
theorem unanswered_congr {s' : Gcdbroker} (howed : shutdowns s'.handler.owed = shutdowns s.handler.owed)
    (hqueue : s'.recvQueue = s.recvQueue) : shutdowns s'.unanswered = shutdowns s.unanswered := by
  rw [shutdowns_unanswered, shutdowns_unanswered, howed, hqueue]

/-- The handler lets go of a message that is no SHUTDOWN, or takes up its answer. -/
theorem unanswered_dispatch (hh : s.handler = .busy item .fetched) :
    shutdowns (s.dispatch item).1.unanswered = shutdowns s.unanswered := by
  have howed : s.handler.owed = [item.msg] := by
    rw [hh]
    rfl
  unfold dispatch
  split
  · next haction =>
    refine unanswered_congr ?_ rfl
    rw [howed, shutdowns_eq_zero (by simp [haction])]
    rfl
  · split_ifs
    · rfl
    · refine unanswered_congr ?_ rfl
      rw [howed]
      rfl
  · next haction =>
    refine unanswered_congr ?_ rfl
    rw [howed, shutdowns_eq_one haction]
    rfl
  · next haction =>
    split
    · refine unanswered_congr ?_ rfl
      rw [howed, shutdowns_eq_zero (by simp [haction])]
      rfl
    · refine unanswered_congr ?_ rfl
      rw [howed]
      rfl

/-- An approval is answered by an approval. -/
theorem unanswered_insert {fd : ℕ} (hh : s.handler = .busy item (.dialed fd k))
    (haction : item.msg.action = .approval) :
    shutdowns (s.insert item fd k).1.unanswered = shutdowns s.unanswered := by
  have howed : shutdowns s.handler.owed = 0 := by
    rw [hh]
    exact shutdowns_eq_zero (by simp [haction])
  unfold insert
  split
  · refine unanswered_congr ?_ rfl
    rw [howed]
    exact shutdowns_eq_zero (by simp [haction])
  · refine unanswered_congr ?_ rfl
    rw [howed]
    exact shutdowns_eq_zero (by simp [downgrade, haction])

theorem unanswered_handle (hwf : Wf s) :
    shutdowns s.handle.1.unanswered + shutdowns (s.answers .handle) = shutdowns s.unanswered := by
  cases hh : s.handler with
  | waiting =>
    simp only [handle, answers, hh]
    cases hqueue : s.recvQueue with
    | nil => rfl
    | cons item rest =>
      rw [shutdowns_unanswered, shutdowns_unanswered, hh, hqueue]
      show shutdowns [item.msg] + shutdowns (rest.map Item.msg) + 0 =
        0 + shutdowns (item.msg :: rest.map Item.msg)
      rw [shutdowns_cons item.msg, shutdowns_nil, Nat.zero_add, Nat.add_zero, Nat.add_zero,
        shutdowns_cons item.msg (rest.map Item.msg)]
  | busy item stage =>
    cases stage with
    | fetched =>
      simp only [handle, answers, hh]
      exact unanswered_dispatch hh
    | dialed fd k =>
      simp only [handle, answers, hh]
      exact unanswered_insert hh (hwf.fresh item fd k hh).1.1
    | routed fd =>
      simp only [handle, answers, hh]
      rfl
  | relaying msg =>
    simp only [handle, answers, hh]
    rw [shutdowns_unanswered, shutdowns_unanswered, hh]
    show 0 + shutdowns (s.recvQueue.map Item.msg) + shutdowns [msg] =
      shutdowns [msg] + shutdowns (s.recvQueue.map Item.msg)
    omega
  | failed c =>
    simp only [handle, answers, hh]
    refine unanswered_congr ?_ rfl
    rw [hh]
    rfl

theorem unanswered_dial (fd : Option ℕ) :
    shutdowns (s.dial fd).1.unanswered = shutdowns s.unanswered := by
  unfold dial
  split
  · next item hh =>
    have howed : s.handler.owed = [item.msg] := by
      rw [hh]
      rfl
    split_ifs with happroves
    · split
      · refine unanswered_congr ?_ rfl
        rw [howed, shutdowns_eq_zero (by simp [happroves.1])]
        exact shutdowns_eq_zero (by simp [downgrade, happroves.1])
      · split_ifs
        · refine unanswered_congr ?_ rfl
          rw [howed]
          rfl
        · rfl
    · rfl
  · rfl

theorem unanswered_send (hwf : Wf s) (taken : ℕ) :
    shutdowns (s.send taken).1.unanswered = shutdowns s.unanswered := by
  unfold send
  split
  · next item fd hh =>
    have howed : shutdowns s.handler.owed = 0 := by
      rw [hh]
      exact shutdowns_eq_zero (by simp [(hwf.routed item fd hh).1])
    split
    · refine unanswered_congr ?_ rfl
      rw [howed]
      dsimp only
      split_ifs <;> rfl
    · refine unanswered_congr ?_ rfl
      rw [howed]
      dsimp only
      split_ifs <;> rfl
  · rfl

/-- What arrives is to be answered, until it has been. -/
theorem unanswered_step (hwf : Wf s) (e : Event) :
    shutdowns (s.step e).1.unanswered + shutdowns (s.answers e) =
      shutdowns s.unanswered + shutdowns (arrival e).toList := by
  have hack := shutdowns_ackOf s
  unfold step
  cases e with
  | datagram data =>
    dsimp only [answers]
    cases arrival (.datagram data) with
    | none => rfl
    | some msg => simp [unanswered, Nat.add_assoc]
  | handle => exact unanswered_handle hwf
  | dial fd => exact congrArg (· + 0) (unanswered_dial fd)
  | send taken => exact congrArg (· + 0) (unanswered_send hwf taken)
  | receive k data due =>
    dsimp only [answers, receive]
    repeat' split
    all_goals rfl
  | timeout k due =>
    simp only [answers, unanswered, arrival, List.map_append, shutdowns_append, hack, shutdowns_nil,
      Option.toList_none, Nat.add_zero]
  | read k =>
    dsimp only [answers, arrival]
    split
    · rfl
    · next r _ =>
      unfold read
      split
      · rfl
      · simp only [unanswered, List.map_append, shutdowns_append, hack, shutdowns_nil,
          Option.toList_none, Nat.add_zero]
      · rfl
      · rfl
      · rfl
  | transmit =>
    dsimp only [answers, arrival]
    split <;> rfl

end

/-- The messages that have arrived from the bridge. -/
def arrivals (es : List Event) : List BridgeMessage :=
  machine.collect (fun _ e => (arrival e).toList) es

/-- The messages that the handler has relayed. -/
def answered (es : List Event) : List BridgeMessage := machine.collect answers es

/-- The messages that have been queued for the return path. -/
def enqueuedMessages (es : List Event) : List BridgeMessage := machine.collect enqueued es

/-- The handler relays exactly one SHUTDOWN for each one that it has taken up. -/
theorem answered_run (es : List Event) :
    shutdowns (answered es) + shutdowns (machine.run es).unanswered = shutdowns (arrivals es) := by
  induction es using List.reverseRecOn with
  | nil => rfl
  | append_singleton es e ih =>
    have hstep : shutdowns (machine.step (machine.run es) e).1.unanswered +
        shutdowns ((machine.run es).answers e) =
          shutdowns (machine.run es).unanswered + shutdowns (arrival e).toList :=
      unanswered_step (wf_run es) e
    rw [answered, arrivals, Machine.collect_snoc, Machine.collect_snoc, Machine.run_snoc,
      shutdowns_append, shutdowns_append]
    rw [answered, arrivals] at ih
    omega

-- ═══════════════════════════════════════════════════════════════════════════
-- The readers
-- ═══════════════════════════════════════════════════════════════════════════

/-- The connections whose readers have announced their end, in order. -/
def announcers (es : List Event) : List ℕ :=
  machine.collect (fun s e => (s.announcer e).toList) es

/-- The reader of a connection has announced its end, or is past that. -/
structure Silent (s : Gcdbroker) (k : ℕ) : Prop where
  dialed : k < s.dialed
  reader : ∀ r, s.readers k = some r → r.stage = .closing
  fresh : ∀ item fd, s.handler ≠ .busy item (.dialed fd k)

section

variable {s : Gcdbroker} {e : Event} {k : ℕ}

theorem exists_of_announcer (h : s.announcer e = some k) :
    ∃ r, e = .read k ∧ s.readers k = some r ∧ r.stage = .announcing := by
  unfold announcer at h
  split at h
  · next k' =>
    split at h
    · next r hr =>
      split_ifs at h with hstage
      cases h
      exact ⟨r, rfl, hr, hstage⟩
    · cases h
  · cases h

theorem Silent.step (h : Silent s k) (e : Event) : Silent (s.step e).1 k := by
  have hdials := dials_step s e
  refine ⟨h.dialed.trans_le hdials.le, ?_, fun item fd hh => ?_⟩
  · have hother : ∀ {k' r}, s.readers k' = some r → r.stage ≠ .closing → k ≠ k' := by
      rintro k' r hr hstage rfl
      exact hstage (h.reader r hr)
    intro r hr
    have hturn := turn s e
    generalize (s.step e).1 = s', s.enqueued e = msgs at hturn hr
    cases hturn with
    | bind _ item fd k' hh _ _ hreaders =>
      have hne : k ≠ k' := by
        rintro rfl
        exact h.fresh item fd hh
      rw [hreaders, Function.update_of_ne hne] at hr
      exact h.reader r hr
    | work k' r₀ r' hr₀ _ hreaders _ hlisted =>
      have hne : k ≠ k' := hother hr₀ fun hstage => by
        rw [hstage] at hlisted
        exact hlisted.1
      rw [hreaders, Function.update_of_ne hne] at hr
      exact h.reader r hr
    | leave k' r₀ hr₀ hstage _ hreaders =>
      have hne : k ≠ k' := hother hr₀ (by simp [hstage])
      rw [hreaders, Function.update_of_ne hne] at hr
      exact h.reader r hr
    | announce k' r₀ hr₀ hstage _ hreaders =>
      have hne : k ≠ k' := hother hr₀ (by simp [hstage])
      rw [hreaders, Function.update_of_ne hne] at hr
      exact h.reader r hr
    | close k' _ r₀ hr₀ hstage _ hreaders =>
      rw [hreaders] at hr
      exact h.reader r (Table.of_update_none hr).2
    | other _ hreaders => exact h.reader r (hreaders ▸ hr)
    | shut _ _ _ _ hreaders => exact h.reader r (hreaders ▸ hr)
    | relay _ _ _ hreaders => exact h.reader r (hreaders ▸ hr)
    | fail _ _ _ _ hreaders => exact h.reader r (hreaders ▸ hr)
  · cases hdials with
    | same _ hsame => exact h.fresh item fd ((hsame item fd k hh).symm.trans hh)
    | next item' fd' _ hnext =>
      cases hnext.symm.trans hh
      exact absurd h.dialed (Nat.lt_irrefl _)

/-- A reader that announces the end of its connection does not do so again. -/
theorem silent_of_announcer (hwf : Wf s) (h : s.announcer e = some k) :
    Silent (s.step e).1 k := by
  obtain ⟨r, rfl, hr, hstage⟩ := exists_of_announcer h
  have hstep : (s.step (.read k)).1 =
      { s with
        sendQueue := s.sendQueue ++ [{ channel := r.channel, action := .shutdownChannel }]
        readers := Function.update s.readers k (some { r with stage := .closing }) } := by
    simp only [Gcdbroker.step, hr, read, hstage]
  rw [hstep]
  refine ⟨(hwf.owner k r hr).2, fun r' hr' => ?_, fun item fd hh => ?_⟩
  · dsimp only at hr'
    rw [Function.update_self] at hr'
    cases hr'
    rfl
  · have hnone := (hwf.fresh item fd k hh).2.2.1
    rw [hr] at hnone
    cases hnone

end

/-- No connection announces its end twice, and only dialed connections do. -/
theorem announcers_nodup (es : List Event) :
    (announcers es).Nodup ∧ ∀ k ∈ announcers es, k < (machine.run es).dialed := by
  have hsilent : (announcers es).Nodup ∧ ∀ k ∈ announcers es, Silent (machine.run es) k := by
    refine Machine.invariant (M := machine)
      (P := fun es s => (announcers es).Nodup ∧ ∀ k ∈ announcers es, Silent s k) ?_
      (fun es e h => ?_) es
    · exact ⟨List.nodup_nil, by simp [announcers]⟩
    · obtain ⟨hnodup, hall⟩ := h
      rw [announcers, Machine.collect_snoc]
      cases hann : (machine.run es).announcer e with
      | none =>
        rw [Option.toList_none, List.append_nil]
        exact ⟨hnodup, fun k hk => (hall k hk).step e⟩
      | some k =>
        obtain ⟨r, -, hr, hstage⟩ := exists_of_announcer hann
        refine ⟨?_, fun k' hk' => ?_⟩
        · rw [Option.toList_some, List.nodup_append]
          refine ⟨hnodup, by simp, ?_⟩
          rintro k₁ hk₁ k₂ hk₂ rfl
          have hclosing := (hall k₁ hk₁).reader r (List.mem_singleton.mp hk₂ ▸ hr)
          rw [hstage] at hclosing
          cases hclosing
        · rcases List.mem_append.mp hk' with hk' | hk'
          · exact (hall k' hk').step e
          · obtain rfl : k' = k := by simpa using hk'
            exact silent_of_announcer (wf_run es) hann
  exact ⟨hsilent.1, fun k hk => (hsilent.2 k hk).dialed⟩

/-- Every SHUTDOWN that is queued is an answer, or has its announcer. -/
theorem shutdowns_enqueued (es : List Event) : shutdowns (enqueuedMessages es) =
    shutdowns (answered es) + (announcers es).length := by
  induction es using List.reverseRecOn with
  | nil => rfl
  | append_singleton es e ih =>
    have hstep : shutdowns ((machine.run es).enqueued e) =
        shutdowns ((machine.run es).answers e) + ((machine.run es).announcer e).toList.length := by
      cases e with
      | handle => rfl
      | receive k data due =>
        dsimp only [enqueued, answers, announcer]
        split
        · split_ifs <;> rfl
        · rfl
      | read k =>
        dsimp only [enqueued, answers, announcer]
        cases (machine.run es).readers k with
        | none => rfl
        | some r =>
          dsimp only
          split_ifs <;> rfl
      | _ => rfl
    rw [enqueuedMessages, answered, announcers, Machine.collect_snoc, Machine.collect_snoc,
      Machine.collect_snoc, shutdowns_append, shutdowns_append, List.length_append, hstep]
    rw [enqueuedMessages, answered, announcers] at ih
    omega

end Gcdbroker

end GuacamoleDiode
