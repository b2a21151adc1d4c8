import GuacamoleDiode.System.Agreement
import GuacamoleDiode.System.Coupling

/-!
# Channels that the guard does not approve

Whatever arrives at the guard, a channel that gcdbroker still serves although the guard does not
approve it is about to be closed: a SHUTDOWN for it is on its way. This also covers the end of the
guard, which takes back all approvals.

## Main definitions

- `ForwardPath.coming`: the messages of the guard that gcdbroker has not dealt with
- `ForwardPath.served`: whether gcdbroker serves a channel behind some messages

## Main results

- `ForwardPath.shutdown_coming`
- `ForwardPath.approved_of_settled`
-/

namespace GuacamoleDiode

open Wire

namespace ForwardPath

open Gcdbroker (Approves Move Ledger IsAck Item bridgeOf additions)

/-- The messages of the guard that gcdbroker has not dealt with. -/
def coming (s : ForwardPath) : List BridgeMessage :=
  (bridgeOf s.broker.router.pending).map Item.msg ++ s.link.filterMap fun d => heard d.1

/-- Whether a channel can be served behind a message. -/
def served (c : UInt16) (live : Bool) (msg : BridgeMessage) : Bool :=
  if msg.channel ≠ c then live
  else if msg.action = .shutdownChannel then false
  else if Approves msg then true
  else live

section

variable {c : UInt16} {live : Bool} {msg : BridgeMessage} {msgs msgs' : List BridgeMessage}

theorem served_of_ne (h : msg.channel ≠ c) : served c live msg = live := if_pos h

theorem served_shutdown (h : msg.channel = c) (haction : msg.action = .shutdownChannel) :
    served c live msg = false := by
  rw [served, if_neg (not_not_intro h), if_pos haction]

/-- A message that closes nothing. -/
theorem le_served (haction : msg.action ≠ .shutdownChannel) : live ≤ served c live msg := by
  unfold served
  split_ifs
  · exact le_rfl
  · exact Bool.le_true _
  · exact le_rfl

/-- The buffer of the receiver does not matter. -/
theorem served_trim : served c live (trim msg) = served c live msg := by
  have happroves : Approves (trim msg) ↔ Approves msg := approves_trim
  simp only [served, happroves]
  rfl

theorem foldl_trim : (msgs.map trim).foldl (served c) live = msgs.foldl (served c) live := by
  rw [List.foldl_map]
  congr 1
  funext live msg
  exact served_trim

/-- What is not served behind some messages is not served either if it has not been before. -/
theorem foldl_served_mono {live' : Bool} (hle : live' ≤ live) (h : msgs.foldl (served c) live = false) :
    msgs.foldl (served c) live' = false := by
  induction msgs generalizing live live' with
  | nil => exact Bool.eq_false_of_le_false (h ▸ hle)
  | cons msg msgs ih =>
    refine ih ?_ h
    unfold served
    split_ifs
    · exact hle
    · exact le_rfl
    · exact le_rfl
    · exact hle

/-- Whatever stops being served has been shut down. -/
theorem exists_shutdown (h : msgs.foldl (served c) true = false) :
    ∃ msg ∈ msgs, msg.channel = c ∧ msg.action = .shutdownChannel := by
  induction msgs with
  | nil => cases h
  | cons msg msgs ih =>
    by_cases hmsg : msg.channel = c ∧ msg.action = .shutdownChannel
    · exact ⟨msg, List.mem_cons_self, hmsg⟩
    · have hlive : served c true msg = true := by
        unfold served
        split_ifs with hchannel haction
        · rfl
        · exact absurd ⟨not_not.mp hchannel, haction⟩ hmsg
        · rfl
        · rfl
      rw [List.foldl_cons, hlive] at h
      obtain ⟨msg', hmem, hshut⟩ := ih h
      exact ⟨msg', List.mem_cons_of_mem _ hmem, hshut⟩

/-- Messages that do not concern the channel. -/
theorem foldl_of_ne (h : ∀ msg ∈ msgs, msg.channel ≠ c) : msgs.foldl (served c) live = live := by
  induction msgs with
  | nil => rfl
  | cons msg msgs ih =>
    rw [List.foldl_cons, served_of_ne (h msg List.mem_cons_self),
      ih fun m hm => h m (List.mem_cons_of_mem _ hm)]

theorem foldl_shutdowns {order : List UInt16} (h : c ∈ order ∨ live = false) :
    (order.map fun d => ({ channel := d, action := .shutdownChannel } : BridgeMessage)).foldl
      (served c) live = false := by
  induction order generalizing live with
  | nil => exact h.resolve_left (List.not_mem_nil)
  | cons d order ih =>
    rw [List.map_cons, List.foldl_cons]
    by_cases hd : d = c
    · exact ih (.inr (served_shutdown hd rfl))
    · rw [served_of_ne hd]
      refine ih (h.imp_left fun hmem => ?_)
      exact (List.mem_cons.mp hmem).resolve_left (Ne.symm hd)

/-- A message that closes its channel comes last. -/
theorem foldl_closing {closing : BridgeMessage} (haction : closing.action = .shutdownChannel)
    (hmsgs : ∀ msg ∈ msgs, msg.channel = closing.channel) (hlive : c ≠ closing.channel → live = false) :
    (msgs ++ [closing]).foldl (served c) live = false := by
  rw [List.foldl_append]
  by_cases hc : closing.channel = c
  · exact served_shutdown hc haction
  · have hbefore : msgs.foldl (served c) live = live := foldl_of_ne fun msg hmsg => hmsgs msg hmsg ▸ hc
    rw [hbefore]
    exact (served_of_ne hc).trans (hlive (Ne.symm hc))

/-- The guard leaves no channel to gcdbroker that it does not approve. -/
theorem foldl_outcome {g g' : Guard} {e : Guard.Event} {out : List Bytes} (h : Guard.Outcome g e g' out)
    (hc : c ∉ g'.approved) (hlive : c ∉ g.approved → live = false) :
    ∃ msgs : List BridgeMessage, out = msgs.map Multiplexer.serialize ∧
      msgs.foldl (served c) live = false := by
  have herased : ∀ d, g'.approved = g.approved.erase d → c ≠ d → live = false := by
    intro d happroved hne
    refine hlive fun hmem => hc ?_
    rw [happroved]
    exact Finset.mem_erase.mpr ⟨hne, hmem⟩
  have hall : ∀ order, g.Visits order → c ∈ order ∨ live = false := by
    intro order hvisits
    by_cases hmem : c ∈ g.approved
    · rw [← hvisits.2, List.mem_toFinset] at hmem
      exact .inl hmem
    · exact .inr (hlive hmem)
  cases h with
  | quiet _ _ happroved => exact ⟨[], rfl, hlive (happroved ▸ hc)⟩
  | approvedCreate msg _ _ _ _ _ _ happroved =>
    rw [happroved, Finset.mem_insert, Finset.mem_erase, not_or, not_and] at hc
    refine ⟨[msg, g.approvalFor msg], rfl, ?_⟩
    rw [foldl_of_ne]
    · exact hlive (hc.2 hc.1)
    · intro m hm
      rcases List.mem_pair.mp hm with rfl | rfl
      · exact Ne.symm hc.1
      · exact Ne.symm hc.1
  | deniedCreate msg _ _ _ _ _ _ happroved =>
    refine ⟨[msg, g.approvalFor msg] ++ [{ channel := msg.channel, action := .shutdownChannel }], rfl,
      foldl_closing rfl (fun m hm => ?_) (herased _ happroved)⟩
    rcases List.mem_pair.mp hm with rfl | rfl
    · rfl
    · rfl
  | closed msg _ haction _ _ happroved =>
    exact ⟨[] ++ [msg], rfl, foldl_closing haction (by simp) (herased _ happroved)⟩
  | corrupted msg _ _ _ _ _ _ happroved =>
    exact ⟨[] ++ [{ channel := msg.channel, action := .shutdownChannel }], rfl,
      foldl_closing rfl (by simp) (herased _ happroved)⟩
  | relayed msg payload parser _ _ hcleared _ _ _ happroved _ hemitted =>
    have hne : msg.channel ≠ c := by
      rintro rfl
      exact hc (happroved ▸ hcleared)
    rcases hemitted with rfl | ⟨rfl, -⟩
    · refine ⟨[{ msg with payload := payload }], rfl, ?_⟩
      rw [foldl_of_ne (by simpa using hne)]
      exact hlive (happroved ▸ hc)
    · exact ⟨[], rfl, hlive (happroved ▸ hc)⟩
  | tornDown order _ hvisits =>
    exact ⟨_, by simp [Guard.shutdown], foldl_shutdowns (hall order hvisits)⟩
  | halted order _ hvisits =>
    exact ⟨_, by simp [Guard.shutdown], foldl_shutdowns (hall order hvisits)⟩

end

-- ════════════════════════════════════════════════════════════════════════
-- Whole runs
-- ════════════════════════════════════════════════════════════════════════

/-- A channel that the guard does not approve is not served behind what is on its way. -/
def Withdrawn (s : ForwardPath) : Prop :=
  ∀ c ∉ s.guard.approved, s.coming.foldl (served c) (s.broker.router.bound c).isSome = false

section

variable {s s' : ForwardPath} {c : UInt16} {live : Bool}

/-- What a move of the router makes of a channel. -/
theorem foldl_move {refused : Prop} {r r' : Gcdbroker.Router} {ms msgs : List BridgeMessage}
    {out out' : List Gcdbroker.Routed} {pushed : List Item} (hmove : Move refused r r' pushed out')
    (hledger : Ledger ms out r)
    (h : ((bridgeOf (r.pending ++ pushed)).map Item.msg ++ msgs).foldl (served c) (r.bound c).isSome = false) :
    ((bridgeOf r'.pending).map Item.msg ++ msgs).foldl (served c) (r'.bound c).isSome = false := by
  have hshrinks : Gcdbroker.Shrinks r.bound r'.bound → (r'.bound c).isSome ≤ (r.bound c).isSome := by
    intro hshrinks
    cases hbound : r'.bound c with
    | none => exact Bool.false_le _
    | some k => rw [hshrinks c k hbound]
  -- an item that is taken off the queue changes the channel at most as its message says
  have hpop : ∀ item rest, r.pending = item :: rest → pushed = [] →
      ((r'.bound c).isSome ≤ (r.bound c).isSome ∧ item.msg.action ≠ .shutdownChannel ∨
        (∃ n, item.origin = .bridge n) ∧ (r'.bound c).isSome ≤ served c (r.bound c).isSome item.msg) →
      ((bridgeOf rest).map Item.msg ++ msgs).foldl (served c) (r'.bound c).isSome = false := by
    rintro item rest hpending rfl hstep
    rw [hpending, List.append_nil] at h
    cases horigin : item.origin with
    | reader k =>
      rw [Gcdbroker.bridgeOf_cons_reader horigin] at h
      refine foldl_served_mono ?_ h
      rcases hstep with ⟨hle, -⟩ | ⟨⟨n, hn⟩, -⟩
      · exact hle
      · cases horigin.symm.trans hn
    | bridge n =>
      rw [Gcdbroker.bridgeOf_cons_bridge horigin, List.map_cons, List.cons_append, List.foldl_cons] at h
      refine foldl_served_mono ?_ h
      rcases hstep with ⟨hle, haction⟩ | ⟨-, hle⟩
      · exact hle.trans (le_served haction)
      · exact hle
  cases hmove with
  | push hpending hbound =>
    rw [hpending]
    exact foldl_served_mono (hshrinks hbound) h
  | drop item hpending haction _ _ hbound =>
    exact hpop item _ hpending rfl (.inl ⟨hshrinks hbound, haction⟩)
  | bind item k hpending happroves hunbound hbound =>
    refine hpop item _ hpending rfl (.inr ⟨hledger.origin_of_approves hpending happroves, ?_⟩)
    rw [hbound]
    by_cases hc : item.msg.channel = c
    · simp [served, hc, happroves, happroves.1]
    · rw [served_of_ne hc, Function.update_of_ne (Ne.symm hc)]
  | shut item hpending haction hbound =>
    have horigin : ∃ n, item.origin = .bridge n := by
      cases horigin : item.origin with
      | bridge n => exact ⟨n, rfl⟩
      | reader k =>
        have hack := (hledger.acks item (hpending ▸ List.mem_cons_self) k horigin).1
        cases hack.symm.trans haction
    refine hpop item _ hpending rfl (.inr ⟨horigin, ?_⟩)
    rw [hbound]
    by_cases hc : item.msg.channel = c
    · rw [served_shutdown hc haction, hc, Function.update_self]
      exact le_rfl
    · rw [served_of_ne hc, Function.update_of_ne (Ne.symm hc)]
  | write item k data hpending haction _ _ _ hbound =>
    refine hpop item _ hpending rfl (.inl ⟨hshrinks hbound, ?_⟩)
    simp [haction]

/-- What the guard sends joins what is on its way. -/
theorem withdrawn_guard (h : Withdrawn s) (e : Guard.Event) : Withdrawn (s.step (.guard e)).1 := by
  intro c hc
  have hcoming : (s.step (.guard e)).1.coming = s.coming ++ (s.guard.step e).2.filterMap heard := by
    simp only [step, forward, coming, List.filterMap_append, List.filterMap_map, Function.comp_def,
      List.append_assoc]
  have hbefore : c ∉ s.guard.approved →
      s.coming.foldl (served c) (s.broker.router.bound c).isSome = false := h c
  obtain ⟨msgs, hout, hclosed⟩ := foldl_outcome (Guard.outcome s.guard e) hc hbefore
  rw [hcoming, List.foldl_append, hout, Diode.filterMap_heard_serialize, foldl_trim]
  exact hclosed

/-- What arrives at gcdbroker was the oldest message on the link. -/
theorem coming_broker {e : Event} {be : Gcdbroker.Event} (ms : List BridgeMessage) {ack : Option Item}
    (hbe : s.brokerEvent e = some be) (hack : ∀ item ∈ ack, IsAck item) :
    s.coming = (bridgeOf (s.broker.router.pending ++
        additions ms (Gcdbroker.arrival be) ack)).map Item.msg ++
      (s.step e).1.link.filterMap (fun d => heard d.1) ∧ (s.step e).1.guard = s.guard := by
  have hnew : (bridgeOf (additions ms (Gcdbroker.arrival be) ack)).map Item.msg =
      (Gcdbroker.arrival be).toList := by
    rw [Gcdbroker.bridgeOf_additions ms _ hack]
    cases Gcdbroker.arrival be <;> rfl
  rw [Gcdbroker.bridgeOf_append, List.map_append, hnew, List.append_assoc, coming]
  cases e with
  | guard e => cases hbe
  | deliver =>
    simp only [brokerEvent, Option.map_eq_some_iff, List.head?_eq_some_iff] at hbe
    obtain ⟨⟨d, g⟩, ⟨rest, hlink⟩, rfl⟩ := hbe
    have harrival : Gcdbroker.arrival (.datagram d) = heard d := rfl
    simp only [step, hlink, harrival, List.filterMap_cons, and_true]
    cases heard d <;> rfl
  | broker e =>
    have harrival : Gcdbroker.arrival be = none := by
      cases e <;> simp [brokerEvent] at hbe <;> subst hbe <;> rfl
    simp only [step, hbe, harrival, Option.toList_none, List.nil_append, and_self]

/-- A step of gcdbroker. -/
theorem withdrawn_broker {es : List Event} {e : Event} {be : Gcdbroker.Event}
    (h : Withdrawn (machine.run es)) (hbe : (machine.run es).brokerEvent e = some be) :
    Withdrawn ((machine.run es).step e).1 := by
  obtain ⟨hmove, hack⟩ := broker_move hbe
  obtain ⟨hcoming, hguard⟩ := coming_broker (Gcdbroker.delivered (brokerEvents es)) hbe hack
  intro c hc
  rw [hguard] at hc
  have hbefore := h c hc
  rw [hcoming] at hbefore
  exact foldl_move hmove (ledger_run es) hbefore

theorem withdrawn_run (es : List Event) : Withdrawn (machine.run es) := by
  refine Machine.invariant (P := fun _ s => Withdrawn s) (fun c _ => ?_) (fun es e h => ?_) es
  · simp [coming, machine, Gcdbroker.router, Gcdbroker.SendHandler.held, Gcdbroker.bound, Gcdbroker.lookup,
      Gcdbroker.bridgeOf]
  · cases hbe : (machine.run es).brokerEvent e with
    | some be => exact withdrawn_broker h hbe
    | none =>
      cases e with
      | guard e => exact withdrawn_guard h e
      | deliver =>
        cases hlink : (machine.run es).link with
        | nil =>
          show Withdrawn ((machine.run es).step .deliver).1
          simp only [step, hlink]
          exact h
        | cons d rest => simp [brokerEvent, hlink] at hbe
      | broker e =>
        show Withdrawn ((machine.run es).step (.broker e)).1
        simp only [step, hbe]
        exact h

/-- Whatever arrives at the guard, and in whatever order the steps are taken, a channel that
gcdbroker serves and that the guard does not approve is about to be shut down: a SHUTDOWN for it
is on the link or in the hands of gcdbroker. -/
theorem shutdown_coming (es : List Event) {c : UInt16} {k : ℕ}
    (hbound : (machine.run es).broker.router.bound c = some k) (hc : c ∉ (machine.run es).guard.approved) :
    ∃ msg ∈ (machine.run es).coming, msg.channel = c ∧ msg.action = .shutdownChannel := by
  have hwithdrawn := withdrawn_run es c hc
  rw [hbound] at hwithdrawn
  exact exists_shutdown hwithdrawn

/-- The session of channel 1 ends; its SHUTDOWN has passed the guard. -/
def closingRun : List Event :=
  plainRun ++ arriving { channel := 1, action := .shutdownChannel }

/-- gcdbroker still serves channel 1, and the SHUTDOWN is on the link. -/
theorem shutdown_coming_closingRun :
    (machine.run closingRun).broker.router.bound 1 = some 0 ∧
      ∃ msg ∈ (machine.run closingRun).coming, msg.channel = 1 ∧ msg.action = .shutdownChannel := by
  have hbound : (machine.run closingRun).broker.router.bound 1 = some 0 := by decide +kernel
  exact ⟨hbound, shutdown_coming closingRun hbound (by decide +kernel)⟩

/-- When everything has arrived that the guard has sent and gcdbroker has dealt with it, then
gcdbroker serves channels only that the guard approves; after the end of the guard, none. -/
theorem approved_of_settled (es : List Event) (hcoming : (machine.run es).coming = []) :
    (∀ c k, (machine.run es).broker.router.bound c = some k → c ∈ (machine.run es).guard.approved) ∧
      ((machine.run es).guard.approved = ∅ → ∀ c, (machine.run es).broker.router.bound c = none) := by
  have hserved : ∀ c k, (machine.run es).broker.router.bound c = some k →
      c ∈ (machine.run es).guard.approved := by
    intro c k hbound
    by_contra hc
    have hwithdrawn := withdrawn_run es c hc
    rw [hbound] at hwithdrawn
    obtain ⟨msg, hmsg, -⟩ := exists_shutdown hwithdrawn
    rw [hcoming] at hmsg
    cases hmsg
  refine ⟨hserved, fun hempty c => ?_⟩
  cases hbound : (machine.run es).broker.router.bound c with
  | none => rfl
  | some k =>
    have hmem := hserved c k hbound
    rw [hempty] at hmem
    cases hmem

/-- Channel 1 is used and nothing is on its way. -/
theorem approved_of_settled_plainRun :
    (machine.run plainRun).broker.router.bound 1 = some 0 ∧ 1 ∈ (machine.run plainRun).guard.approved := by
  have hbound : (machine.run plainRun).broker.router.bound 1 = some 0 := by decide +kernel
  exact ⟨hbound, (approved_of_settled plainRun (by decide +kernel)).1 1 0 hbound⟩

end

end ForwardPath

end GuacamoleDiode
