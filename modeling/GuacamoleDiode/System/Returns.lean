import GuacamoleDiode.Gmlbroker.Receipts
import GuacamoleDiode.System.Tenants

/-!
# The way back

What the readers of gcdbroker take from guacd comes back to gmlbroker in order. If no channel is
given out twice, a session hears what its own connection has read and nothing else, and all of it
until its reader removes the mailbox.

## Main definitions

- `homeward`: the messages on their way back to the handler of gmlbroker
- `output`: what the reader of a connection has taken from guacd
- `shown`: the payload that has been taken up for a session

## Main results

- `taken_homeward`: the payload on a channel is taken up in the order in which it has been read
- `returns_own`
-/

namespace GuacamoleDiode

open Wire

namespace Diode

open ForwardPath (heard trim)

/-- The messages on their way back to the handler of gmlbroker, as it will take them up. -/
def homeward (s : Diode) : List BridgeMessage :=
  s.gml.landed ++ s.toGml.filterMap heard ++ s.gcd.sendQueue.map trim

/-- What the reader of a connection has taken from guacd. -/
def output (ids : ℕ → ℕ → Bytes) (es : List Event) (k : ℕ) : List Bytes :=
  Gcdbroker.machine.collect (Gcdbroker.reads k) (gcdEvents ids es)

/-- The payload of the bridge that the handler of gmlbroker has taken up for a session. -/
def shown (ids : ℕ → ℕ → Bytes) (es : List Event) (n : ℕ) : List Bytes :=
  (Gmlbroker.machine ids).collect (Gmlbroker.hears n) (gmlEvents ids es)

/-- The payload on a channel that the handler of gmlbroker has taken up. -/
def taken (ids : ℕ → ℕ → Bytes) (es : List Event) (c : UInt16) : List Bytes :=
  (Gmlbroker.machine ids).collect (fun s e => payloadsOn c (s.taking e)) (gmlEvents ids es)

/-- The payload on a channel that gcdbroker has queued. -/
def returned (ids : ℕ → ℕ → Bytes) (es : List Event) (c : UInt16) : List Bytes :=
  Gcdbroker.machine.collect (fun s e => payloadsOn c (s.enqueued e)) (gcdEvents ids es)

section

variable {ids : ℕ → ℕ → Bytes} {s : Diode} {es : List Event} {e : Event} {user : ℕ → ℕ} {n k : ℕ}
  {c : UInt16}

-- ════════════════════════════════════════════════════════════════════════
-- The messages on their way
-- ════════════════════════════════════════════════════════════════════════

/-- What gmlbroker receives was the oldest datagram on its link. -/
theorem heard_undelivered_gml {e : Gmlbroker.Event} (happlies : s.applies (.gml e) = true) :
    s.toGml.filterMap heard = (Gmlbroker.arrival e).toList ++
      (Gmlbroker.undelivered s.toGml e).filterMap heard := by
  cases e with
  | datagram data =>
    simp only [applies, beq_iff_eq] at happlies
    obtain ⟨rest, hlink⟩ := List.head?_eq_some_iff.mp happlies
    have harrival : Gmlbroker.arrival (.datagram data) = heard data := rfl
    simp only [Gmlbroker.undelivered, hlink, List.tail_cons, List.filterMap_cons, harrival]
    cases heard data <;> rfl
  | _ => rfl

theorem homeward_stepGml (ids : ℕ → ℕ → Bytes) {e : Gmlbroker.Event}
    (happlies : s.applies (.gml e) = true) :
    s.homeward = s.gml.taking e ++ (s.stepGml ids e).homeward := by
  calc s.homeward
      = (s.gml.landed ++ (Gmlbroker.arrival e).toList) ++
          ((Gmlbroker.undelivered s.toGml e).filterMap heard ++ s.gcd.sendQueue.map trim) := by
        rw [homeward, heard_undelivered_gml happlies]
        simp only [List.append_assoc]
    _ = s.gml.taking e ++ (s.stepGml ids e).homeward := by
        rw [Gmlbroker.landed_step ids]
        simp only [homeward, stepGml, List.append_assoc]

theorem homeward_stepGcd (s : Diode) (e : Gcdbroker.Event) :
    (s.stepGcd e).homeward = s.homeward ++ (s.gcd.enqueued e).map trim := by
  have hsplit : s.gcd.sending e ++ s.gcd.unsent e = s.gcd.sendQueue := by
    cases e with
    | transmit => cases hqueue : s.gcd.sendQueue <;> simp [Gcdbroker.sending, Gcdbroker.unsent, hqueue]
    | _ => rfl
  simp only [homeward, stepGcd, Gcdbroker.transmitted_step, List.filterMap_append,
    filterMap_heard_serialize, Gcdbroker.sendQueue_step, ← hsplit, List.map_append, List.append_assoc]

theorem payloadsOn_trim (c : UInt16) (msgs : List BridgeMessage) :
    payloadsOn c (msgs.map trim) = (payloadsOn c msgs).map fun data => data.take Multiplexer.maxPayloadSize := by
  rw [payloadsOn, payloadsOn, List.filterMap_map, List.map_filterMap]
  congr 1
  funext msg
  by_cases h : msg.channel = c ∧ msg.action = .none <;> simp [trim, h]

/-- Payload that a reader has queued fits into a datagram. -/
theorem payloadsOn_enqueued {g : Gcdbroker} (h : g.handler.Payloadless) (e : Gcdbroker.Event) (c : UInt16) :
    payloadsOn c ((g.enqueued e).map trim) = payloadsOn c (g.enqueued e) := by
  rw [payloadsOn_trim]
  rcases Gcdbroker.reading_step h e with ⟨-, hnil⟩ | ⟨k, r, data, -, hlength, henqueued, -⟩
  · rw [hnil, List.map_nil]
  · rw [henqueued, payloadsOn_singleton]
    split_ifs
    · rw [List.map_singleton, List.take_of_length_le hlength]
    · rfl

-- ════════════════════════════════════════════════════════════════════════
-- The payload on a channel
-- ════════════════════════════════════════════════════════════════════════

/-- What a step of gmlbroker adds to what it has done. -/
theorem collect_gml {α : Type} (f : Gmlbroker → Gmlbroker.Event → List α) {e : Gmlbroker.Event}
    (happlies : ((machine ids).run es).applies (.gml e) = true) :
    (Gmlbroker.machine ids).collect f (gmlEvents ids (es ++ [.gml e])) =
      (Gmlbroker.machine ids).collect f (gmlEvents ids es) ++ f ((machine ids).run es).gml e := by
  rw [gmlEvents_snoc, gmlEvent, if_pos happlies, Option.toList_some, Machine.collect_snoc, ← gml_run]

/-- A step that is none of gmlbroker. -/
theorem gmlEvents_same (h : ((machine ids).run es).gmlEvent e = none) :
    gmlEvents ids (es ++ [e]) = gmlEvents ids es := by
  rw [gmlEvents_snoc, h, Option.toList_none, List.append_nil]

/-- The payload on a channel is taken up in the order in which it has been read. -/
theorem taken_homeward (ids : ℕ → ℕ → Bytes) (es : List Event) (c : UInt16) :
    taken ids es c ++ payloadsOn c ((machine ids).run es).homeward = returned ids es c := by
  induction es using List.reverseRecOn with
  | nil => rfl
  | append_singleton es e ih =>
    cases happlies : ((machine ids).run es).applies e with
    | false =>
      obtain ⟨hrun, -, hevents⟩ := run_idle happlies
      have hgml : ((machine ids).run es).gmlEvent e = none := by simp [gmlEvent, happlies]
      rw [taken, returned, gmlEvents_same hgml, hevents, hrun]
      exact ih
    | true =>
      cases e with
      | gml e =>
        obtain ⟨hrun, -, hevents⟩ := run_gml happlies
        rw [taken, collect_gml _ happlies, returned, hevents, hrun, List.append_assoc, ← payloadsOn_append,
          ← homeward_stepGml ids happlies]
        exact ih
      | guard e =>
        obtain ⟨hrun, -, hevents⟩ := run_guard happlies
        have hgml : ((machine ids).run es).gmlEvent (.guard e) = none := by simp [gmlEvent, happlies]
        rw [taken, returned, gmlEvents_same hgml, hevents, hrun]
        exact ih
      | gcd e =>
        obtain ⟨hrun, -, hevents⟩ := run_gcd happlies
        have hgml : ((machine ids).run es).gmlEvent (.gcd e) = none := by simp [gmlEvent, happlies]
        have hpayloadless := Gcdbroker.payloadless_run (gcdEvents ids es)
        rw [← gcd_run] at hpayloadless
        rw [taken, gmlEvents_same hgml, returned, hevents, Machine.collect_snoc, hrun, homeward_stepGcd,
          payloadsOn_append, payloadsOn_enqueued hpayloadless, ← List.append_assoc, ← gcd_run]
        exact congrArg (· ++ _) ih

-- ════════════════════════════════════════════════════════════════════════
-- The sessions
-- ════════════════════════════════════════════════════════════════════════

theorem fresh_of_snoc (h : Gmlbroker.Fresh ((machine ids).run (es ++ [e])).gml) :
    Gmlbroker.Fresh ((machine ids).run es).gml := by
  rw [gml_run, gmlEvents_snoc] at h
  rw [gml_run]
  cases hevent : ((machine ids).run es).gmlEvent e with
  | none => rwa [hevent, Option.toList_none, List.append_nil] at h
  | some e =>
    rw [hevent, Option.toList_some, Machine.run_snoc] at h
    exact h.of_step (Gmlbroker.wf_run ids _)

theorem TenantedRun.channel_of_opened (h : TenantedRun ids es user) {item : Gcdbroker.Item}
    (hk : .opened k item ∈ Gcdbroker.routed (gcdEvents ids es)) :
    ((machine ids).run es).gml.channels (user k) = some item.msg.channel := by
  obtain ⟨session, hn, hchannel, -⟩ := h.session_of_opened hk
  rw [Gmlbroker.channels_eq hn, hchannel]

theorem returned_of_taken (hc : taken ids es c ≠ []) : returned ids es c ≠ [] := by
  rw [← taken_homeward]
  exact List.append_ne_nil_of_left_ne_nil hc _

/-- Nothing comes back for a session that has not been started. -/
theorem TenantedRun.started_of_returned (h : TenantedRun ids es user)
    (hfresh : Gmlbroker.Fresh ((machine ids).run es).gml)
    (hn : ((machine ids).run es).gml.channels n = some c) (hc : returned ids es c ≠ []) :
    ∃ session, ((machine ids).run es).gml.sessions n = some session ∧ session.started = true := by
  obtain ⟨k, item, hk, rfl⟩ := Gcdbroker.opened_of_payload (gcdEvents ids es) hc
  obtain rfl := hfresh _ _ _ (h.channel_of_opened hk) hn
  obtain ⟨session, hsession, -, hspent⟩ := h.session_of_opened hk
  refine ⟨session, hsession, ?_⟩
  rw [gml_run] at hsession
  exact Gmlbroker.started_of_spent ids _ hsession hspent

/-- A session has been shown the payload on its channel, and all of it as long as its mailbox is
registered. -/
structure Shown (ids : ℕ → ℕ → Bytes) (es : List Event) (n : ℕ) : Prop where
  before : ((machine ids).run es).gml.channels n = none → shown ids es n = []
  begins : ∀ c, ((machine ids).run es).gml.channels n = some c → ∃ lost,
    taken ids es c = shown ids es n ++ lost ∧
      (((machine ids).run es).gml.mailboxes c = some n → lost = [])

theorem shown_snoc {e : Gmlbroker.Event} (happlies : ((machine ids).run es).applies (.gml e) = true) :
    shown ids (es ++ [.gml e]) n = shown ids es n ++ ((machine ids).run es).gml.hears n e :=
  collect_gml _ happlies

theorem taken_snoc {e : Gmlbroker.Event} (happlies : ((machine ids).run es).applies (.gml e) = true) :
    taken ids (es ++ [.gml e]) c =
      taken ids es c ++ payloadsOn c (((machine ids).run es).gml.taking e) :=
  collect_gml _ happlies

/-- The session has not been accepted before the step. -/
theorem Shown.accepted (h : Shown ids es n) {e : Gmlbroker.Event}
    (happlies : ((machine ids).run es).applies (.gml e) = true)
    (hnew : ((machine ids).run es).gml.channels n = none) : Shown ids (es ++ [.gml e]) n := by
  have hwf := Gmlbroker.wf_run ids (gmlEvents ids es)
  rw [← gml_run] at hwf
  have hnil : shown ids (es ++ [.gml e]) n = [] := by
    rw [shown_snoc happlies, h.before hnew, Gmlbroker.hears_of_new hwf hnew, List.append_nil]
  refine ⟨fun _ => hnil, fun c _ => ⟨taken ids (es ++ [.gml e]) c, by rw [hnil, List.nil_append], fun hc => ?_⟩⟩
  rw [(run_gml happlies).1] at hc
  rcases Gmlbroker.mailboxes_step hc with hc | hcreated
  · cases hnew.symm.trans (Gmlbroker.channel_of_mailbox hwf hc)
  · obtain ⟨holder, hholder, -⟩ := hwf.registering n c (.inr hcreated)
    obtain ⟨session, hsession, -⟩ := Option.map_eq_some_iff.mp hholder
    cases hnew.symm.trans (Gmlbroker.channels_eq hsession)

theorem Shown.gml (h : Shown ids es n) {e : Gmlbroker.Event}
    (happlies : ((machine ids).run es).applies (.gml e) = true)
    (htenanted : TenantedRun ids es user) (hfresh : Gmlbroker.Fresh ((machine ids).run es).gml) :
    Shown ids (es ++ [.gml e]) n := by
  have hwf := Gmlbroker.wf_run ids (gmlEvents ids es)
  rw [← gml_run] at hwf
  obtain ⟨hrun, -, hevents⟩ := run_gml happlies
  have hgml : ((machine ids).run (es ++ [.gml e])).gml = (((machine ids).run es).gml.step ids e).1 := by
    rw [hrun]
    rfl
  cases hn : ((machine ids).run es).gml.channels n with
  | none => exact h.accepted happlies hn
  | some c =>
    have hn' := Gmlbroker.channels_step ids hwf hn e
    rw [← hgml] at hn'
    refine ⟨fun hnone => absurd (hnone.symm.trans hn') (by simp), fun c' hc' => ?_⟩
    obtain rfl : c = c' := Option.some.inj (hn'.symm.trans hc')
    obtain ⟨lost, htaken, hlost⟩ := h.begins c hn
    rw [shown_snoc happlies, taken_snoc happlies, Gmlbroker.hears_eq hwf hn, htaken]
    split_ifs with hmailbox
    · refine ⟨[], ?_, fun _ => rfl⟩
      rw [hlost hmailbox, List.append_nil, List.append_nil]
    · refine ⟨lost ++ payloadsOn c (((machine ids).run es).gml.taking e), ?_, fun hc => ?_⟩
      · rw [List.append_nil, List.append_assoc]
      · -- the mailbox is registered once, before anything can come back
        by_contra hne
        have hsome : taken ids (es ++ [.gml e]) c ≠ [] := by
          rw [taken_snoc happlies, htaken, List.append_assoc]
          exact fun hnil => hne (List.append_eq_nil_iff.mp hnil).2
        have hreturned : returned ids es c ≠ [] := by
          have hsame := returned_of_taken hsome
          rwa [returned, hevents] at hsame
        obtain ⟨session, hsession, hstarted⟩ := htenanted.started_of_returned hfresh hn hreturned
        rw [hgml] at hc
        exact hmailbox (Gmlbroker.mailbox_of_started hwf hsession hstarted hc)

theorem Shown.same (h : Shown ids es n) (hgml : ((machine ids).run (es ++ [e])).gml = ((machine ids).run es).gml)
    (hevents : gmlEvents ids (es ++ [e]) = gmlEvents ids es) : Shown ids (es ++ [e]) n := by
  constructor
  · rw [hgml, shown, hevents]
    exact h.before
  · rw [hgml, shown, hevents]
    intro c
    rw [taken, hevents]
    exact h.begins c

theorem shown_run (ids : ℕ → ℕ → Bytes) {es : List Event} (hdistinct : Distinct (registered ids es))
    (hfresh : Gmlbroker.Fresh ((machine ids).run es).gml) (n : ℕ) : Shown ids es n := by
  induction es using List.reverseRecOn with
  | nil => exact ⟨fun _ => rfl, fun c hc => by cases hc⟩
  | append_singleton es e ih =>
    have hsub := registered_subset ids es e
    have hbefore : Distinct (registered ids es) :=
      fun n m id hn hm => hdistinct n m id (hsub hn) (hsub hm)
    have h := ih hbefore (fresh_of_snoc hfresh)
    cases happlies : ((machine ids).run es).applies e with
    | false =>
      have hgml : ((machine ids).run es).gmlEvent e = none := by simp [gmlEvent, happlies]
      exact h.same (by rw [(run_idle happlies).1]) (gmlEvents_same hgml)
    | true =>
      cases e with
      | gml e =>
        obtain ⟨user, htenanted⟩ := tenanted_run ids hbefore
        exact h.gml happlies htenanted (fresh_of_snoc hfresh)
      | guard e =>
        have hgml : ((machine ids).run es).gmlEvent (.guard e) = none := by simp [gmlEvent, happlies]
        exact h.same (by rw [(run_guard happlies).1]; rfl) (gmlEvents_same hgml)
      | gcd e =>
        have hgml : ((machine ids).run es).gmlEvent (.gcd e) = none := by simp [gmlEvent, happlies]
        exact h.same (by rw [(run_gcd happlies).1]; rfl) (gmlEvents_same hgml)

/-- All the payload on the channel of a connection has been read from it. -/
theorem TenantedRun.returned_eq (h : TenantedRun ids es user)
    (hfresh : Gmlbroker.Fresh ((machine ids).run es).gml) {item : Gcdbroker.Item}
    (hk : .opened k item ∈ Gcdbroker.routed (gcdEvents ids es)) :
    returned ids es item.msg.channel = output ids es k := by
  refine Gcdbroker.payload_of_opened (gcdEvents ids es) fun k' item' hk' => ?_
  have hn := h.channel_of_opened hk
  have hn' := h.channel_of_opened hk'
  constructor
  · intro hchannel
    rw [hchannel] at hn'
    exact h.user_inj hk' hk (hfresh _ _ _ hn' hn)
  · rintro rfl
    exact Option.some.inj (hn'.symm.trans hn)

theorem TenantedRun.output_eq (h : TenantedRun ids es user) (hdistinct : Distinct (registered ids es))
    (hfresh : Gmlbroker.Fresh ((machine ids).run es).gml) {item : Gcdbroker.Item}
    (hk : .opened k item ∈ Gcdbroker.routed (gcdEvents ids es)) :
    ∃ lost, output ids es k = shown ids es (user k) ++ lost ++
        payloadsOn item.msg.channel ((machine ids).run es).homeward ∧
      (((machine ids).run es).gml.mailboxes item.msg.channel = some (user k) → lost = []) := by
  obtain ⟨lost, htaken, hlost⟩ :=
    (shown_run ids hdistinct hfresh (user k)).begins _ (h.channel_of_opened hk)
  refine ⟨lost, ?_, hlost⟩
  rw [← h.returned_eq hfresh hk, ← taken_homeward, htaken]

/-- A session that has heard anything has a connection. -/
theorem TenantedRun.opened_of_shown (h : TenantedRun ids es user) (hdistinct : Distinct (registered ids es))
    (hfresh : Gmlbroker.Fresh ((machine ids).run es).gml) (hn : shown ids es n ≠ []) :
    ∃ k item, .opened k item ∈ Gcdbroker.routed (gcdEvents ids es) ∧ user k = n := by
  have hshown := shown_run ids hdistinct hfresh n
  cases hc : ((machine ids).run es).gml.channels n with
  | none => exact absurd (hshown.before hc) hn
  | some c =>
    obtain ⟨lost, htaken, -⟩ := hshown.begins c hc
    have hsome : taken ids es c ≠ [] := by
      rw [htaken]
      exact List.append_ne_nil_of_left_ne_nil hn _
    obtain ⟨k, item, hk, rfl⟩ := Gcdbroker.opened_of_payload (gcdEvents ids es) (returned_of_taken hsome)
    exact ⟨k, item, hk, hfresh _ _ _ (h.channel_of_opened hk) hc⟩

end

/-- In every run in which no two sessions register the same request id and no channel is given out
twice, each connection belongs to the session whose request has opened it. What the reader of the
connection takes from guacd is taken up for this session, in this order: all of it but what is on
its way back, and what has come back behind the session. Nothing else is taken up for a session. -/
theorem returns_own (ids : ℕ → ℕ → Bytes) (es : List Event) (hdistinct : Distinct (registered ids es))
    (hfresh : Gmlbroker.Fresh ((machine ids).run es).gml) :
    ∃ user : ℕ → ℕ,
      (∀ k item n, .insert k item ∈ Gcdbroker.machine.emitted (gcdEvents ids es) →
        item.origin = .bridge n → (trail ids es).authors[n]? = some (user k)) ∧
      (∀ k item, .insert k item ∈ Gcdbroker.machine.emitted (gcdEvents ids es) → ∃ lost,
        output ids es k = shown ids es (user k) ++ lost ++
          payloadsOn item.msg.channel ((machine ids).run es).homeward ∧
        (((machine ids).run es).gml.mailboxes item.msg.channel = some (user k) → lost = [])) ∧
      ∀ n, shown ids es n ≠ [] → ∃ k item,
        .insert k item ∈ Gcdbroker.machine.emitted (gcdEvents ids es) ∧ user k = n := by
  obtain ⟨user, h⟩ := tenanted_run ids hdistinct
  refine ⟨user, ?_, ?_, ?_⟩
  · intro k item n hk hn
    exact h.opened k item n (ForwardPath.mem_routed_insert.mpr hk) hn
  · intro k item hk
    exact h.output_eq hdistinct hfresh (ForwardPath.mem_routed_insert.mpr hk)
  · intro n hn
    obtain ⟨k, item, hk, huser⟩ := h.opened_of_shown hdistinct hfresh hn
    exact ⟨k, item, ForwardPath.mem_routed_insert.mp hk, huser⟩

/-- guacd answers the second session twice; the first answer has been taken up. -/
def answeredRun : List Diode.Event :=
  servedRun ++ [.gcd (.receive 0 (ascii "5.ready,1.k;") false), .gcd (.read 0), .gcd .transmit,
    .gml (.datagram (Multiplexer.serialize { channel := 1, payload := ascii "5.ready,1.k;" })),
    .gml .handle, .gml .handle, .gcd (.receive 0 (ascii "4.sync,1.7;") false)]

theorem distinct_answeredRun : Distinct (registered (fun _ _ => []) answeredRun) := by
  have hregistered : registered (fun _ _ => []) answeredRun = [(1, firstId)] := by decide +kernel
  rw [hregistered]
  intro n m id hn hm
  rw [(Prod.mk.inj (List.mem_singleton.mp hn)).1, (Prod.mk.inj (List.mem_singleton.mp hm)).1]

theorem fresh_answeredRun : Gmlbroker.Fresh ((machine fun _ _ => []).run answeredRun).gml := by
  rw [gml_run]
  refine Gmlbroker.fresh_of_accepted _ _ ?_
  rw [← gml_run]
  decide +kernel

/-- The second answer is on its way to the second session. -/
theorem returns_own_answeredRun :
    shown (fun _ _ => []) answeredRun 1 = [ascii "5.ready,1.k;"] ∧
      ∃ user : ℕ → ℕ, user 0 = 1 ∧ output (fun _ _ => []) answeredRun 0 =
        shown (fun _ _ => []) answeredRun (user 0) ++ [] ++ [ascii "4.sync,1.7;"] := by
  have hinsert : .insert 0 ⟨.bridge 1, approvalOf secondRequest⟩ ∈
      Gcdbroker.machine.emitted (gcdEvents (fun _ _ => []) answeredRun) := by decide +kernel
  have hauthors : (trail (fun _ _ => []) answeredRun).authors = [1, 1, 1] := by decide +kernel
  have hmailbox : ((machine fun _ _ => []).run answeredRun).gml.mailboxes 1 = some 1 := by decide +kernel
  have hback : payloadsOn 1 ((machine fun _ _ => []).run answeredRun).homeward = [ascii "4.sync,1.7;"] := by
    decide +kernel
  refine ⟨by decide +kernel, ?_⟩
  obtain ⟨user, hinserted, hreturned, -⟩ :=
    returns_own (fun _ _ => []) answeredRun distinct_answeredRun fresh_answeredRun
  have huser := hinserted 0 _ 1 hinsert rfl
  rw [hauthors] at huser
  have hone : user 0 = 1 := (Option.some.inj huser).symm
  obtain ⟨lost, houtput, hlost⟩ := hreturned 0 _ hinsert
  have hnil : lost = [] := hlost (hone ▸ hmailbox)
  refine ⟨user, hone, ?_⟩
  rw [houtput, hnil]
  exact congrArg _ hback

/-- In such a run, what is posted to a session since its approval is what the return filter passes
on of acks and of a piece of what its own connection has read. What the handler is about to post
counts as posted. -/
theorem shows_own (ids : ℕ → ℕ → Bytes) (es : List Event) (hdistinct : Distinct (registered ids es))
    (hfresh : Gmlbroker.Fresh ((machine ids).run es).gml) {n : ℕ} {items : List Gmlbroker.Item}
    (hitems : (Gmlbroker.returned ids n (gmlEvents ids es)).items = some items) :
    (Gmlbroker.returned ids n (gmlEvents ids es)).posts ++ ((machine ids).run es).gml.handler.held n =
        ReturnFilter.View.start.passAll (items.map Gmlbroker.Item.write) ∧
      (∀ item ∈ items, item.origin ≠ .bridge → ClipboardAckFaker.Acks item.msg.payload) ∧
      (writesOf .bridge (items.map Gmlbroker.Item.write) ≠ [] → ∃ k item i,
        .insert k item ∈ Gcdbroker.machine.emitted (gcdEvents ids es) ∧ item.origin = .bridge i ∧
          (trail ids es).authors[i]? = some n ∧
          writesOf .bridge (items.map Gmlbroker.Item.write) <:+: output ids es k) := by
  obtain ⟨c, hdelivered⟩ := Gmlbroker.consistent_run ids n (gmlEvents ids es) items hitems
  rw [← gml_run] at hdelivered
  refine ⟨hdelivered.posted, Gmlbroker.faked_items ids n (gmlEvents ids es) items hitems, fun hsome => ?_⟩
  obtain ⟨before, hbefore⟩ := Gmlbroker.noted_of_hears ids n (gmlEvents ids es) items hitems
  have hshown : shown ids es n = before ++ writesOf .bridge (items.map Gmlbroker.Item.write) := hbefore
  have hne : shown ids es n ≠ [] := by
    rw [hshown]
    exact List.append_ne_nil_of_right_ne_nil _ hsome
  obtain ⟨user, h⟩ := tenanted_run ids hdistinct
  obtain ⟨k, item, hk, rfl⟩ := h.opened_of_shown hdistinct hfresh hne
  obtain ⟨lost, houtput, -⟩ := h.output_eq hdistinct hfresh hk
  obtain ⟨-, i, hi, -⟩ := (Gcdbroker.ledger_run (gcdEvents ids es)).approvals k item hk
  refine ⟨k, item, i, ForwardPath.mem_routed_insert.mp hk, hi, h.opened k item i hk hi, before,
    lost ++ payloadsOn item.msg.channel ((machine ids).run es).homeward, ?_⟩
  rw [houtput, hshown, List.append_assoc (before ++ _)]

/-- The first answer is swallowed as far as the `ready`. -/
theorem shows_own_answeredRun :
    (Gmlbroker.returned (fun _ _ => []) 1 (gmlEvents (fun _ _ => []) answeredRun)).posts = [] ∧
      ∃ k, [ascii "5.ready,1.k;"] <:+: output (fun _ _ => []) answeredRun k := by
  have hitems : (Gmlbroker.returned (fun _ _ => []) 1 (gmlEvents (fun _ _ => []) answeredRun)).items =
      some [⟨.bridge, { channel := 1, payload := ascii "5.ready,1.k;" }⟩] := by decide +kernel
  obtain ⟨-, -, hown⟩ := shows_own (fun _ _ => []) answeredRun distinct_answeredRun fresh_answeredRun hitems
  obtain ⟨k, -, -, -, -, -, hinfix⟩ := hown (by decide)
  exact ⟨by decide +kernel, k, hinfix⟩

end Diode

end GuacamoleDiode
