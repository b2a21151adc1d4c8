import GuacamoleDiode.System.Streams

/-!
# Nothing crosses without a grant

The guard grants a request by handling it while its switch is on approve. A session is approved
at gmlbroker, and has a connection at gcdbroker, only if the guard has granted its own request,
and none of its payload is queued before.

## Main definitions

- `Granted`: the guard has granted the request of a session

## Main results

- `granted_of_served`
-/

namespace GuacamoleDiode

open Wire

namespace Diode

open ForwardPath (approves_trim)
open Gcdbroker (Approves)

/-- The guard has received the request of the session while its switch was on approve. -/
def Granted (ids : ℕ → ℕ → Bytes) (es : List Event) (n : ℕ) : Prop :=
  ∃ before e after msg, es = before ++ .guard e :: after ∧
    ((machine ids).run before).applies (.guard e) = true ∧
    ((machine ids).run before).guard.received e = some msg ∧ Creates msg ∧
    ((machine ids).run before).guard.approve = true ∧ (n, msg.payload) ∈ registered ids before

/-- The approvals on their way to gcdbroker, and the connections, belong to sessions whose requests
have been granted. -/
structure Grants (ids : ℕ → ℕ → Bytes) (es : List Event) (user : ℕ → ℕ) : Prop where
  answered : ∀ f ∈ (trail ids es).answered ((machine ids).run es).gcd, Approves f.1 → Granted ids es f.2
  opened : ∀ k item, .opened k item ∈ Gcdbroker.routed (gcdEvents ids es) → Granted ids es (user k)

section

variable {ids : ℕ → ℕ → Bytes} {es : List Event} {user user' : ℕ → ℕ} {n : ℕ}

theorem Granted.snoc (h : Granted ids es n) (e : Event) : Granted ids (es ++ [e]) n := by
  obtain ⟨before, e', after, msg, rfl, hgranted⟩ := h
  exact ⟨before, e', after ++ [e], msg, by rw [List.append_assoc, List.cons_append], hgranted⟩

/-- The step in which the guard grants a request. -/
theorem granted_snoc {e : Guard.Event} {msg : BridgeMessage}
    (happlies : ((machine ids).run es).applies (.guard e) = true)
    (hreceived : ((machine ids).run es).guard.received e = some msg) (hcreates : Creates msg)
    (happrove : ((machine ids).run es).guard.approve = true)
    (hreg : (n, msg.payload) ∈ registered ids es) : Granted ids (es ++ [.guard e]) n :=
  ⟨es, e, [], msg, rfl, happlies, hreceived, hcreates, happrove, hreg⟩

theorem Grants.gml (hg : Grants ids es user) {e : Gmlbroker.Event}
    (happlies : ((machine ids).run es).applies (.gml e) = true) : Grants ids (es ++ [.gml e]) user := by
  obtain ⟨hrun, htrail, hevents⟩ := run_gml happlies
  refine ⟨fun f hf happroves => ?_, fun k item hk => ?_⟩
  · rw [hrun, htrail] at hf
    exact (hg.answered f hf happroves).snoc _
  · rw [hevents] at hk
    exact (hg.opened k item hk).snoc _

/-- An approval of the guard belongs to the session of the request. -/
theorem Grants.guard (hg : Grants ids es user) (h : TenantedRun ids es user) {e : Guard.Event}
    (happlies : ((machine ids).run es).applies (.guard e) = true) : Grants ids (es ++ [.guard e]) user := by
  obtain ⟨hrun, htrail, hevents⟩ := run_guard happlies
  obtain ⟨msgs, hout, hanswer⟩ := answer_of_outcome (Guard.outcome ((machine ids).run es).guard e)
    fun msg hmsg => (sound_received (honest_run ids es) happlies hmsg).approval
  refine ⟨fun f hf happroves => ?_, fun k item hk => ?_⟩
  · rw [hrun, htrail] at hf
    have hsplit := answered_stepGuard (t := trail ids es) hout ((machine ids).run es).gcd
    rcases List.mem_append.mp (hsplit ▸ hf) with hf | hf
    · exact (hg.answered f hf happroves).snoc _
    · obtain ⟨m, hm, rfl⟩ := List.mem_map.mp hf
      have hm' : Approves m := approves_trim.mp happroves
      cases hanswer with
      | control _ hactions => exact absurd hm' (hactions m hm).2
      | approval msg hreceived hcreates _ happrove =>
        have hasked : (msg, (trail ids es).author e) ∈ (trail ids es).asked := by
          rw [asked_stepGuard (Tenanted.toGuard h) happlies, hreceived]
          exact List.mem_append_left _ (by simp)
        exact granted_snoc happlies hreceived hcreates happrove (Tenanted.asked h _ hasked hcreates)
      | payload msg payload _ haction =>
        obtain rfl := List.mem_singleton.mp hm
        cases haction.symm.trans hm'.1
  · rw [hevents] at hk
    exact (hg.opened k item hk).snoc _

/-- A connection is opened by an approval. -/
theorem Grants.gcd (hg : Grants ids es user) {e : Gcdbroker.Event}
    (happlies : ((machine ids).run es).applies (.gcd e) = true) (h : TenantedRun ids es user)
    (h' : TenantedRun ids (es ++ [.gcd e]) user') : Grants ids (es ++ [.gcd e]) user' := by
  obtain ⟨hrun, htrail, hevents⟩ := run_gcd happlies
  obtain ⟨hledger, hack, hmove⟩ := move_gcd ids es e
  rw [TenantedRun, hrun, htrail, hevents, Gcdbroker.delivered_snoc, Gcdbroker.routed_snoc, ← gcd_run] at h'
  have htaken := taken_stepGcd h hledger happlies hack
  refine ⟨fun f hf happroves => ?_, fun k item hk => ?_⟩
  · rw [hrun, htrail] at hf
    exact (hg.answered f (htaken.subset hmove hf) happroves).snoc _
  · rw [hevents, Gcdbroker.routed_snoc, ← gcd_run] at hk
    rcases List.mem_append.mp hk with hk | hk
    · have hgrown := Tenanted.mono h (registered_subset ids es (.gcd e))
      rw [hgrown.user_stepGcd hledger happlies h' hk]
      exact (hg.opened k item hk).snoc _
    · obtain ⟨happroves, hframe⟩ := htaken.opened hledger hmove h' hk
      exact (hg.answered _ hframe happroves).snoc _

theorem granted_run (ids : ℕ → ℕ → Bytes) {es : List Event} (hdistinct : Distinct (registered ids es)) :
    ∃ user, TenantedRun ids es user ∧ Grants ids es user := by
  refine tenanted_rule (P := Grants ids) ⟨?_, ?_⟩ ?_ ?_ ?_ ?_ hdistinct
  · intro f hf
    cases hf
  · intro k item hk
    cases hk
  · exact fun es e user happlies _ hg => hg.gml happlies
  · exact fun es e user happlies h hg => hg.guard h happlies
  · exact fun es e user user' happlies h h' hg => hg.gcd happlies h h'
  · intro es e user happlies hg
    obtain ⟨hrun, htrail, hevents⟩ := run_idle happlies
    refine ⟨fun f hf happroves => ?_, fun k item hk => ?_⟩
    · rw [hrun, htrail] at hf
      exact (hg.answered f hf happroves).snoc _
    · rw [hevents] at hk
      exact (hg.opened k item hk).snoc _

/-- The sessions of the connections can be told from the trail. -/
theorem TenantedRun.user_eq (h : TenantedRun ids es user) (h' : TenantedRun ids es user') {k : ℕ}
    {item : Gcdbroker.Item} (hk : .opened k item ∈ Gcdbroker.routed (gcdEvents ids es)) :
    user k = user' k := by
  obtain ⟨-, n, horigin, -⟩ := (Gcdbroker.ledger_run (gcdEvents ids es)).approvals k item hk
  exact Option.some.inj ((h.opened k item n hk horigin).symm.trans (h'.opened k item n hk horigin))

end

/-- In every run in which no two sessions register the same request id, a session is approved only
if the guard has received its own request while the switch of the guard was on approve. The same
holds if some of its payload has been queued, and of the session of every connection that
gcdbroker has opened. -/
theorem granted_of_served (ids : ℕ → ℕ → Bytes) (es : List Event) (hdistinct : Distinct (registered ids es)) :
    (∀ n session, ((machine ids).run es).gml.sessions n = some session →
      session.reader.approved = true → Granted ids es n) ∧
    (∀ n, said ids es n ≠ [] → Granted ids es n) ∧
    ∀ k item, .insert k item ∈ Gcdbroker.machine.emitted (gcdEvents ids es) →
      ∃ i n, item.origin = .bridge i ∧ (trail ids es).authors[i]? = some n ∧ Granted ids es n := by
  obtain ⟨user, h, hg⟩ := granted_run ids hdistinct
  have hserved : ∀ {c n}, n ∈ (opens (Gcdbroker.routed (gcdEvents ids es)) c).map user →
      Granted ids es n := by
    intro c n hn
    obtain ⟨k, hk, rfl⟩ := List.mem_map.mp hn
    obtain ⟨item, hitem, -⟩ := mem_opens.mp hk
    exact hg.opened k item hitem
  refine ⟨fun n session hn happroved => hserved (Tenanted.approved h n session hn happroved), fun n hn => ?_,
    fun k item hk => ?_⟩
  · obtain ⟨user', h', keeper, hst⟩ := streamed_run ids hdistinct
    obtain ⟨c, hopened⟩ := hst.speaks n hn
    obtain ⟨k, hk, rfl⟩ := List.mem_map.mp hopened
    obtain ⟨item, hitem, -⟩ := mem_opens.mp hk
    rw [TenantedRun.user_eq h' h hitem]
    exact hg.opened k item hitem
  · have hopened := ForwardPath.mem_routed_insert.mpr hk
    obtain ⟨-, i, horigin, -⟩ := (Gcdbroker.ledger_run (gcdEvents ids es)).approvals k item hopened
    exact ⟨i, user k, horigin, Tenanted.opened h k item i hopened horigin, hg.opened k item hopened⟩

/-- The request of the second session has been granted. -/
theorem granted_of_served_servedRun : said (fun _ _ => []) servedRun 1 ≠ [] ∧
    Granted (fun _ _ => []) servedRun 1 := by
  have hsaid : said (fun _ _ => []) servedRun 1 ≠ [] := by decide +kernel
  exact ⟨hsaid, (granted_of_served (fun _ _ => []) servedRun distinct_servedRun).2.1 1 hsaid⟩

end Diode

end GuacamoleDiode
