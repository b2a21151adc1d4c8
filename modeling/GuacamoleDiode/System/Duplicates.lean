import GuacamoleDiode.Gcdbroker.Turns
import GuacamoleDiode.Gmlbroker.Verdicts

/-!
# Verdicts that arrive twice

The approval of a session may be delivered once more while the session is alive. gcdbroker
dials guacd again, finds the channel bound, and relays a denial as if the dial had failed.
gmlbroker arms a new return filter, which waits for a `ready` that guacd has sent already,
unless the filter in use has not come further than a new one.

## Main definitions

- `Gcdbroker.Duplicate`, `Gmlbroker.Duplicate`: the handler has fetched such an approval
- `Gcdbroker.Harmless`, `Gmlbroker.Harmless`: nothing comes of it

## Main results

- `duplicates_harmless_iff`: a duplicate is harmless on the way from gcdbroker to gmlbroker, in front
  of the `ready` and between two instructions of guacd, and never elsewhere
-/

namespace GuacamoleDiode

open Wire

namespace Gcdbroker

/-- The handler has fetched an approval of a channel that is bound already. -/
structure Duplicate (s : Gcdbroker) (item : Item) : Prop where
  busy : s.handler = .busy item .fetched
  action : item.msg.action = .approval
  approves : verdict item.msg = approvalApprove
  bound : s.table item.msg.channel ≠ none

/-- The channel stays bound until the handler is ready for the next message. -/
structure Handles (es post : List Event) (c : UInt16) : Prop where
  bound : ∀ pre, pre <+: post → (machine.run (es ++ pre)).table c ≠ none
  done : (machine.run (es ++ post)).handler = .waiting

/-- A verdict against the channel. -/
def Denies (c : UInt16) (msg : BridgeMessage) : Prop :=
  msg.channel = c ∧ msg.action = .approval ∧ verdict msg ≠ approvalApprove

/-- No denial is relayed. -/
def Harmless (es post : List Event) (c : UInt16) : Prop :=
  ∀ pre e rest, post = pre ++ e :: rest → ∀ msg ∈ (machine.run (es ++ pre)).enqueued e, ¬Denies c msg

/-- The handler is on its way to a denial. -/
inductive Denying (item : Item) : SendHandler → Prop where
  | fetched : Denying item (.busy item .fetched)
  | dialed (fd k : ℕ) : Denying item (.busy item (.dialed fd k))
  | relaying : Denying item (.relaying (downgrade item.msg))

section

variable {s : Gcdbroker} {item : Item}

theorem denies_downgrade (haction : item.msg.action = .approval)
    (hverdict : verdict item.msg = approvalApprove) :
    Denies item.msg.channel (downgrade item.msg) := by
  refine ⟨rfl, haction, ?_⟩
  obtain ⟨origin, channel, action, payload⟩ := item
  cases payload with
  | nil => cases hverdict
  | cons b payload =>
    show approvalDeny ≠ approvalApprove
    decide

/-- The handler is the thread that decides where it stands. -/
theorem handler_step {e : Event} (hhandle : e ≠ .handle) (hdial : ∀ fd, e ≠ .dial fd)
    (hsend : ∀ taken, e ≠ .send taken) : (s.step e).1.handler = s.handler := by
  cases e with
  | datagram data =>
    simp only [step]
    split <;> rfl
  | handle => exact absurd rfl hhandle
  | dial fd => exact absurd rfl (hdial fd)
  | send taken => exact absurd rfl (hsend taken)
  | receive k data due =>
    simp only [step, receive]
    repeat' split
    all_goals rfl
  | timeout k due => rfl
  | read k =>
    simp only [step, read]
    repeat' split
    all_goals rfl
  | transmit =>
    simp only [step]
    split <;> rfl

/-- A step while the handler is on its way to a denial. -/
theorem Denying.step (h : Denying item s.handler) (haction : item.msg.action = .approval)
    (hverdict : verdict item.msg = approvalApprove) (hbound : s.table item.msg.channel ≠ none)
    (e : Event) : Denying item (s.step e).1.handler ∨ downgrade item.msg ∈ s.enqueued e := by
  by_cases hown : e = .handle ∨ (∃ fd, e = .dial fd) ∨ ∃ taken, e = .send taken
  · generalize hh : s.handler = handler at h
    rcases hown with rfl | ⟨fd, rfl⟩ | ⟨taken, rfl⟩
    · cases h with
      | fetched =>
        refine .inl ?_
        simp only [Gcdbroker.step, handle, dispatch, hh, haction, hverdict, if_true]
        exact .fetched
      | dialed fd k =>
        refine .inl ?_
        obtain ⟨fd', hfd'⟩ := Option.ne_none_iff_exists'.mp hbound
        simp only [Gcdbroker.step, handle, insert, hh, hfd']
        exact .relaying
      | relaying => exact .inr (by simp [enqueued, hh])
    · refine .inl ?_
      cases h with
      | fetched =>
        simp only [Gcdbroker.step, dial, hh, haction, hverdict, and_self, if_true]
        cases fd with
        | none => exact .relaying
        | some fd =>
          dsimp only
          split_ifs
          · exact .dialed fd s.dialed
          · rw [hh]
            exact .fetched
      | dialed fd' k =>
        simp only [Gcdbroker.step, dial, hh]
        exact .dialed fd' k
      | relaying =>
        simp only [Gcdbroker.step, dial, hh]
        exact .relaying
    · refine .inl ?_
      have hsame : (s.step (.send taken)).1 = s := by cases h <;> simp only [Gcdbroker.step, send, hh]
      rw [hsame, hh]
      exact h
  · obtain ⟨hhandle, hdial, hsend⟩ := not_or.mp hown |>.imp_right not_or.mp
    rw [handler_step hhandle (fun fd he => hdial ⟨fd, he⟩) fun taken he => hsend ⟨taken, he⟩]
    exact .inl h

/-- A denial is relayed before the handler is ready for the next message. -/
theorem Denying.not_harmless {es post : List Event} (h : Denying item (machine.run es).handler)
    (haction : item.msg.action = .approval) (hverdict : verdict item.msg = approvalApprove)
    (hpost : Handles es post item.msg.channel) : ¬Harmless es post item.msg.channel := by
  induction post generalizing es with
  | nil =>
    have hdone := hpost.done
    rw [List.append_nil] at hdone
    rw [hdone] at h
    cases h
  | cons e post ih =>
    have hbound := hpost.bound [] List.nil_prefix
    rw [List.append_nil] at hbound
    intro hharmless
    rcases h.step haction hverdict hbound e with hnext | hdenied
    · have hrun : Denying item (machine.run (es ++ [e])).handler := by
        rw [Machine.run_snoc]
        exact hnext
      refine ih hrun ⟨fun pre hpre => ?_, ?_⟩ fun pre e' rest hsplit => ?_
      · simpa using hpost.bound (e :: pre) (List.cons_prefix_cons.mpr ⟨rfl, hpre⟩)
      · simpa using hpost.done
      · simpa using hharmless (e :: pre) e' rest (by simp [hsplit])
    · refine hharmless [] e post rfl _ ?_ (denies_downgrade haction hverdict)
      rwa [List.append_nil]

end

end Gcdbroker

namespace Gmlbroker

/-- The handler has fetched the approval of a session that is approved already. -/
structure Duplicate (s : Gmlbroker) (n : ℕ) (item : Item) : Prop where
  busy : s.handler = .busy item
  action : item.msg.action = .approval
  approves : verdict item.msg = approvalApprove
  matches_request : s.matching item.msg = some n
  approved : Approved s n

/-- What is posted to the mailbox of a channel for the payloads that guacd sends next. -/
def posted (s : Gmlbroker) (c : UInt16) : List Bytes → Bytes
  | [] => []
  | data :: rest =>
    let r := s.filtered { channel := c, action := .none, payload := data }
    r.1 ++ posted { s with filters := r.2 } c rest

/-- The message that the handler has fetched changes nothing: no screen is posted and no
teardown requested, the registries and the queues stay as they are, and so does what is
posted for later payloads. -/
structure Harmless (s : Gmlbroker) (c : UInt16) : Prop where
  sessions : s.handle.1.sessions = s.sessions
  table : s.handle.1.table = s.table
  registries : s.handle.1.approvals = s.approvals ∧ s.handle.1.mailboxes = s.mailboxes
  queues : s.handle.1.sendQueue = s.sendQueue ∧ s.handle.1.recvQueue = s.recvQueue
  posted : ∀ ds : List Bytes, (∀ data ∈ ds, data.length ≤ Multiplexer.maxPayloadSize) →
    s.handle.1.posted c ds = s.posted c ds

section

variable {s : Gmlbroker} {n : ℕ} {item : Item} {c : UInt16}

theorem posted_eq_flatten (h : s.filters c = none) (ds : List Bytes) : s.posted c ds = ds.flatten := by
  induction ds with
  | nil => rfl
  | cons data ds ih =>
    have hfiltered : s.filtered { channel := c, action := .none, payload := data } =
        (data, s.filters) := by
      simp only [filtered, h]
    rw [posted, hfiltered, List.flatten_cons]
    exact congrArg (data ++ ·) ih

theorem posted_eq_posts {p : OpcodeParser ReturnMembers} (h : s.filters c = some p) (ds : List Bytes) :
    s.posted c ds = ReturnFilter.posts p ds := by
  induction ds generalizing s p with
  | nil => rfl
  | cons data ds ih =>
    have hfiltered : s.filtered { channel := c, action := .none, payload := data } =
        ((ReturnFilter.feed p data).1,
          Function.update s.filters c (some (ReturnFilter.feed p data).2)) := by
      simp only [filtered, h]
    rw [posted, hfiltered, ReturnFilter.posts]
    exact congrArg ((ReturnFilter.feed p data).1 ++ ·) (ih (Function.update_self ..))

/-- The step of a handler that has fetched a duplicate. -/
theorem Duplicate.handle (h : Duplicate s n item) :
    s.handle.1 = { s with
      sessions := s.setFlag n
      filters := Function.update s.filters item.msg.channel (some ReturnFilter.fresh)
      handler := .waiting } := by
  simp only [Gmlbroker.handle, h.busy, dispatch, h.action, h.matches_request, h.approves, if_true]

theorem Approved.setFlag (h : Approved s n) : s.setFlag n = s.sessions := by
  obtain ⟨session, hn, happ⟩ := h
  have hsame : (s.sessions n).map (fun session =>
      { session with reader := { session.reader with approved := true } }) = s.sessions n := by
    rw [hn, Option.map_some, ← happ]
  rw [Gmlbroker.setFlag, hsame, Function.update_eq_self]

/-- The filters show what they have swallowed. -/
def Filtering (s : Gmlbroker) : Prop :=
  ∀ c p, s.filters c = some p → ∃ v, ReturnFilter.Shows p v

theorem Filtering.update (h : Filtering s) {f : Option (OpcodeParser ReturnMembers)} {s' : Gmlbroker}
    (hf : ∀ p, f = some p → ∃ v, ReturnFilter.Shows p v)
    (hs' : s'.filters = Function.update s.filters c f) : Filtering s' := by
  intro c' p hp
  rw [hs'] at hp
  by_cases hc : c' = c
  · subst hc
    rw [Function.update_self] at hp
    exact hf p hp
  · rw [Function.update_of_ne hc] at hp
    exact h c' p hp

theorem Filtering.dispatch (h : Filtering s) (item : Item) : Filtering (s.dispatch item).1 := by
  unfold Gmlbroker.dispatch
  split
  · dsimp only
    split <;> exact h.update (by simp) rfl
  · exact h
  · split
    · exact h
    · split_ifs
      · refine h.update (fun p hp => ?_) rfl
        cases hp
        exact ⟨_, ReturnFilter.shows_fresh⟩
      · exact h
  · split
    · exact h
    · have hfiltered : Filtering { s with filters := (s.filtered item.msg).2 } := by
        unfold filtered
        split
        · exact h
        · next p hp =>
          refine h.update (fun q hq => ?_) rfl
          obtain ⟨v, hv⟩ := h _ p hp
          cases hq
          exact ⟨_, (hv.feed item.msg.payload).2⟩
      dsimp only
      split_ifs <;> exact hfiltered

theorem Filtering.handle (h : Filtering s) : Filtering s.handle.1 := by
  unfold Gmlbroker.handle
  split
  · split <;> exact h
  · exact h.dispatch _
  · split <;> exact h
  · exact h
  · exact h

theorem Filtering.step (h : Filtering s) (ids : ℕ → ℕ → Bytes) (e : Event) :
    Filtering (s.step ids e).1 := by
  unfold Gmlbroker.step
  cases e with
  | handle => exact h.handle
  | accept =>
    dsimp only [Gmlbroker.accept]
    repeat' split
    all_goals exact h
  | register =>
    dsimp only [Gmlbroker.register]
    split <;> exact h
  | perform n =>
    dsimp only
    split
    · exact h
    · split
      · exact h
      · next effect _ _ => cases effect <;> exact h
  | _ =>
    dsimp only
    repeat' split
    all_goals exact h

end

theorem filtering_run (ids : ℕ → ℕ → Bytes) (es : List Event) : Filtering ((machine ids).run es) := by
  refine Machine.invariant (M := machine ids) (P := fun _ s => Filtering s) ?_
    (fun _ e h => h.step ids e) es
  simp [Filtering, machine]

/-- A duplicate does no harm if the filter of the channel has not come further than a new one. -/
theorem Duplicate.harmless_iff {s : Gmlbroker} {n : ℕ} {item : Item} (h : Duplicate s n item)
    (hf : Filtering s) :
    Harmless s item.msg.channel ↔
      ∃ p, s.filters item.msg.channel = some p ∧ ReturnFilter.AtBoundary p := by
  have hstep := h.handle
  have hfresh : s.handle.1.filters item.msg.channel = some ReturnFilter.fresh := by
    rw [hstep]
    exact Function.update_self ..
  constructor
  · intro hharmless
    -- the payloads may be as small as one byte
    have hflat : ∀ w : Bytes, (w.map fun b => [b]).flatten = w := by
      intro w
      rw [← List.flatMap_def, List.flatMap_singleton']
    have hposted : ∀ w : Bytes, (ReturnFilter.View.start.feed w).1 =
        s.posted item.msg.channel (w.map fun b => [b]) := by
      intro w
      rw [← hharmless.posted _ (by simp [Multiplexer.maxPayloadSize]), posted_eq_posts hfresh,
        ReturnFilter.shows_fresh.posts, hflat]
    cases hp : s.filters item.msg.channel with
    | none =>
      have hx := hposted (ascii "x")
      rw [posted_eq_flatten hp, hflat, ReturnFilter.feed_start_letter] at hx
      cases hx
    | some p =>
      obtain ⟨v, hv⟩ := hf _ p hp
      refine ⟨p, rfl, hv.atBoundary_iff.mpr (ReturnFilter.View.eq_start_of_feed fun w => ?_)⟩
      rw [hposted, posted_eq_posts hp, hv.posts, hflat]
  · rintro ⟨p, hp, hboundary⟩
    obtain ⟨v, hv⟩ := hf _ p hp
    obtain rfl := hv.atBoundary_iff.mp hboundary
    refine ⟨?_, ?_, ?_, ?_, fun ds _ => ?_⟩
    · rw [hstep]
      exact h.approved.setFlag
    · rw [hstep]
    · rw [hstep]
      exact ⟨rfl, rfl⟩
    · rw [hstep]
      exact ⟨rfl, rfl⟩
    · rw [posted_eq_posts hfresh, posted_eq_posts hp, ReturnFilter.shows_fresh.posts, hv.posts]

end Gmlbroker

/-- The approval of a live session is delivered a second time. On the way from the guard to
gcdbroker it always ends in a denial. On the way from gcdbroker to gmlbroker it is harmless if
and only if the return filter of the channel has not seen the `ready` of guacd and stands
between two instructions. -/
theorem duplicates_harmless_iff (es post : List Gcdbroker.Event) (item : Gcdbroker.Item)
    (ids : ℕ → ℕ → Bytes) (es' : List Gmlbroker.Event) (n : ℕ) (item' : Gmlbroker.Item) :
    (Gcdbroker.Duplicate (Gcdbroker.machine.run es) item →
      Gcdbroker.Handles es post item.msg.channel → ¬Gcdbroker.Harmless es post item.msg.channel) ∧
    (Gmlbroker.Duplicate ((Gmlbroker.machine ids).run es') n item' →
      (Gmlbroker.Harmless ((Gmlbroker.machine ids).run es') item'.msg.channel ↔
        ∃ p, ((Gmlbroker.machine ids).run es').filters item'.msg.channel = some p ∧
          ReturnFilter.AtBoundary p)) := by
  refine ⟨fun h hpost => ?_, fun h => ?_⟩
  · refine Gcdbroker.Denying.not_harmless ?_ h.action h.approves hpost
    rw [h.busy]
    exact .fetched
  · exact h.harmless_iff (Gmlbroker.filtering_run ids es')

namespace Gcdbroker

/-- The approval of channel 4. -/
def verdict4 : BridgeMessage where
  channel := 4
  action := .approval
  payload := approvalApprove :: ascii "0123456789c3"

/-- The approval has bound channel 4 to the first connection, and is fetched again. -/
def fetchedTwice : List Event :=
  [.datagram (Multiplexer.serialize verdict4), .handle, .dial (some 0), .handle, .handle,
    .datagram (Multiplexer.serialize verdict4), .handle]

/-- guacd is dialed again, and the handler goes on. -/
def dialedAgain : List Event := [.dial (some 1), .handle, .handle]

theorem fetchedTwice_duplicate :
    Duplicate (machine.run fetchedTwice) ⟨.bridge 1, verdict4⟩ :=
  ⟨by decide +kernel, rfl, rfl, by decide +kernel⟩

theorem dialedAgain_handles : Handles fetchedTwice dialedAgain 4 := by
  refine ⟨fun pre hpre => ?_, by decide +kernel⟩
  have hbound : ∀ i ≤ dialedAgain.length,
      (machine.run (fetchedTwice ++ dialedAgain.take i)).table 4 ≠ none := by
    decide +kernel
  rw [List.prefix_iff_eq_take.mp hpre]
  exact hbound _ hpre.length_le

end Gcdbroker

namespace Gmlbroker

/-- The approval of the session on channel 0. -/
def verdict0 : Item where
  origin := .bridge
  msg := { channel := 0, action := .approval, payload := approvalApprove :: ascii "0123456789c3" }

/-- The first session is approved. -/
def approvedRun : List Event :=
  [.accept, .register, .register, .wake 0 (.read (ascii "7.connect,1.h;") (ascii "0123456789c3")),
    .perform 0, .perform 0, .perform 0, .datagram (Multiplexer.serialize verdict0.msg), .handle,
    .handle]

/-- The verdict comes again. -/
def again : List Event := [.datagram (Multiplexer.serialize verdict0.msg), .handle]

/-- guacd is ready and draws. -/
def drawing : List Event :=
  [.datagram (Multiplexer.serialize { channel := 0, payload := ascii "5.ready,1.k;4.sync,1.7;" }),
    .handle, .handle, .handle, .handle]

theorem duplicate_of_fetched {s : Gmlbroker} (hbusy : s.handler = .busy verdict0)
    (hmatching : s.matching verdict0.msg = some 0)
    (happroved : (s.sessions 0).map (·.reader.approved) = some true) : Duplicate s 0 verdict0 :=
  ⟨hbusy, rfl, rfl, hmatching, Option.map_eq_some_iff.mp happroved⟩

theorem duplicate_early :
    Duplicate ((machine fun _ _ => []).run (approvedRun ++ again)) 0 verdict0 :=
  duplicate_of_fetched (by decide +kernel) (by decide +kernel) (by decide +kernel)

theorem duplicate_late :
    Duplicate ((machine fun _ _ => []).run (approvedRun ++ drawing ++ again)) 0 verdict0 :=
  duplicate_of_fetched (by decide +kernel) (by decide +kernel) (by decide +kernel)

end Gmlbroker

/-- A verdict that comes twice before guacd has answered does no harm. -/
theorem harmless_early :
    Gmlbroker.Duplicate ((Gmlbroker.machine fun _ _ => []).run
        (Gmlbroker.approvedRun ++ Gmlbroker.again)) 0 Gmlbroker.verdict0 ∧
      Gmlbroker.Harmless ((Gmlbroker.machine fun _ _ => []).run
        (Gmlbroker.approvedRun ++ Gmlbroker.again)) 0 := by
  have hiff := duplicates_harmless_iff [] [] ⟨.bridge 0, Gcdbroker.verdict4⟩ (fun _ _ => [])
    (Gmlbroker.approvedRun ++ Gmlbroker.again) 0 Gmlbroker.verdict0
  refine ⟨Gmlbroker.duplicate_early, (hiff.2 Gmlbroker.duplicate_early).mpr ?_⟩
  have hfresh : ((Gmlbroker.machine fun _ _ => []).run (Gmlbroker.approvedRun ++
      Gmlbroker.again)).filters 0 = some ReturnFilter.fresh := rfl
  exact ⟨_, hfresh, rfl, rfl, rfl, rfl⟩

/-- Behind the `ready`, the drawing of guacd no longer reaches the browser; on the other link
the session is denied. -/
theorem not_harmless_late :
    (Gcdbroker.Duplicate (Gcdbroker.machine.run Gcdbroker.fetchedTwice) ⟨.bridge 1, Gcdbroker.verdict4⟩ ∧
      Gcdbroker.Handles Gcdbroker.fetchedTwice Gcdbroker.dialedAgain 4 ∧
      ¬Gcdbroker.Harmless Gcdbroker.fetchedTwice Gcdbroker.dialedAgain 4) ∧
    Gmlbroker.Duplicate ((Gmlbroker.machine fun _ _ => []).run
        (Gmlbroker.approvedRun ++ Gmlbroker.drawing ++ Gmlbroker.again)) 0 Gmlbroker.verdict0 ∧
      ¬Gmlbroker.Harmless ((Gmlbroker.machine fun _ _ => []).run
        (Gmlbroker.approvedRun ++ Gmlbroker.drawing ++ Gmlbroker.again)) 0 := by
  refine ⟨⟨Gcdbroker.fetchedTwice_duplicate, Gcdbroker.dialedAgain_handles, fun h => ?_⟩,
    Gmlbroker.duplicate_late, fun h => ?_⟩
  · refine h [.dial (some 1), .handle] .handle [] rfl (Gcdbroker.downgrade Gcdbroker.verdict4) ?_ ?_
    · decide +kernel
    · exact ⟨rfl, rfl, by decide +kernel⟩
  · have hposted := h.posted [ascii "4.sync,1.8;"] (by decide +kernel)
    revert hposted
    decide +kernel

end GuacamoleDiode
