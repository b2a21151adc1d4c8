import GuacamoleDiode.Gmlbroker.ReturnStream
import GuacamoleDiode.Gmlbroker.Verdicts

/-!
# What reaches the mailbox of a session

An observer notes, for one session, the messages that the send handler takes up for it since
its approval, and what it posts. What is posted is what the return filter passes on of these
messages. If every ack is queued where the payloads in front of it end with an instruction,
the browser receives whole instructions.

## Main definitions

- `Return`: what an observer has noted of the return stream of a session
- `Delivered`: what has been posted is what the filter has passed on

## Main results

- `intact_of_aligned`
-/

namespace GuacamoleDiode

open Wire

namespace Gmlbroker

/-- The message that the handler takes up in a step. -/
def takenUp (s : Gmlbroker) : Event → Option Item
  | .handle =>
    match s.handler with
    | .busy item => some item
    | _ => none
  | _ => none

/-- What a step posts to the mailbox of a session. -/
def postsOf (n : ℕ) : Effect → List (Origin × Bytes)
  | .mailed m item (.post data) => if m = n then [(item.origin, data)] else []
  | _ => []

/-- What an observer has noted of the return stream of a session. -/
structure Return where
  /-- the messages that have been taken up for it since its approval, while it is neither
  denied nor shut down -/
  items : Option (List Item) := none
  posts : List (Origin × Bytes) := []

/-- The observer of a session. -/
def Return.note (n : ℕ) (r : Return) (s : Gmlbroker) (e : Event) (out : List Effect) : Return :=
  match s.takenUp e with
  | none => { r with posts := r.posts ++ out.flatMap (postsOf n) }
  | some item =>
    match item.msg.action with
    | .none =>
      if s.mailboxes item.msg.channel = some n then { r with items := r.items.map (· ++ [item]) }
      else r
    | .createChannel => r
    | .shutdownChannel =>
      if (s.sessions n).map Session.channel = some item.msg.channel then { r with items := none }
      else r
    | .approval =>
      if s.matching item.msg = some n then
        if verdict item.msg = approvalApprove then { items := some [] } else { r with items := none }
      else r

/-- The return stream of a session behind a run. -/
def returned (ids : ℕ → ℕ → Bytes) (n : ℕ) (es : List Event) : Return :=
  (machine ids).observe (Return.note n) {} es

/-- What the handler still has to post to a session. -/
def SendHandler.held (n : ℕ) : SendHandler → List (Origin × Bytes)
  | .holding item m mails => mails.flatMap fun mail => postsOf n (.mailed m item mail)
  | _ => []

/-- A message as a write of its origin. -/
def Item.write (item : Item) : Origin × Bytes := (item.origin, item.msg.payload)

section

variable {ids : ℕ → ℕ → Bytes} {s : Gmlbroker} {n : ℕ} {c : UInt16} {session : Session}

theorem channel_update {sessions : ℕ → Option Session} {m : ℕ} {session' : Session}
    (h : (sessions n).map Session.channel = some c)
    (hm : ∀ session, sessions m = some session → session'.channel = session.channel) :
    ((Function.update sessions m (some session')) n).map Session.channel = some c := by
  by_cases hnm : n = m
  · subst hnm
    obtain ⟨session, hn, rfl⟩ := Option.map_eq_some_iff.mp h
    rw [Function.update_self, Option.map_some, hm session hn]
  · rwa [Function.update_of_ne hnm]

theorem channel_map {sessions : ℕ → Option Session} {m : ℕ} {f : Session → Session}
    (h : (sessions n).map Session.channel = some c) (hf : ∀ session, (f session).channel = session.channel) :
    ((Function.update sessions m ((sessions m).map f)) n).map Session.channel = some c := by
  by_cases hnm : n = m
  · subst hnm
    obtain ⟨session, hn, rfl⟩ := Option.map_eq_some_iff.mp h
    rw [Function.update_self, hn, Option.map_some, Option.map_some, hf]
  · rwa [Function.update_of_ne hnm]

/-- What the other threads leave alone. -/
structure Aside (s s' : Gmlbroker) (n : ℕ) (c : UInt16) : Prop where
  handler : s'.handler = s.handler
  filters : s'.filters = s.filters
  channel : (s'.sessions n).map Session.channel = some c
  table : ∀ c, s'.table c = some n → s.table c = some n

theorem aside_refl (hn : (s.sessions n).map Session.channel = some c) : Aside s s n c :=
  ⟨rfl, rfl, hn, fun _ h => h⟩

theorem aside_accept (hwf : Wf s) (hn : (s.sessions n).map Session.channel = some c) :
    Aside s s.accept.1 n c := by
  unfold Gmlbroker.accept
  split_ifs
  · split
    · exact aside_refl hn
    · next channel _ =>
      obtain ⟨session, hsession, -⟩ := Option.map_eq_some_iff.mp hn
      have hlt : n < s.accepted := hwf.number n _ (holders_eq hsession)
      refine ⟨rfl, rfl, channel_update hn fun old hold => ?_, fun c' hc' => ?_⟩
      · exact absurd (hwf.number _ _ (holders_eq hold)) (Nat.lt_irrefl _)
      · dsimp only at hc'
        obtain ⟨-, heq⟩ | ⟨-, hold⟩ := Table.of_update hc'
        · omega
        · exact hold
  · exact aside_refl hn

theorem aside_register (hn : (s.sessions n).map Session.channel = some c) :
    Aside s s.register.1 n c := by
  unfold Gmlbroker.register
  split
  · exact aside_refl hn
  · exact ⟨rfl, rfl, hn, fun _ h => h⟩
  · exact ⟨rfl, rfl, channel_map hn fun _ => rfl, fun _ h => h⟩

theorem aside_perform (hn : (s.sessions n).map Session.channel = some c) {m : ℕ} {session : Session}
    (hm : s.sessions m = some session) (effect : ReadHandler.Effect)
    (pending : List ReadHandler.Effect) :
    Aside s (perform { s with
      sessions := Function.update s.sessions m (some { session with pending }) } m session.channel
      effect) n c := by
  have hchannel : ((Function.update s.sessions m (some { session with pending })) n).map
      Session.channel = some c := by
    refine channel_update hn fun old hold => ?_
    cases hm.symm.trans hold
    rfl
  cases effect with
  | removeChannel =>
    refine ⟨rfl, rfl, hchannel, fun c' hc' => ?_⟩
    dsimp only [perform] at hc'
    exact (Table.of_update_none hc').2
  | _ => exact ⟨rfl, rfl, hchannel, fun _ h => h⟩

/-- A step of another thread than the handler. -/
theorem aside_step (hwf : Wf s) (hn : (s.sessions n).map Session.channel = some c) {e : Event}
    (he : e ≠ .handle) : Aside s (s.step ids e).1 n c := by
  unfold Gmlbroker.step
  cases e with
  | datagram data =>
    dsimp only
    split
    · exact aside_refl hn
    · exact ⟨rfl, rfl, hn, fun _ h => h⟩
  | accept => exact aside_accept hwf hn
  | register => exact aside_register hn
  | handle => exact absurd rfl he
  | wake m wake =>
    dsimp only
    split
    · exact aside_refl hn
    · next session hm =>
      split_ifs
      · refine ⟨rfl, rfl, channel_update hn fun old hold => ?_, fun _ h => h⟩
        cases hm.symm.trans hold
        rfl
      · exact aside_refl hn
  | perform m =>
    dsimp only
    split
    · exact aside_refl hn
    · next session hm =>
      split
      · exact aside_refl hn
      · exact aside_perform hn hm _ _
  | transmit =>
    dsimp only
    split
    · exact aside_refl hn
    · exact ⟨rfl, rfl, hn, fun _ h => h⟩

/-- What has been posted is what the filter has passed on, as far as the handler is not about
to post it. While the session holds its channel, the filter of the channel is its own. -/
structure Delivered (n : ℕ) (s : Gmlbroker) (posts : List (Origin × Bytes)) (items : List Item)
    (c : UInt16) : Prop where
  channel : (s.sessions n).map Session.channel = some c
  posted : posts ++ s.handler.held n = ReturnFilter.View.start.passAll (items.map Item.write)
  filter : s.table c = some n → ∃ p, s.filters c = some p ∧
    ReturnFilter.Shows p (ReturnFilter.View.start.after (items.map Item.write))
  /-- a denial that has been matched is that of another session -/
  matched : ∀ item, s.handler = .matched item → s.table item.msg.channel ≠ some n

/-- The observer has nothing to add to what has been delivered. -/
def Consistent (n : ℕ) (s : Gmlbroker) (r : Return) : Prop :=
  ∀ items, r.items = some items → ∃ c, Delivered n s r.posts items c

theorem Delivered.aside {s' : Gmlbroker} {posts : List (Origin × Bytes)} {items : List Item}
    (h : Delivered n s posts items c) (ha : Aside s s' n c) : Delivered n s' posts items c where
  channel := ha.channel
  posted := by
    rw [ha.handler]
    exact h.posted
  filter htable := by
    rw [ha.filters]
    exact h.filter (ha.table c htable)
  matched item hitem htable := by
    rw [ha.handler] at hitem
    exact h.matched item hitem (ha.table _ htable)

section Handler

variable {posts : List (Origin × Bytes)} {items : List Item} {item : Item}

/-- The handler turns to something that posts nothing to the session. -/
theorem Delivered.turns {s' : Gmlbroker} (h : Delivered n s posts items c)
    (hold : s.handler.held n = []) (hchannel : (s'.sessions n).map Session.channel = some c)
    (hheld : s'.handler.held n = [])
    (hfilter : s'.table c = some n → s.table c = some n ∧ s'.filters c = s.filters c)
    (hmatched : ∀ item, s'.handler = .matched item → s'.table item.msg.channel ≠ some n) :
    Delivered n s' posts items c where
  channel := hchannel
  posted := by
    rw [hheld, ← hold]
    exact h.posted
  filter htable := by
    obtain ⟨hbefore, hsame⟩ := hfilter htable
    rw [hsame]
    exact h.filter hbefore
  matched := hmatched

theorem channel_of_table (hwf : Wf s) (h : s.table c = some n) :
    (s.sessions n).map Session.channel = some c := by
  obtain ⟨x, hx, rfl, -⟩ := (hwf.bound c n).mp h
  obtain ⟨session, hn, rfl⟩ := Option.map_eq_some_iff.mp hx
  rw [hn]
  rfl

/-- A filter of another channel, or of one that the session does not hold. -/
theorem filters_update_of_ne {c' : UInt16} {m : ℕ} (hm : s.table c' = some m) (hne : m ≠ n)
    (f : Option (OpcodeParser ReturnMembers)) (htable : s.table c = some n) :
    Function.update s.filters c' f c = s.filters c := by
  refine Function.update_of_ne ?_ ..
  rintro rfl
  exact hne (Option.some.inj (hm.symm.trans htable))

/-- A payload is taken up for the session. -/
theorem Delivered.payload (h : Delivered n s posts items c) (hwf : Wf s)
    (hbusy : s.handler = .busy item) (hmailbox : s.mailboxes item.msg.channel = some n) :
    Delivered n { s with
        filters := (s.filtered item.msg).2
        handler := if (s.filtered item.msg).1 = [] then .waiting
          else .holding item n [.post (s.filtered item.msg).1] } posts (items ++ [item]) c := by
  have htable := hwf.table_of_mailbox hmailbox
  obtain rfl : item.msg.channel = c :=
    Option.some.inj ((channel_of_table hwf htable).symm.trans h.channel)
  obtain ⟨p, hp, hshows⟩ := h.filter htable
  obtain ⟨hout, hnext⟩ := hshows.feed item.msg.payload
  have hfiltered : s.filtered item.msg = ((ReturnFilter.feed p item.msg.payload).1,
      Function.update s.filters item.msg.channel
        (some (ReturnFilter.feed p item.msg.payload).2)) := by
    simp only [filtered, hp]
  have hposted := h.posted
  rw [hbusy] at hposted
  refine ⟨h.channel, ?_, fun _ => ?_, ?_⟩
  · rw [List.map_append, List.map_singleton, ReturnFilter.View.passAll_snoc, ← hposted, hfiltered]
    dsimp only
    rw [ReturnFilter.View.pass, Item.write, ← hout]
    split_ifs
    · simp [SendHandler.held]
    · simp [SendHandler.held, postsOf]
  · rw [List.map_append, List.map_singleton, ReturnFilter.View.after_snoc, hfiltered]
    exact ⟨_, Function.update_self .., hnext⟩
  · intro item' hitem'
    dsimp only at hitem'
    split_ifs at hitem'

/-- A payload is taken up for another session. -/
theorem Delivered.other_payload (h : Delivered n s posts items c) (hwf : Wf s)
    (hbusy : s.handler = .busy item) {m : ℕ} (hmailbox : s.mailboxes item.msg.channel = some m)
    (hne : m ≠ n) :
    Delivered n { s with
        filters := (s.filtered item.msg).2
        handler := if (s.filtered item.msg).1 = [] then .waiting
          else .holding item m [.post (s.filtered item.msg).1] } posts items c := by
  refine h.turns (by rw [hbusy]; rfl) h.channel ?_ (fun htable => ⟨htable, ?_⟩) ?_
  · dsimp only
    split_ifs
    · rfl
    · simp [SendHandler.held, postsOf, hne]
  · dsimp only [filtered]
    split
    · rfl
    · exact filters_update_of_ne (hwf.table_of_mailbox hmailbox) hne _ htable
  · intro item' hitem'
    dsimp only at hitem'
    split_ifs at hitem'

theorem dispatch_none (haction : item.msg.action = .none) {m : ℕ}
    (hmailbox : s.mailboxes item.msg.channel = some m) :
    (s.dispatch item).1 = { s with
      filters := (s.filtered item.msg).2
      handler := if (s.filtered item.msg).1 = [] then .waiting
        else .holding item m [.post (s.filtered item.msg).1] } := by
  simp only [Gmlbroker.dispatch, haction, hmailbox]
  split_ifs <;> rfl

/-- The session is approved. -/
theorem delivered_approved (hwf : Wf s) (hmatching : s.matching item.msg = some n) :
    Delivered n { s with
        sessions := s.setFlag n
        filters := Function.update s.filters item.msg.channel (some ReturnFilter.fresh)
        handler := .waiting } [] [] item.msg.channel := by
  obtain ⟨entry, hentry, rfl, -⟩ := exists_entry_of_matching hmatching
  have hchannel := channel_of_table hwf (hwf.table_of_entry hentry)
  refine ⟨channel_map hchannel fun _ => rfl, rfl, fun _ => ?_, by simp⟩
  exact ⟨_, Function.update_self .., ReturnFilter.shows_fresh⟩

variable {r : Return}

theorem Consistent.dispatch (h : Consistent n s r) (hwf : Wf s) (hbusy : s.handler = .busy item) :
    Consistent n (s.dispatch item).1 (r.note n s .handle (s.dispatch item).2) := by
  have htaken : s.takenUp .handle = some item := by simp [takenUp, hbusy]
  have hold : s.handler.held n = [] := by rw [hbusy]; rfl
  -- the handler turns to the next message
  have hidle : Consistent n { s with handler := .waiting } r := by
    intro items hitems
    obtain ⟨c, hd⟩ := h items hitems
    exact ⟨c, hd.turns hold hd.channel rfl (fun htable => ⟨htable, rfl⟩) (by simp)⟩
  rw [Return.note, htaken]
  dsimp only
  cases haction : item.msg.action with
  | none =>
    dsimp only
    cases hmailbox : s.mailboxes item.msg.channel with
    | none =>
      simp only [Gmlbroker.dispatch, haction, hmailbox, reduceCtorEq, if_false]
      exact hidle
    | some m =>
      rw [dispatch_none haction hmailbox]
      by_cases hmn : m = n
      · subst hmn
        rw [if_pos rfl]
        intro items' hitems'
        obtain ⟨items, hitems, rfl⟩ := Option.map_eq_some_iff.mp hitems'
        obtain ⟨c, hd⟩ := h items hitems
        exact ⟨c, hd.payload hwf hbusy hmailbox⟩
      · have hother : ¬some m = some n := by simpa using hmn
        rw [if_neg hother]
        intro items hitems
        obtain ⟨c, hd⟩ := h items hitems
        exact ⟨c, hd.other_payload hwf hbusy hmailbox hmn⟩
  | createChannel =>
    simp only [Gmlbroker.dispatch, haction]
    exact hidle
  | shutdownChannel =>
    dsimp only
    split_ifs with hown
    · intro items hitems
      cases hitems
    · intro items hitems
      obtain ⟨c, hd⟩ := h items hitems
      have hc : c ≠ item.msg.channel := by
        rintro rfl
        exact hown hd.channel
      refine ⟨c, ?_⟩
      simp only [Gmlbroker.dispatch, haction]
      split
      · exact hd.turns hold hd.channel rfl
          (fun htable => ⟨htable, Function.update_of_ne hc ..⟩) (by simp)
      · exact hd.turns hold hd.channel (by simp [SendHandler.held, postsOf])
          (fun htable => ⟨htable, Function.update_of_ne hc ..⟩) (by simp)
  | approval =>
    dsimp only
    cases hmatching : s.matching item.msg with
    | none =>
      simp only [Gmlbroker.dispatch, haction, hmatching, reduceCtorEq, if_false]
      exact hidle
    | some m =>
      obtain ⟨entry, hentry, rfl, -⟩ := exists_entry_of_matching hmatching
      have hholds := hwf.table_of_entry hentry
      simp only [Gmlbroker.dispatch, haction, hmatching]
      by_cases hmn : entry.session = n
      · subst hmn
        simp only [if_true]
        split_ifs
        · intro items hitems
          cases hitems
          exact ⟨_, delivered_approved hwf hmatching⟩
        · intro items hitems
          cases hitems
      · have hother : ¬some entry.session = some n := by simpa using hmn
        rw [if_neg hother]
        intro items hitems
        obtain ⟨c, hd⟩ := h items hitems
        refine ⟨c, ?_⟩
        split_ifs
        · refine hd.turns hold (channel_map hd.channel fun _ => rfl) rfl ?_ (by simp)
          exact fun htable => ⟨htable, filters_update_of_ne hholds hmn _ htable⟩
        · refine hd.turns hold hd.channel rfl (fun htable => ⟨htable, rfl⟩) ?_
          rintro _ ⟨⟩ htable
          exact hmn (Option.some.inj (hholds.symm.trans htable))

theorem Return.note_of_none {e : Event} {out : List Effect} (h : s.takenUp e = none) :
    r.note n s e out = { r with posts := r.posts ++ out.flatMap (postsOf n) } := by
  rw [Return.note, h]

theorem Consistent.handle (h : Consistent n s r) (hwf : Wf s) :
    Consistent n s.handle.1 (r.note n s .handle s.handle.2) := by
  cases hh : s.handler with
  | busy item =>
    have hstep : s.handle = s.dispatch item := by simp only [Gmlbroker.handle, hh]
    rw [hstep]
    exact h.dispatch hwf hh
  | waiting =>
    have htaken : s.takenUp .handle = none := by simp [takenUp, hh]
    have hold : s.handler.held n = [] := by rw [hh]; rfl
    rw [Return.note_of_none htaken]
    simp only [Gmlbroker.handle, hh]
    intro items hitems
    obtain ⟨c, hd⟩ := h items hitems
    refine ⟨c, ?_⟩
    split
    · simpa using hd
    · show Delivered n _ (r.posts ++ []) items c
      rw [List.append_nil]
      exact hd.turns hold hd.channel rfl (fun htable => ⟨htable, rfl⟩) (by simp)
  | matched item =>
    have htaken : s.takenUp .handle = none := by simp [takenUp, hh]
    have hold : s.handler.held n = [] := by rw [hh]; rfl
    rw [Return.note_of_none htaken]
    simp only [Gmlbroker.handle, hh]
    intro items hitems
    obtain ⟨c, hd⟩ := h items hitems
    refine ⟨c, ?_⟩
    split
    · show Delivered n _ (r.posts ++ []) items c
      rw [List.append_nil]
      exact hd.turns hold hd.channel rfl (fun htable => ⟨htable, rfl⟩) (by simp)
    · next m hm =>
      -- the mailbox belongs to a session that holds the channel, which is not this one
      have hmn : m ≠ n := by
        rintro rfl
        exact hd.matched item hh (hwf.table_of_mailbox hm)
      show Delivered n _ (r.posts ++ []) items c
      rw [List.append_nil]
      exact hd.turns hold hd.channel (by simp [SendHandler.held, postsOf, hmn])
        (fun htable => ⟨htable, rfl⟩) (by simp)
  | holding item m mails =>
    have htaken : s.takenUp .handle = none := by simp [takenUp, hh]
    rw [Return.note_of_none htaken]
    intro items hitems
    obtain ⟨c, hd⟩ := h items hitems
    have hposted := hd.posted
    rw [hh] at hposted
    refine ⟨c, ?_⟩
    cases mails with
    | nil =>
      simp only [Gmlbroker.handle, hh]
      show Delivered n _ (r.posts ++ []) items c
      rw [List.append_nil]
      exact hd.turns (by rw [hh]; rfl) hd.channel rfl (fun htable => ⟨htable, rfl⟩) (by simp)
    | cons mail mails =>
      simp only [Gmlbroker.handle, hh]
      refine ⟨channel_map hd.channel fun _ => rfl, ?_, hd.filter, by simp⟩
      rw [← hposted]
      simp [SendHandler.held]

theorem postsOf_step {e : Event} (he : e ≠ .handle) :
    (s.step ids e).2.flatMap (postsOf n) = [] := by
  rw [List.flatMap_eq_nil_iff]
  intro effect heffect
  cases effect with
  | mailed m item mail => exact absurd (mailed_step heffect).1 he
  | _ => rfl

theorem Consistent.step (h : Consistent n s r) (hwf : Wf s) (e : Event) :
    Consistent n (s.step ids e).1 (r.note n s e (s.step ids e).2) := by
  by_cases he : e = .handle
  · subst he
    exact h.handle hwf
  · have htaken : s.takenUp e = none := by
      cases e <;> first | rfl | exact absurd rfl he
    rw [Return.note_of_none htaken, postsOf_step he, List.append_nil]
    intro items hitems
    obtain ⟨c, hd⟩ := h items hitems
    exact ⟨c, hd.aside (aside_step hwf hd.channel he)⟩

end Handler

end

theorem consistent_run (ids : ℕ → ℕ → Bytes) (n : ℕ) (es : List Event) :
    Consistent n ((machine ids).run es) (returned ids n es) := by
  refine Machine.invariant (M := machine ids)
    (P := fun es s => Consistent n s (returned ids n es)) ?_ ?_ es
  · intro items hitems
    cases hitems
  · intro es e ih
    rw [returned, Machine.observe_snoc]
    exact ih.step (wf_run ids es) e

theorem Return.faked_note {s : Gmlbroker} {n : ℕ} {r : Return} (h : Faked s)
    (hr : ∀ items, r.items = some items → ∀ item ∈ items, item.Faked) (e : Event) (out : List Effect) :
    ∀ items, (r.note n s e out).items = some items → ∀ item ∈ items, item.Faked := by
  intro items hitems
  rw [Return.note] at hitems
  split at hitems
  · exact hr items hitems
  · next item htaken =>
    have hbusy : s.handler = .busy item := by
      unfold takenUp at htaken
      split at htaken
      · split at htaken
        · next hh =>
          cases htaken
          exact hh
        · cases htaken
      · cases htaken
    split at hitems
    · split_ifs at hitems
      · obtain ⟨before, hbefore, rfl⟩ := Option.map_eq_some_iff.mp hitems
        intro x hx
        rcases List.mem_append.mp hx with hx | hx
        · exact hr before hbefore x hx
        · cases List.mem_singleton.mp hx
          exact h.busy item hbusy
      · exact hr items hitems
    · exact hr items hitems
    · split_ifs at hitems
      exact hr items hitems
    · split_ifs at hitems
      · cases hitems
        simp
      · exact hr items hitems

/-- The messages that do not come from the bridge are acks. -/
theorem faked_items (ids : ℕ → ℕ → Bytes) (n : ℕ) (es : List Event) :
    ∀ items, (returned ids n es).items = some items → ∀ item ∈ items, item.Faked := by
  refine Machine.invariant (M := machine ids) (P := fun es _ =>
    ∀ items, (returned ids n es).items = some items → ∀ item ∈ items, item.Faked) ?_ ?_ es
  · intro items hitems
    cases hitems
  · intro es e ih
    rw [returned, Machine.observe_snoc]
    exact Return.faked_note (faked_run ids es) ih e _

/-- Over every run, if the payloads that are taken up for a session since its approval begin
the output of guacd, and every ack is queued where the payloads in front of it end with an
instruction, then everything behind the `ready` is posted, and every instruction of guacd and
every ack in one piece. What the handler is about to post counts as posted. -/
theorem intact_of_aligned {limit : ℕ} (ids : ℕ → ℕ → Bytes) (n : ℕ) (es : List Event)
    (o : Output limit) (items : List Item) (hitems : (returned ids n es).items = some items)
    (hguacd : (writesOf .bridge (items.map Item.write)).flatten <+: o.bytes)
    (haligned : ReturnFilter.Aligned .bridge o (items.map Item.write)) :
    ReturnFilter.Intact .bridge o (items.map Item.write)
      ((returned ids n es).posts ++ ((machine ids).run es).handler.held n) := by
  have hacks : ∀ w ∈ items.map Item.write, w.1 ≠ .bridge → ClipboardAckFaker.Acks w.2 := by
    intro w hw hne
    obtain ⟨item, hitem, rfl⟩ := List.mem_map.mp hw
    exact faked_items ids n es items hitems item hitem hne
  obtain ⟨c, hdelivered⟩ := consistent_run ids n es items hitems
  rw [hdelivered.posted]
  exact ReturnFilter.intact_of_passes (ReturnFilter.passes_of_aligned hguacd hacks haligned) hguacd
    hacks haligned

/-- The first session is approved. -/
def admittedRun : List Event :=
  [.accept, .register, .register, .wake 0 (.read (ascii "7.connect,2.ip;") (ascii "0123456789e8")),
    .perform 0, .perform 0, .perform 0,
    .datagram (Multiplexer.serialize
      { channel := 0, action := .approval, payload := approvalApprove :: ascii "0123456789e8" }),
    .handle, .handle, .wake 0 .timeout, .perform 0]

/-- A payload of guacd is posted to the first session. -/
def drawn (data : Bytes) : List Event :=
  [.datagram (Multiplexer.serialize { channel := 0, payload := data }), .handle, .handle, .handle,
    .handle]

/-- The first session pastes what the guard drops, and its reader fakes the ack. -/
def pasted : List Event :=
  [.wake 0 (.read (ascii "9.clipboard,1.3,1.t;4.blob,1.3,67." ++ List.replicate 67 97 ++ ascii ";")
      (ascii "0123456789ab")),
    .perform 0, .perform 0, .handle, .handle, .handle, .handle]

/-- A handshake without a reply, and one sync. -/
def syncOutput : Output maxElementSize where
  reply := []
  reply_opcode := by simp
  ready := .ofValues [ascii "ready", ascii "k"] (by decide) (by decide +kernel)
  ready_opcode := rfl
  drawing := [.ofValues [ascii "sync", ascii "7"] (by decide) (by decide +kernel)]

def wholeRun : List Event := admittedRun ++ drawn (ascii "5.ready,1.k;4.sync,1.7;") ++ pasted

/-- The messages of a session as writes. -/
def writes (n : ℕ) (es : List Event) : Option (List (Origin × Bytes)) :=
  (returned (fun _ _ => []) n es).items.map (List.map Item.write)

theorem exists_items_of_writes {n : ℕ} {es : List Event} {ws : List (Origin × Bytes)}
    (h : writes n es = some ws) :
    ∃ items, (returned (fun _ _ => []) n es).items = some items ∧ items.map Item.write = ws :=
  Option.map_eq_some_iff.mp h

/-- The ack is posted behind the sync. -/
theorem intact_wholeRun :
    (returned (fun _ _ => []) 0 wholeRun).posts =
        [(.bridge, ascii "4.sync,1.7;"), (.reader 0, ascii "3.ack,1.3,2.OK,1.0;")] ∧
      ∃ items, (returned (fun _ _ => []) 0 wholeRun).items = some items ∧
        ReturnFilter.Intact .bridge syncOutput (items.map Item.write)
          ((returned (fun _ _ => []) 0 wholeRun).posts ++
            ((machine fun _ _ => []).run wholeRun).handler.held 0) := by
  have hws : writes 0 wholeRun = some [(.bridge, ascii "5.ready,1.k;4.sync,1.7;"),
      (.reader 0, ascii "3.ack,1.3,2.OK,1.0;")] := by
    decide +kernel
  obtain ⟨items, hitems, hmap⟩ := exists_items_of_writes hws
  refine ⟨by decide +kernel, items, hitems, ?_⟩
  refine intact_of_aligned _ 0 wholeRun syncOutput items hitems ?_ ?_
  · rw [hmap]
    decide +kernel
  · rw [hmap]
    intro pre w post hsplit hw
    rcases pre with _ | ⟨w₁, _ | ⟨w₂, pre⟩⟩
    · cases hsplit
      exact absurd rfl hw
    · cases hsplit
      exact .inr ⟨_, List.prefix_rfl, by decide +kernel⟩
    · simp at hsplit

/-- The payload ends inside the sync when the ack is queued. -/
def splitRun : List Event :=
  admittedRun ++ drawn (ascii "5.ready,1.k;4.sync,1") ++ pasted ++ drawn (ascii ".7;")

/-- The ack is posted into the middle of the sync. -/
theorem not_intact_splitRun :
    ∃ items, (returned (fun _ _ => []) 0 splitRun).items = some items ∧
      (writesOf .bridge (items.map Item.write)).flatten = syncOutput.bytes ∧
      ¬ReturnFilter.Intact .bridge syncOutput (items.map Item.write)
        ((returned (fun _ _ => []) 0 splitRun).posts ++
          ((machine fun _ _ => []).run splitRun).handler.held 0) := by
  have hws : writes 0 splitRun = some [(.bridge, ascii "5.ready,1.k;4.sync,1"),
      (.reader 0, ascii "3.ack,1.3,2.OK,1.0;"), (.bridge, ascii ".7;")] := by
    decide +kernel
  obtain ⟨items, hitems, hmap⟩ := exists_items_of_writes hws
  have hposts : (returned (fun _ _ => []) 0 splitRun).posts ++
      ((machine fun _ _ => []).run splitRun).handler.held 0 = [(.bridge, ascii "4.sync,1")] ++
        (.reader 0, ascii "3.ack,1.3,2.OK,1.0;") :: [(.bridge, ascii ".7;")] := by
    decide +kernel
  refine ⟨items, hitems, by rw [hmap]; decide +kernel, ?_⟩
  rintro (⟨rest, -, -, hshuffled⟩ | ⟨-, hnil⟩)
  · obtain ⟨js, hjs⟩ := boundary_of_shuffled hshuffled hposts (by decide) (by decide)
    rw [writesOf_cons_self, writesOf_nil, List.flatten_singleton] at hjs
    have hread : ((Cursor.start : Cursor maxElementSize).read (ascii "4.sync,1")).map
        (fun r => r.2.bytes) = some [] := by
      rw [hjs, Cursor.read_wire]
      rfl
    exact absurd hread (by decide +kernel)
  · rw [hposts] at hnil
    cases hnil

end Gmlbroker

end GuacamoleDiode
