import GuacamoleDiode.Gcdbroker.Descriptors

/-!
# The broker as a router

An abstract view of the broker: a queue of messages that are routed, in order, to the
connections that their channels are bound to. It forgets the descriptors, the locks and
the program counters. Every step of the threads is a move of the router, so that what the
moves keep holds for every interleaving of the threads.

## Main definitions

- `Router`: the pending messages and the connections of the channels
- `Move`: everything that one step can do to them
- `Gcdbroker.router`: the view of a state

## Main results

- `move`: a step of the broker is a move of the router
-/

namespace GuacamoleDiode

open Wire

namespace Gcdbroker

/-- The messages that have not been dealt with, and the connections of the channels. -/
structure Router where
  pending : List Item
  bound : UInt16 → Option ℕ
  /-- the number of the next connection that may be bound -/
  next : ℕ

/-- What the router does for a connection. -/
inductive Routed where
  | opened (k : ℕ) (item : Item)
  | wrote (k : ℕ) (item : Item) (data : Bytes)
  deriving DecidableEq, Repr

/-- The guard has approved the channel. -/
def Approves (msg : BridgeMessage) : Prop :=
  msg.action = .approval ∧ verdict msg = approvalApprove

instance (msg : BridgeMessage) : Decidable (Approves msg) := inferInstanceAs (Decidable (_ ∧ _))

/-- A table only loses entries. -/
def Shrinks {α : Type} (table table' : α → Option ℕ) : Prop :=
  ∀ a n, table' a = some n → table a = some n

theorem Shrinks.refl {α : Type} (table : α → Option ℕ) : Shrinks table table := fun _ _ h => h

theorem shrinks_update {α : Type} [DecidableEq α] (table : α → Option ℕ) (a : α) :
    Shrinks table (Function.update table a none) := by
  intro b n hn
  exact (Table.of_update_none hn).2

/-- Everything that a step can do to the router. It may add messages to the queue. If it
refuses an approval, the channel keeps the connection that it has. -/
inductive Move (refused : Prop) (r r' : Router) : List Item → List Routed → Prop where
  | push {pushed : List Item} (pending : r'.pending = r.pending ++ pushed)
      (bound : Shrinks r.bound r'.bound) (next : r'.next = r.next) : Move refused r r' pushed []
  | drop (item : Item) (pending : r.pending = item :: r'.pending)
      (action : item.msg.action ≠ .shutdownChannel)
      (unbound : item.msg.action = .none → r.bound item.msg.channel = none)
      (approval : Approves item.msg → refused ∨ r.bound item.msg.channel = none)
      (bound : Shrinks r.bound r'.bound) (next : r.next ≤ r'.next) : Move refused r r' [] []
  | bind (item : Item) (k : ℕ) (pending : r.pending = item :: r'.pending)
      (approval : Approves item.msg) (unbound : r.bound item.msg.channel = none)
      (bound : r'.bound = Function.update r.bound item.msg.channel (some k))
      (number : k = r.next) (next : r'.next = k + 1) : Move refused r r' [] [.opened k item]
  | shut (item : Item) (pending : r.pending = item :: r'.pending)
      (action : item.msg.action = .shutdownChannel)
      (bound : r'.bound = Function.update r.bound item.msg.channel none)
      (next : r'.next = r.next) : Move refused r r' [] []
  | write (item : Item) (k : ℕ) (data : Bytes) (pending : r.pending = item :: r'.pending)
      (action : item.msg.action = .none) (connected : r.bound item.msg.channel = some k)
      (beginning : data <+: item.msg.payload)
      (complete : data = item.msg.payload ∨ r'.bound item.msg.channel = none)
      (bound : Shrinks r.bound r'.bound) (next : r'.next = r.next) :
      Move refused r r' [] [.wrote k item data]

/-- The connection that a channel is bound to in the table. -/
def lookup (s : Gcdbroker) (c : UInt16) : Option ℕ := (s.table c).bind s.sockets

/-- The message in the hands of the handler. -/
def SendHandler.held : SendHandler → List Item
  | .busy item _ => [item]
  | _ => []

/-- The connection that a channel is bound to as far as the handler is concerned: what it
has looked up counts until it has been written. -/
def bound (s : Gcdbroker) (c : UInt16) : Option ℕ :=
  match s.handler with
  | .busy item (.routed fd) => if item.msg.channel = c then s.sockets fd else s.lookup c
  | .failed channel => if channel = c then none else s.lookup c
  | _ => s.lookup c

/-- The number of the next connection that may be bound. -/
def next (s : Gcdbroker) : ℕ :=
  match s.handler with
  | .busy _ (.dialed _ k) => k
  | _ => s.dialed

/-- The router that the state amounts to. -/
def router (s : Gcdbroker) : Router where
  pending := s.handler.held ++ s.recvQueue
  bound := s.bound
  next := s.next

/-- The messages that a step adds to the receive queue. -/
def queued (s : Gcdbroker) (e : Event) : List Item :=
  ((arrival e).map fun msg => ⟨.bridge s.arrived, msg⟩).toList ++ (s.ackOf e).toList

/-- An approval is refused because the dial fails or comes too late, while the channel is
bound to an earlier connection. -/
def refuses (s : Gcdbroker) (e : Event) : Bool :=
  match s.handler, e with
  | .busy item .fetched, .dial none =>
    decide (Approves item.msg) && (s.table item.msg.channel).isSome
  | .busy item (.dialed _ _), .handle => (s.table item.msg.channel).isSome
  | _, _ => false

/-- What an effect means to the router. -/
def Effect.routed : Effect → Option Routed
  | .insert k item => some (.opened k item)
  | .write k item data => some (.wrote k item data)
  | _ => none

/-- What the effects of a step mean to the router. -/
def routes (effects : List Effect) : List Routed := effects.filterMap Effect.routed

section

variable {s s' : Gcdbroker} {item : Item} {refused : Prop}

/-- The handler is not in the middle of a write. -/
def SendHandler.Settled : SendHandler → Prop
  | .busy _ (.routed _) | .failed _ => False
  | _ => True

theorem bound_of_settled (h : s.handler.Settled) : s.bound = s.lookup := by
  funext c
  unfold bound
  split
  · next hh => simp [hh, SendHandler.Settled] at h
  · next hh => simp [hh, SendHandler.Settled] at h
  · rfl

theorem routed_shutdown (fd : Option ℕ) :
    routes (fd.toList.map Effect.shutdown) = [] := by
  cases fd <;> rfl

/-- A step that leaves the handler alone adds to the queue and takes entries from the tables. -/
theorem move_push {pushed : List Item} (hqueue : s'.recvQueue = s.recvQueue ++ pushed)
    (hhandler : s'.handler = s.handler) (htable : Shrinks s.table s'.table)
    (hsockets : Shrinks s.sockets s'.sockets) (hdialed : s'.dialed = s.dialed) :
    Move refused s.router s'.router pushed [] := by
  have hlookup : Shrinks s.lookup s'.lookup := by
    intro c k hk
    obtain ⟨fd, hfd, hk⟩ := Option.bind_eq_some_iff.mp hk
    exact Option.bind_eq_some_iff.mpr ⟨fd, htable c fd hfd, hsockets fd k hk⟩
  refine .push (by simp [router, hqueue, hhandler]) ?_ (by simp only [router, next, hhandler, hdialed])
  intro c k hk
  simp only [router, bound, hhandler] at hk ⊢
  split at hk
  · split_ifs at hk ⊢
    · exact hsockets _ k hk
    · exact hlookup c k hk
  · split_ifs at hk ⊢
    exact hlookup c k hk
  · exact hlookup c k hk

/-- Nothing that the router sees has changed. -/
theorem move_refl : Move refused s.router s.router [] [] :=
  move_push (by simp) rfl (.refl _) (.refl _) rfl

theorem move_dispatch (hh : s.handler = .busy item .fetched) :
    Move refused s.router (s.dispatch item).1.router [] (routes (s.dispatch item).2) := by
  have hp : s.router.pending = item :: s.recvQueue := by simp [router, hh, SendHandler.held]
  have hb : s.router.bound = s.lookup := bound_of_settled (by simp [hh, SendHandler.Settled])
  have hn : s.router.next = s.dialed := by simp [router, next, hh]
  unfold dispatch
  split
  · next hact =>
    exact .drop item hp (by simp [hact]) (by simp [hact]) (by simp [Approves, hact])
      (hb ▸ Shrinks.refl _) hn.le
  · next hact =>
    split_ifs with hverdict
    · exact move_refl
    · exact .drop item hp (by simp [hact]) (by simp [hact]) (by simp [Approves, hverdict])
        (hb ▸ Shrinks.refl _) hn.le
  · next hact =>
    dsimp only
    rw [routed_shutdown]
    refine .shut item hp hact ?_ hn.symm
    funext c
    rw [hb]
    by_cases hc : c = item.msg.channel
    · subst hc
      simp [router, bound, lookup]
    · simp [router, bound, lookup, hc]
  · next hact =>
    split
    · next hnone =>
      have hunbound : s.lookup item.msg.channel = none := by simp [lookup, hnone]
      exact .drop item hp (by simp [hact]) (fun _ => hb ▸ hunbound) (by simp [Approves, hact])
        (hb ▸ Shrinks.refl _) hn.le
    · next fd hfd =>
      -- from here on the write counts as bound to what has been looked up
      refine .push (by rw [hp, List.append_nil]; rfl) ?_ hn.symm
      intro c k hk
      rw [hb]
      simp only [router, bound] at hk
      split_ifs at hk with hc
      · subst hc
        simpa [lookup, hfd] using hk
      · exact hk

theorem move_insert {fd k : ℕ} (h : Wf s) (hh : s.handler = .busy item (.dialed fd k)) :
    Move (s.table item.msg.channel ≠ none) s.router (s.insert item fd k).1.router []
      (routes (s.insert item fd k).2) := by
  have hp : s.router.pending = item :: s.recvQueue := by simp [router, hh, SendHandler.held]
  have hb : s.router.bound = s.lookup := bound_of_settled (by simp [hh, SendHandler.Settled])
  have hn : s.router.next = k := by simp [router, next, hh]
  obtain ⟨happ, hsock, -, hk⟩ := h.fresh item fd k hh
  unfold insert
  split
  · next hnone =>
    have hunbound : s.lookup item.msg.channel = none := by simp [lookup, hnone]
    refine .bind item k hp happ (hb ▸ hunbound) ?_ hn.symm hk.symm
    funext c
    rw [hb]
    by_cases hc : c = item.msg.channel
    · subst hc
      simp [router, bound, lookup, hsock]
    · simp [router, bound, lookup, hc]
  · next hsome =>
    refine .drop item hp (by simp [happ.1]) (by simp [happ.1]) (fun _ => .inl (by simp [hsome])) ?_ ?_
    · intro c k' hk'
      rw [hb]
      simp only [router, bound, lookup, Option.bind_eq_some_iff] at hk' ⊢
      obtain ⟨fd', hfd', hk'⟩ := hk'
      refine ⟨fd', hfd', ?_⟩
      by_cases heq : fd' = fd
      · subst heq
        simp at hk'
      · simpa [heq] using hk'
    · rw [hn]
      exact (Nat.le_succ k).trans hk.le

theorem move_handle (h : Wf s) :
    Move (s.refuses .handle = true) s.router s.handle.1.router [] (routes s.handle.2) := by
  unfold handle
  split
  · next hh =>
    have hb : s.router.bound = s.lookup := bound_of_settled (by simp [hh, SendHandler.Settled])
    split
    · exact move_refl
    · next item rest hq =>
      exact .push (by simp [router, hh, hq, SendHandler.held]) (hb ▸ Shrinks.refl _)
        (by simp [router, next, hh])
  · next hh => exact move_dispatch hh
  · next hh =>
    have hmove := move_insert h hh
    simpa only [refuses, hh, Option.isSome_iff_ne_none] using hmove
  · exact move_refl
  · next hh =>
    have hb : s.router.bound = s.lookup := bound_of_settled (by simp [hh, SendHandler.Settled])
    exact .push (by simp [router, hh, SendHandler.held]) (hb ▸ Shrinks.refl _)
      (by simp [router, next, hh])
  · next channel hh =>
    dsimp only
    rw [routed_shutdown]
    refine .push (by simp [router, hh, SendHandler.held]) ?_ (by simp [router, next, hh])
    intro c k hk
    simp only [router, bound, hh, lookup] at hk ⊢
    by_cases hc : channel = c
    · subst hc
      simp at hk
    · simpa [hc, Ne.symm hc] using hk

theorem move_dial (h : Wf s) (fd : Option ℕ) :
    Move (s.refuses (.dial fd) = true) s.router (s.dial fd).1.router []
      (routes (s.dial fd).2) := by
  unfold dial
  split
  · next item hh =>
    have hp : s.router.pending = item :: s.recvQueue := by simp [router, hh, SendHandler.held]
    have hb : s.router.bound = s.lookup := bound_of_settled (by simp [hh, SendHandler.Settled])
    have hn : s.router.next = s.dialed := by simp [router, next, hh]
    split_ifs with happ
    · split
      · refine .drop item hp (by simp [happ.1]) (by simp [happ.1]) (fun _ => ?_)
          (hb ▸ Shrinks.refl _) hn.le
        by_cases hnone : s.table item.msg.channel = none
        · exact .inr (by simp [hb, lookup, hnone])
        · exact .inl (by simpa [refuses, hh, Option.isSome_iff_ne_none] using ⟨happ, hnone⟩)
      · next fd =>
        split_ifs with hclosed
        · refine .push (by rw [hp, List.append_nil]; rfl) ?_ hn.symm
          intro c k hk
          rw [hb]
          simp only [router, bound, lookup, Option.bind_eq_some_iff] at hk ⊢
          obtain ⟨fd', hfd', hk⟩ := hk
          obtain ⟨k', -, hk', -⟩ := h.listed c fd' hfd'
          -- a channel is never bound to the descriptor that is opened here
          have hne : fd' ≠ fd := by
            rintro rfl
            rw [hclosed] at hk'
            cases hk'
          exact ⟨fd', hfd', by simpa [hne] using hk⟩
        · exact move_refl
    · exact move_refl
  · exact move_refl

theorem move_send (h : Wf s) (taken : ℕ) :
    Move refused s.router (s.send taken).1.router [] (routes (s.send taken).2) := by
  unfold send
  split
  · next item fd hh =>
    have hp : s.router.pending = item :: s.recvQueue := by simp [router, hh, SendHandler.held]
    have hn : s.router.next = s.dialed := by simp [router, next, hh]
    have hb : s.bound item.msg.channel = s.sockets fd := by simp [bound, hh]
    obtain ⟨hact, htable⟩ := h.routed item fd hh
    -- the channel may have been removed in the meantime
    have hlookup : Shrinks s.bound s.lookup := by
      intro c k hk
      by_cases hc : item.msg.channel = c
      · subst hc
        rw [hb]
        rcases htable with htable | htable
        · simpa [lookup, htable] using hk
        · simp [lookup, htable] at hk
      · simpa [bound, hh, hc] using hk
    have hfailed : Shrinks s.bound fun c => if item.msg.channel = c then none else s.lookup c := by
      intro c k hk
      dsimp only at hk
      split_ifs at hk with hc
      exact hlookup c k hk
    split
    · next k hk =>
      dsimp only
      split_ifs with hlt
      · exact .write item k _ hp hact (hb.trans hk) (List.take_prefix _ _)
          (.inr (by simp [router, bound])) hfailed hn.symm
      · exact .write item k _ hp hact (hb.trans hk) (List.take_prefix _ _)
          (.inl (List.take_of_length_le (Nat.not_lt.mp hlt))) hlookup hn.symm
    · next hk =>
      dsimp only
      split_ifs
      · exact .drop item hp (by simp [hact]) (fun _ => hb.trans hk) (by simp [Approves, hact])
          hfailed hn.le
      · exact .drop item hp (by simp [hact]) (fun _ => hb.trans hk) (by simp [Approves, hact])
          hlookup hn.le
  · exact move_refl

theorem move_read {k : ℕ} {r : Reader} (hr : s.readers k = some r) :
    Move refused s.router (s.read k r).1.router (s.ackOf (.read k)).toList
      (routes (s.read k r).2) := by
  have hack : ∀ stage, r.stage = stage → (∀ data due, stage ≠ .feeding data due) →
      (s.ackOf (.read k)).toList = [] := by
    rintro stage rfl hstage
    cases hs : r.stage with
    | feeding data due => exact absurd hs (hstage data due)
    | _ => simp [ackOf, hr, hs]
  unfold read
  split
  · next hstage =>
    rw [hack _ hstage (by simp)]
    exact move_refl
  · exact move_push rfl rfl (.refl _) (.refl _) rfl
  · next hstage =>
    rw [hack _ hstage (by simp)]
    exact move_push (by simp) rfl (shrinks_update _ _) (.refl _) rfl
  · next hstage =>
    rw [hack _ hstage (by simp)]
    exact move_refl
  · next hstage =>
    rw [hack _ hstage (by simp)]
    exact move_push (by simp) rfl (.refl _) (shrinks_update _ _) rfl

/-- Every step of the broker is a move of the router. -/
theorem move (h : Wf s) (e : Event) :
    Move (s.refuses e = true) s.router (s.step e).1.router (s.queued e) (routes (s.step e).2) := by
  cases e with
  | datagram data =>
    simp only [step, queued, ackOf, Option.toList_none, List.append_nil]
    split
    · next hnone =>
      rw [hnone]
      exact move_refl
    · next msg hmsg => exact move_push (by simp [hmsg]) rfl (.refl _) (.refl _) rfl
  | handle => exact move_handle h
  | dial fd => exact move_dial h fd
  | send taken => exact move_send h taken
  | receive k data due =>
    simp only [step]
    split
    · exact move_refl
    · unfold receive
      split_ifs
      · dsimp only
        split_ifs
        · exact move_refl
        · exact move_refl
      · exact move_refl
  | timeout k due => exact move_push rfl rfl (.refl _) (.refl _) rfl
  | read k =>
    simp only [step]
    split
    · next hnone =>
      have hack : s.queued (.read k) = [] := by simp [queued, arrival, ackOf, hnone]
      rw [hack]
      exact move_refl
    · next hr => exact move_read hr
  | transmit =>
    simp only [step]
    split
    · exact move_refl
    · exact move_refl

end

end Gcdbroker

end GuacamoleDiode
