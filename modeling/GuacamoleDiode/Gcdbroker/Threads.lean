import GuacamoleDiode.Gcdbroker.Descriptors
import GuacamoleDiode.Lib.Custody

/-!
# The calls of the handler

The broker takes a descriptor from the table and shuts it down in one step, and so it does with
a refused insertion and the close behind it. In `Threads` these are two steps each, and the
other threads may come between them.

The handler dials guacd and gives each descriptor to a reader of its own, by way of the channel
table. In terms of custody the handler opens, the readers are the workers, and the channels are
the keys of the table.

## Main definitions

- `Threads`: the broker, with the call that its handler still has to make
- `custody`: the state in terms of custody

## Main results

- `custody_step`: a step of the threads is a step of the custody
-/

namespace GuacamoleDiode

open Wire

namespace Gcdbroker

/-- The threads of the broker. A reader has the number of its connection. -/
inductive Thread where
  | receiver
  | handler
  | reader (k : ℕ)
  | sender
  deriving DecidableEq, Repr

/-- The thread that takes a step. -/
def Event.thread : Event → Thread
  | .datagram _ => .receiver
  | .handle | .dial _ | .send _ => .handler
  | .receive k _ _ | .timeout k _ | .read k => .reader k
  | .transmit => .sender

/-- The call that the handler makes before anything else. -/
inductive Call where
  | none
  /-- `Shutdown` of a descriptor that has been removed from the table -/
  | shutdown (fd : ℕ)
  /-- `Close` of a descriptor that could not be inserted -/
  | close
  deriving DecidableEq, Repr

/-- The descriptor that is shut down. -/
def Effect.shutdownFd : Effect → Option ℕ
  | .shutdown fd => some fd
  | _ => none

/-- The descriptor that `Connect` returns. -/
def Effect.connected : Effect → Option ℕ
  | .connect _ fd => some fd
  | _ => none

/-- The connection that is bound, and its channel. -/
def Effect.inserted : Effect → Option (ℕ × UInt16)
  | .insert k item => some (k, item.msg.channel)
  | _ => none

/-- The effect neither opens nor closes a descriptor, nor passes one on. -/
def Effect.Plain : Effect → Prop
  | .write _ _ _ | .transmit _ => True
  | _ => False

/-- The channel that the handler looks up in the table, to get or to remove its descriptor. -/
def looksUp (s : Gcdbroker) : Event → Option UInt16
  | .handle =>
    match s.handler with
    | .busy item .fetched =>
      match item.msg.action with
      | .shutdownChannel | .none => some item.msg.channel
      | _ => none
    | .failed channel => some channel
    | _ => none
  | _ => none

/-- `Insert` fails, since the channel is bound. -/
def occupied (s : Gcdbroker) : Event → Bool
  | .handle =>
    match s.handler with
    | .busy item (.dialed _ _) => (s.table item.msg.channel).isSome
    | _ => false
  | _ => false

/-- The broker, with the call that its handler still has to make. The last two fields say which
connections its descriptors have been inserted for. The source does not keep them. -/
structure Threads where
  broker : Gcdbroker := {}
  call : Call := .none
  /-- the connection that has been inserted last under each channel -/
  bound : UInt16 → ℕ := fun _ => 0
  /-- the connection of the descriptor that the handler has looked up last -/
  found : ℕ := 0

namespace Threads

inductive Event where
  | broker (e : Gcdbroker.Event)
  /-- the handler makes its call -/
  | call
  deriving DecidableEq, Repr

/-- The broker takes a step, without the shutdown that may be part of it. -/
def advance (s : Threads) (e : Gcdbroker.Event) : Threads × List (Thread × Effect) :=
  let r := s.broker.step e
  ({ broker := r.1
     call := (r.2.findSome? Effect.shutdownFd).elim s.call .shutdown
     bound := (r.2.findSome? Effect.inserted).elim s.bound fun p => Function.update s.bound p.2 p.1
     found := (s.broker.looksUp e).elim s.found s.bound },
    (r.2.filter fun effect => effect.shutdownFd.isNone).map fun effect => (e.thread, effect))

def step (s : Threads) : Event → Threads × List (Thread × Effect)
  | .broker e =>
    if e.thread = .handler ∧ s.call ≠ .none then (s, [])
    else if s.broker.occupied e then ({ s with call := .close }, [])
    else s.advance e
  | .call =>
    match s.call with
    | .none => (s, [])
    | .shutdown fd => ({ s with call := .none }, [(.handler, .shutdown fd)])
    | .close =>
      match s.broker.handler with
      | .busy item (.dialed fd _) =>
        ({ s with
            broker := { s.broker with
              sockets := Function.update s.broker.sockets fd none
              handler := .relaying (downgrade item.msg) }
            call := .none }, [(.handler, .close fd)])
      | _ => (s, [])

def machine : Machine Threads Event (Thread × Effect) where
  init := {}
  step := step

/-- The descriptor that the handler applies `Send` or `Shutdown` to. -/
def uses (s : Threads) : Event → Option ℕ
  | .broker (.send _) =>
    match s.call, s.broker.handler with
    | .none, .busy _ (.routed fd) => some fd
    | _, _ => none
  | .call =>
    match s.call with
    | .shutdown fd => some fd
    | _ => none
  | _ => none

/-- The descriptor that `Connect` returns. -/
def dialed (p : Thread × Effect) : Option ℕ := p.2.connected

/-- The descriptors that `Connect` has returned, in the order of the connections. -/
def dials (es : List Event) : List ℕ := (machine.emitted es).filterMap dialed

/-- Who closes a connection, by closing the descriptor that stands for it at the moment. -/
def closing (sockets : ℕ → Option ℕ) (k : ℕ) (log : List (Thread × Effect)) : List Thread :=
  log.filterMap fun
    | (who, .close fd) => if sockets fd = some k then some who else none
    | _ => none

/-- Who has closed a connection in a run. -/
def closers (es : List Event) (k : ℕ) : List Thread :=
  machine.collect (fun s e => closing s.broker.sockets k (s.step e).2) es

/-- The connections that `Insert` has bound to their channels. -/
def inserted (log : List (Thread × Effect)) : Set ℕ :=
  {k | ∃ item, (Thread.handler, Effect.insert k item) ∈ log}

/-- What the handler has in its hands. -/
def hand (s : Threads) : Custody.Hand :=
  match s.call, s.broker.handler with
  | .shutdown fd, _ => .taken fd s.found
  | _, .busy _ (.dialed fd k) => .fresh fd k
  | _, .busy _ (.routed fd) => .taken fd s.found
  | _, _ => .empty

/-- The state in terms of custody, with what has happened so far. -/
def custody (s : Threads) (log : List (Thread × Effect)) (closers : ℕ → List Thread) :
    Custody UInt16 Thread where
  files := s.broker.sockets
  opened := log.filterMap dialed
  hand := s.hand
  workers := fun k => (s.broker.readers k).map Reader.fd
  table := fun c => (s.broker.table c).map fun fd => (fd, s.bound c)
  given := inserted log
  closers := closers

/-- A step of the threads is a step of the custody. -/
def Moves (s : Threads) (r : Threads × List (Thread × Effect)) : Prop :=
  ∀ log closers, (log.filterMap dialed).length = s.broker.dialed →
    Custody.Step .handler .reader (s.custody log closers)
      (r.1.custody (log ++ r.2) fun k => closers k ++ closing s.broker.sockets k r.2)

/-- The effects that do not count for custody. -/
def Quiet (log : List (Thread × Effect)) : Prop :=
  ∀ who effect, (who, effect) ∈ log → (∀ k fd, effect ≠ .connect k fd) ∧
    (∀ k item, effect ≠ .insert k item) ∧ ∀ fd, effect ≠ .close fd

/-- The state is well formed: whoever has to shut a descriptor down holds no other one. -/
structure Wf (s : Threads) : Prop where
  broker : Gcdbroker.Wf s.broker
  free : ∀ fd, s.call = .shutdown fd → s.broker.handler.Free

section

variable {s s' : Threads} {log out : List (Thread × Effect)} {k : ℕ}

theorem dialed_of_quiet (h : Quiet out) : (log ++ out).filterMap dialed = log.filterMap dialed := by
  have hnil : out.filterMap dialed = [] := by
    rw [List.filterMap_eq_nil_iff]
    rintro ⟨who, effect⟩ hmem
    cases effect with
    | connect k fd => exact absurd rfl ((h who _ hmem).1 k fd)
    | _ => rfl
  rw [List.filterMap_append, hnil, List.append_nil]

theorem inserted_of_quiet (h : Quiet out) : inserted (log ++ out) = inserted log := by
  ext k
  show (∃ item, _ ∈ log ++ out) ↔ ∃ item, _ ∈ log
  simp only [List.mem_append]
  refine exists_congr fun item => or_iff_left fun hmem => ?_
  exact (h _ _ hmem).2.1 k item rfl

theorem closing_of_quiet (h : Quiet out) (sockets : ℕ → Option ℕ) : closing sockets k out = [] := by
  rw [closing, List.filterMap_eq_nil_iff]
  rintro ⟨who, effect⟩ hmem
  cases effect with
  | close fd => exact absurd rfl ((h who _ hmem).2.2 fd)
  | _ => rfl

/-- What has happened does not count, and only the hand and the table may change. -/
theorem custody_quiet (h : Quiet out) (closers : ℕ → List Thread)
    (hsockets : s'.broker.sockets = s.broker.sockets)
    (hreaders : ∀ k, (s'.broker.readers k).map Reader.fd = (s.broker.readers k).map Reader.fd)
    (hbound : s'.bound = s.bound) :
    s'.custody (log ++ out) (fun k => closers k ++ closing s.broker.sockets k out) =
      { s.custody log closers with
        hand := s'.hand
        table := fun c => (s'.broker.table c).map fun fd => (fd, s.bound c) } := by
  refine Custody.ext hsockets (dialed_of_quiet h) rfl (funext hreaders) ?_ (inserted_of_quiet h) ?_
  · show (fun c => (s'.broker.table c).map fun fd => (fd, s'.bound c)) = _
    rw [hbound]
  · funext k
    show closers k ++ closing s.broker.sockets k out = closers k
    rw [closing_of_quiet h, List.append_nil]

/-- Only the hand and the table change. -/
theorem moves_of_quiet {r : Threads × List (Thread × Effect)} (h : Quiet r.2)
    (hsockets : r.1.broker.sockets = s.broker.sockets)
    (hreaders : ∀ k, (r.1.broker.readers k).map Reader.fd = (s.broker.readers k).map Reader.fd)
    (hbound : r.1.bound = s.bound)
    (hstep : ∀ log closers, Custody.Step .handler .reader (s.custody log closers)
      { s.custody log closers with
        hand := r.1.hand
        table := fun c => (r.1.broker.table c).map fun fd => (fd, s.bound c) }) : Moves s r :=
  fun log closers _ => (hstep log closers).congr (custody_quiet h closers hsockets hreaders hbound).symm

/-- Nothing changes that counts for custody. -/
theorem moves_quiet {r : Threads × List (Thread × Effect)} (h : Quiet r.2)
    (hsockets : r.1.broker.sockets = s.broker.sockets)
    (hreaders : ∀ k, (r.1.broker.readers k).map Reader.fd = (s.broker.readers k).map Reader.fd)
    (hbound : r.1.bound = s.bound) (htable : r.1.broker.table = s.broker.table)
    (hhand : r.1.hand = s.hand) : Moves s r := by
  refine moves_of_quiet h hsockets hreaders hbound fun log closers => ?_
  rw [htable, hhand]
  exact .stay

/-- A channel is removed from the table. -/
theorem map_update_none (table : UInt16 → Option ℕ) (bound : UInt16 → ℕ) (c : UInt16) :
    (fun c' => (Function.update table c none c').map fun fd => (fd, bound c')) =
      Function.update (fun c' => (table c').map fun fd => (fd, bound c')) c none := by
  funext c'
  by_cases hc : c' = c
  · subst hc
    simp
  · simp [hc]

theorem inserted_insert (k : ℕ) (item : Item) :
    inserted (log ++ [(.handler, .insert k item)]) = Insert.insert k (inserted log) := by
  ext j
  constructor
  · rintro ⟨item', hmem⟩
    rcases List.mem_append.mp hmem with hmem | hmem
    · exact .inr ⟨item', hmem⟩
    · cases List.mem_singleton.mp hmem
      exact .inl rfl
  · rintro (rfl | ⟨item', hmem⟩)
    · exact ⟨item, List.mem_append_right _ (List.mem_singleton_self _)⟩
    · exact ⟨item', List.mem_append_left _ hmem⟩

theorem quiet_nil : Quiet [] := fun _ _ hmem => absurd hmem List.not_mem_nil

/-- The handler has nothing to call and looks at no descriptor. -/
theorem hand_of_free (hcall : s.call = .none) (hfree : s.broker.handler.Free) : s.hand = .empty := by
  cases hh : s.broker.handler with
  | busy item stage =>
    obtain rfl := hfree item stage hh
    simp [hand, hcall, hh]
  | _ => simp [hand, hcall, hh]

/-- A channel that is listed under the connection that has been inserted. -/
theorem custody_table {c : UInt16} {fd : ℕ} (hc : s.broker.table c = some fd)
    (closers : ℕ → List Thread) : (s.custody log closers).table c = some (fd, s.bound c) := by
  show (s.broker.table c).map _ = _
  rw [hc]
  rfl

/-- A step of the broker that shuts nothing down and inserts nothing. -/
theorem advance_of_plain {broker' : Gcdbroker} {out : List Effect} {e : Gcdbroker.Event}
    (hstep : s.broker.step e = (broker', out)) (hplain : ∀ effect ∈ out, effect.Plain) :
    s.advance e = ({ s with broker := broker', found := (s.broker.looksUp e).elim s.found s.bound },
      out.map fun effect => (e.thread, effect)) := by
  have hshutdown : ∀ effect ∈ out, effect.shutdownFd = none := by
    intro effect hmem
    have heffect := hplain effect hmem
    cases effect <;> first | rfl | exact heffect.elim
  have hinserted : ∀ effect ∈ out, effect.inserted = none := by
    intro effect hmem
    have heffect := hplain effect hmem
    cases effect <;> first | rfl | exact heffect.elim
  have hfilter : (out.filter fun effect => effect.shutdownFd.isNone) = out := by
    rw [List.filter_eq_self]
    intro effect hmem
    rw [hshutdown effect hmem]
    rfl
  simp only [advance, hstep, List.findSome?_eq_none_iff.mpr hshutdown,
    List.findSome?_eq_none_iff.mpr hinserted, hfilter, Option.elim_none]

/-- A step of the broker that leaves the descriptors and the table alone. -/
theorem moves_advance {broker' : Gcdbroker} {out : List Effect} {e : Gcdbroker.Event}
    (hstep : s.broker.step e = (broker', out)) (hplain : ∀ effect ∈ out, effect.Plain)
    (hsockets : broker'.sockets = s.broker.sockets)
    (hreaders : ∀ k, (broker'.readers k).map Reader.fd = (s.broker.readers k).map Reader.fd)
    (htable : broker'.table = s.broker.table)
    (hhand : ∀ log closers, Custody.Step .handler .reader (s.custody log closers)
      { s.custody log closers with hand := (s.advance e).1.hand }) : Moves s (s.advance e) := by
  rw [advance_of_plain hstep hplain] at hhand ⊢
  refine moves_of_quiet ?_ hsockets hreaders rfl fun log closers => ?_
  · intro who effect hmem
    obtain ⟨effect', hmem', heq⟩ := List.mem_map.mp hmem
    cases heq
    have heffect := hplain effect hmem'
    refine ⟨?_, ?_, ?_⟩
    · rintro k fd rfl
      exact heffect
    · rintro k item rfl
      exact heffect
    · rintro fd rfl
      exact heffect
  · dsimp only at hhand ⊢
    rw [htable]
    exact hhand log closers

/-- The broker does nothing in a step. -/
theorem moves_same {e : Gcdbroker.Event} (hstep : s.broker.step e = (s.broker, []))
    (hlooks : s.broker.looksUp e = none) : Moves s (s.advance e) := by
  have hadvance : s.advance e = (s, []) := by
    rw [advance_of_plain hstep (by simp), hlooks]
    rfl
  rw [hadvance]
  exact moves_quiet quiet_nil rfl (fun _ => rfl) rfl rfl rfl

/-- A step of the handler on the way from one access to the next. -/
theorem moves_free {broker' : Gcdbroker} {e : Gcdbroker.Event} (hempty : s.hand = .empty)
    (hcall : s.call = .none) (hstep : s.broker.step e = (broker', []))
    (hsockets : broker'.sockets = s.broker.sockets) (hreaders : broker'.readers = s.broker.readers)
    (htable : broker'.table = s.broker.table) (hfree : broker'.handler.Free) :
    Moves s (s.advance e) := by
  refine moves_advance hstep (by simp) hsockets (fun k => by rw [hreaders]) htable fun log closers => ?_
  have hhand : (s.advance e).1.hand = s.hand := by
    rw [advance_of_plain hstep (by simp), hempty]
    exact hand_of_free hcall hfree
  rw [hhand]
  exact .stay

/-- `Connect` returns. -/
theorem moves_dial (hcall : s.call = .none) (fd : Option ℕ) : Moves s (s.advance (.dial fd)) := by
  cases hh : s.broker.handler with
  | busy item stage =>
    cases stage with
    | fetched =>
      have hempty := hand_of_free hcall (hh ▸ free_fetched item)
      by_cases happroved : item.msg.action = .approval ∧ verdict item.msg = approvalApprove
      · cases fd with
        | none =>
          have hstep : s.broker.step (.dial none) =
              ({ s.broker with handler := .relaying (downgrade item.msg) }, []) := by
            simp [Gcdbroker.step, Gcdbroker.dial, hh, happroved]
          exact moves_free hempty hcall hstep rfl rfl rfl (free_relaying _)
        | some fd =>
          by_cases hfree : s.broker.sockets fd = none
          · intro log closers hlen
            have hadvance : s.advance (.dial (some fd)) =
                ({ s with broker := { s.broker with
                    sockets := Function.update s.broker.sockets fd (some s.broker.dialed)
                    dialed := s.broker.dialed + 1
                    handler := .busy item (.dialed fd s.broker.dialed) } },
                  [(.handler, .connect s.broker.dialed fd)]) := by
              simp [advance, Gcdbroker.step, Gcdbroker.dial, hh, happroved, hfree, looksUp,
                Effect.shutdownFd, Effect.inserted, Event.thread]
            refine (Custody.Step.opens fd hfree hempty).congr ?_
            have hnumber : (s.custody log closers).opened.length = s.broker.dialed := hlen
            rw [hadvance, hnumber]
            refine Custody.ext rfl ?_ ?_ rfl rfl ?_ ?_
            · simp [custody, dialed, Effect.connected]
            · simp [custody, hand, hcall]
            · simp [custody, inserted]
            · simp [custody, closing]
          · exact moves_same (by simp [Gcdbroker.step, Gcdbroker.dial, hh, happroved, hfree]) rfl
      · exact moves_same (by simp [Gcdbroker.step, Gcdbroker.dial, hh, happroved]) rfl
    | _ => exact moves_same (by simp [Gcdbroker.step, Gcdbroker.dial, hh]) rfl
  | _ => exact moves_same (by simp [Gcdbroker.step, Gcdbroker.dial, hh]) rfl

/-- `Insert`, which succeeds. -/
theorem moves_insert (hcall : s.call = .none) {item : Item} {fd k : ℕ}
    (hh : s.broker.handler = .busy item (.dialed fd k))
    (hnone : s.broker.table item.msg.channel = none) : Moves s (s.advance .handle) := by
  intro log closers _
  have hadvance : s.advance .handle =
      ({ s with
          broker := { s.broker with
            table := Function.update s.broker.table item.msg.channel (some fd)
            readers := Function.update s.broker.readers k
              (some { channel := item.msg.channel, fd := fd })
            handler := .relaying item.msg }
          bound := Function.update s.bound item.msg.channel k }, [(.handler, .insert k item)]) := by
    simp [advance, Gcdbroker.step, handle, hh, Gcdbroker.insert, hnone, looksUp, Effect.shutdownFd,
      Effect.inserted, Event.thread]
  have hhand : (s.custody log closers).hand = .fresh fd k := by simp [custody, hand, hcall, hh]
  refine (Custody.Step.gives item.msg.channel fd k hhand).congr ?_
  rw [hadvance]
  refine Custody.ext rfl ?_ ?_ ?_ ?_ ?_ ?_
  · simp [custody, dialed, Effect.connected]
  · simp [custody, hand, hcall]
  · funext k'
    by_cases hkk : k' = k
    · subst hkk
      simp [custody]
    · simp [custody, hkk]
  · funext c
    by_cases hc : c = item.msg.channel
    · subst hc
      simp [custody]
    · simp [custody, hc]
  · exact (inserted_insert k item).symm
  · simp [custody, closing]

/-- The handler takes a descriptor from the table, to send to it. -/
theorem moves_get (hcall : s.call = .none) {item : Item} {fd : ℕ}
    (hh : s.broker.handler = .busy item .fetched) (haction : item.msg.action = .none)
    (hfd : s.broker.table item.msg.channel = some fd) : Moves s (s.advance .handle) := by
  have hadvance : s.advance .handle =
      ({ s with
          broker := { s.broker with handler := .busy item (.routed fd) }
          found := s.bound item.msg.channel }, []) := by
    simp [advance, Gcdbroker.step, handle, hh, dispatch, haction, hfd, looksUp]
  rw [hadvance]
  refine moves_of_quiet quiet_nil rfl (fun _ => rfl) rfl fun log closers => ?_
  have hempty := hand_of_free hcall (hh ▸ free_fetched item)
  have htaken : hand
      { s with
        broker := { s.broker with handler := .busy item (.routed fd) }
        found := s.bound item.msg.channel } = .taken fd (s.bound item.msg.channel) := by
    simp [hand, hcall]
  rw [htaken]
  exact .takes item.msg.channel fd _ hempty (custody_table hfd closers)

/-- The handler removes a channel from the table, to shut its descriptor down. -/
theorem moves_remove {handler' : SendHandler} {c : UInt16} (hempty : s.hand = .empty)
    (hfree : handler'.Free)
    (hadvance : s.advance .handle =
      ({ s with
          broker := { s.broker with table := Function.update s.broker.table c none, handler := handler' }
          call := (s.broker.table c).elim .none .shutdown
          found := s.bound c }, [])) : Moves s (s.advance .handle) := by
  rw [hadvance]
  refine moves_of_quiet quiet_nil rfl (fun _ => rfl) rfl fun log closers => ?_
  rw [map_update_none]
  cases hc : s.broker.table c with
  | none =>
    have hnone : hand
        { s with
          broker := { s.broker with table := Function.update s.broker.table c none, handler := handler' }
          call := .none
          found := s.bound c } = s.hand := (hand_of_free rfl hfree).trans hempty.symm
    rw [Option.elim_none, hnone]
    exact .removes c
  | some fd => exact .pulls c fd _ hempty (custody_table hc closers)

/-- A message that nothing has been done with yet. -/
theorem moves_dispatch (hcall : s.call = .none) {item : Item}
    (hh : s.broker.handler = .busy item .fetched) : Moves s (s.advance .handle) := by
  have hempty := hand_of_free hcall (hh ▸ free_fetched item)
  have hwaiting : s.broker.step .handle = ({ s.broker with handler := .waiting }, []) →
      Moves s (s.advance .handle) :=
    fun hstep => moves_free hempty hcall hstep rfl rfl rfl free_waiting
  cases haction : item.msg.action with
  | createChannel => exact hwaiting (by simp [Gcdbroker.step, handle, hh, dispatch, haction])
  | approval =>
    by_cases hverdict : verdict item.msg = approvalApprove
    · exact moves_same
        (by simp [Gcdbroker.step, handle, hh, dispatch, haction, hverdict])
        (by simp [looksUp, hh, haction])
    · have hstep : s.broker.step .handle =
          ({ s.broker with handler := .relaying item.msg }, []) := by
        simp [Gcdbroker.step, handle, hh, dispatch, haction, hverdict]
      exact moves_free hempty hcall hstep rfl rfl rfl (free_relaying item.msg)
  | shutdownChannel =>
    refine moves_remove hempty (free_relaying
      { channel := item.msg.channel, action := .shutdownChannel }) (c := item.msg.channel) ?_
    cases hc : s.broker.table item.msg.channel with
    | none => simp [advance, Gcdbroker.step, handle, hh, dispatch, haction, looksUp, hc, hcall]
    | some fd =>
      simp [advance, Gcdbroker.step, handle, hh, dispatch, haction, looksUp, hc, Effect.shutdownFd,
        Effect.inserted]
  | none =>
    cases hc : s.broker.table item.msg.channel with
    | none => exact hwaiting (by simp [Gcdbroker.step, handle, hh, dispatch, haction, hc])
    | some fd => exact moves_get hcall hh haction hc

theorem moves_handle (hcall : s.call = .none) (hoccupied : s.broker.occupied .handle = false) :
    Moves s (s.advance .handle) := by
  cases hh : s.broker.handler with
  | waiting =>
    cases hqueue : s.broker.recvQueue with
    | nil => exact moves_same (by simp [Gcdbroker.step, handle, hh, hqueue]) (by simp [looksUp, hh])
    | cons item rest =>
      have hstep : s.broker.step .handle =
          ({ s.broker with recvQueue := rest, handler := .busy item .fetched }, []) := by
        simp [Gcdbroker.step, handle, hh, hqueue]
      exact moves_free (hand_of_free hcall (hh ▸ free_waiting)) hcall hstep rfl rfl rfl
        (free_fetched item)
  | busy item stage =>
    cases stage with
    | fetched => exact moves_dispatch hcall hh
    | dialed fd k =>
      refine moves_insert hcall hh ?_
      simpa [occupied, hh] using hoccupied
    | routed fd => exact moves_same (by simp [Gcdbroker.step, handle, hh]) (by simp [looksUp, hh])
  | relaying msg =>
    have hstep : s.broker.step .handle =
        ({ s.broker with sendQueue := s.broker.sendQueue ++ [msg], handler := .waiting }, []) := by
      simp [Gcdbroker.step, handle, hh]
    exact moves_free (hand_of_free hcall (hh ▸ free_relaying msg)) hcall hstep rfl rfl rfl free_waiting
  | failed c =>
    refine moves_remove (hand_of_free hcall (hh ▸ free_failed c)) free_waiting (c := c) ?_
    cases hc : s.broker.table c with
    | none => simp [advance, Gcdbroker.step, handle, hh, looksUp, hc, hcall]
    | some fd =>
      simp [advance, Gcdbroker.step, handle, hh, looksUp, hc, Effect.shutdownFd, Effect.inserted]

/-- `Send`, on a descriptor that its reader may have closed. -/
theorem moves_send (hcall : s.call = .none) (taken : ℕ) : Moves s (s.advance (.send taken)) := by
  cases hh : s.broker.handler with
  | busy item stage =>
    cases stage with
    | routed fd =>
      have hhand : s.hand = .taken fd s.found := by simp [hand, hcall, hh]
      obtain ⟨handler', out, hstep, hplain, hfree⟩ : ∃ handler' out, s.broker.step (.send taken) =
          ({ s.broker with handler := handler' }, out) ∧ (∀ effect ∈ out, effect.Plain) ∧
            SendHandler.Free handler' := by
        simp only [Gcdbroker.step, Gcdbroker.send, hh]
        split
        · refine ⟨_, _, rfl, by simp [Effect.Plain], ?_⟩
          split_ifs
          · exact free_failed _
          · exact free_waiting
        · refine ⟨_, _, rfl, by simp, ?_⟩
          split_ifs
          · exact free_failed _
          · exact free_waiting
      refine moves_advance hstep hplain rfl (fun _ => rfl) rfl fun log closers => ?_
      have hempty : (s.advance (.send taken)).1.hand = .empty := by
        rw [advance_of_plain hstep hplain]
        exact hand_of_free hcall hfree
      rw [hempty]
      exact .drops fd s.found hhand
    | _ => exact moves_same (by simp [Gcdbroker.step, Gcdbroker.send, hh]) rfl
  | _ => exact moves_same (by simp [Gcdbroker.step, Gcdbroker.send, hh]) rfl

/-- A step of a thread that is not the handler leaves the hand of the handler alone. -/
theorem moves_other {broker' : Gcdbroker} {out : List Effect} {e : Gcdbroker.Event}
    (hlooks : s.broker.looksUp e = none) (hstep : s.broker.step e = (broker', out))
    (hplain : ∀ effect ∈ out, effect.Plain) (hsockets : broker'.sockets = s.broker.sockets)
    (hreaders : ∀ k, (broker'.readers k).map Reader.fd = (s.broker.readers k).map Reader.fd)
    (htable : broker'.table = s.broker.table) (hhandler : broker'.handler = s.broker.handler) :
    Moves s (s.advance e) := by
  refine moves_advance hstep hplain hsockets hreaders htable fun log closers => ?_
  have hhand : (s.advance e).1.hand = s.hand := by
    rw [advance_of_plain hstep hplain, hlooks]
    simp only [hand, hhandler, Option.elim_none]
  rw [hhand]
  exact .stay

/-- A reader goes on, with its descriptor. -/
theorem map_fd_update {readers : ℕ → Option Reader} {r r' : Reader} (hr : readers k = some r)
    (hfd : r'.fd = r.fd) (k' : ℕ) :
    (Function.update readers k (some r') k').map Reader.fd = (readers k').map Reader.fd := by
  by_cases hkk : k' = k
  · subst hkk
    simp [hr, hfd]
  · rw [Function.update_of_ne hkk]

theorem moves_receive {r : Reader} (hr : s.broker.readers k = some r) (data : Bytes) (due : Bool) :
    Moves s (s.advance (.receive k data due)) := by
  have hstep : s.broker.step (.receive k data due) = s.broker.receive k r data due := by
    simp [Gcdbroker.step, hr]
  unfold receive at hstep
  dsimp only at hstep
  split_ifs at hstep
  · exact moves_other rfl hstep (by simp) rfl (map_fd_update hr rfl) rfl rfl
  · exact moves_other rfl hstep (by simp) rfl (map_fd_update hr rfl) rfl rfl
  · exact moves_same hstep rfl

/-- A reader removes its channel. -/
theorem moves_leave {r r' : Reader} (hr : s.broker.readers k = some r) (hfd : r'.fd = r.fd)
    (hstep : s.broker.step (.read k) =
      ({ s.broker with
          table := Function.update s.broker.table r.channel none
          readers := Function.update s.broker.readers k (some r') }, [])) :
    Moves s (s.advance (.read k)) := by
  rw [advance_of_plain hstep (by simp)]
  refine moves_of_quiet quiet_nil rfl (map_fd_update hr hfd) rfl fun log closers => ?_
  rw [map_update_none]
  exact .removes r.channel

/-- A reader closes its descriptor, which is not in the table any more. -/
theorem moves_close (hwf : Gcdbroker.Wf s.broker) {r : Reader} (hr : s.broker.readers k = some r)
    (hstage : r.stage = .closing) : Moves s (s.advance (.read k)) := by
  intro log closers _
  have hadvance : s.advance (.read k) =
      ({ s with broker := { s.broker with
          sockets := Function.update s.broker.sockets r.fd none
          readers := Function.update s.broker.readers k none } }, [(.reader k, .close r.fd)]) := by
    simp [advance, Gcdbroker.step, hr, read, hstage, looksUp, Effect.shutdownFd, Effect.inserted,
      Event.thread]
  have hsocket := (hwf.owner k r hr).1
  have hworking : (s.custody log closers).workers k = some r.fd := by simp [custody, hr]
  have hunlisted : ∀ c, (s.custody log closers).table c ≠ some (r.fd, k) := by
    intro c hc
    obtain ⟨fd, hfd, heq⟩ := Option.map_eq_some_iff.mp hc
    obtain ⟨rfl, -⟩ := Prod.mk.inj heq
    obtain ⟨k', r', hk', hr', -, -, hlisted⟩ := hwf.listed c _ hfd
    obtain rfl := Option.some.inj (hsocket.symm.trans hk')
    obtain rfl := Option.some.inj (hr.symm.trans hr')
    rw [hstage] at hlisted
    exact hlisted
  refine (Custody.Step.closes r.fd k hworking hunlisted).congr ?_
  rw [hadvance]
  refine Custody.ext rfl ?_ rfl ?_ rfl ?_ ?_
  · simp [custody, dialed, Effect.connected]
  · funext k'
    by_cases hkk : k' = k
    · subst hkk
      simp [custody]
    · simp [custody, hkk]
  · simp [custody, inserted]
  · funext k'
    by_cases hkk : k' = k
    · subst hkk
      simp [custody, closing, Custody.closed, hsocket]
    · simp [custody, closing, Custody.closed, hsocket, hkk, Ne.symm hkk]

/-- The next access of a reader that needs nothing from outside. -/
theorem moves_read (hwf : Gcdbroker.Wf s.broker) {r : Reader} (hr : s.broker.readers k = some r) :
    Moves s (s.advance (.read k)) := by
  have hstep : s.broker.step (.read k) = s.broker.read k r := by simp [Gcdbroker.step, hr]
  unfold read at hstep
  split at hstep
  · exact moves_same hstep rfl
  · next data due _ =>
    exact moves_other rfl hstep (by simp) rfl (map_fd_update hr (r.feed_fd data due).1) rfl rfl
  · refine moves_leave hr ?_ hstep
    rfl
  · exact moves_other rfl hstep (by simp) rfl (map_fd_update hr rfl) rfl rfl
  · next hstage => exact moves_close hwf hr hstage

/-- The broker takes a step. -/
theorem moves_broker (hwf : Gcdbroker.Wf s.broker) (e : Gcdbroker.Event)
    (hcall : e.thread = .handler → s.call = .none) (hoccupied : s.broker.occupied e = false) :
    Moves s (s.advance e) := by
  cases e with
  | datagram data =>
    cases harrival : arrival (.datagram data) with
    | none => exact moves_same (by simp [Gcdbroker.step, harrival]) rfl
    | some msg =>
      have hstep : s.broker.step (.datagram data) =
          ({ s.broker with
              recvQueue := s.broker.recvQueue ++ [⟨.bridge s.broker.arrived, msg⟩]
              arrived := s.broker.arrived + 1 }, []) := by
        simp [Gcdbroker.step, harrival]
      exact moves_other rfl hstep (by simp) rfl (fun _ => rfl) rfl rfl
  | handle => exact moves_handle (hcall rfl) hoccupied
  | dial fd => exact moves_dial (hcall rfl) fd
  | send taken => exact moves_send (hcall rfl) taken
  | receive k data due =>
    cases hr : s.broker.readers k with
    | none => exact moves_same (by simp [Gcdbroker.step, hr]) rfl
    | some r => exact moves_receive hr data due
  | timeout k due => exact moves_other rfl rfl (by simp) rfl (fun _ => rfl) rfl rfl
  | read k =>
    cases hr : s.broker.readers k with
    | none => exact moves_same (by simp [Gcdbroker.step, hr]) rfl
    | some r => exact moves_read hwf hr
  | transmit =>
    cases hqueue : s.broker.sendQueue with
    | nil => exact moves_same (by simp [Gcdbroker.step, hqueue]) rfl
    | cons msg rest =>
      have hstep : s.broker.step .transmit =
          ({ s.broker with sendQueue := rest }, [.transmit (Multiplexer.serialize msg)]) := by
        simp [Gcdbroker.step, hqueue]
      exact moves_other rfl hstep (by simp [Effect.Plain]) rfl (fun _ => rfl) rfl rfl

/-- The handler closes what it could not insert. -/
theorem moves_reject (hwf : Gcdbroker.Wf s.broker) (hcall : s.call = .close) {item : Item} {fd : ℕ}
    (hh : s.broker.handler = .busy item (.dialed fd k)) : Moves s (step s .call) := by
  intro log closers _
  have hsocket := (hwf.fresh item fd k hh).2.1
  have hhand : s.hand = .fresh fd k := by simp [hand, hcall, hh]
  refine (Custody.Step.rejects fd k hhand).congr ?_
  simp only [step, hcall, hh]
  refine Custody.ext rfl ?_ ?_ rfl rfl ?_ ?_
  · simp [custody, dialed, Effect.connected]
  · simp [custody, hand]
  · simp [custody, inserted]
  · funext k'
    by_cases hkk : k' = k
    · subst hkk
      simp [custody, closing, Custody.closed, hsocket]
    · simp [custody, closing, Custody.closed, hsocket, hkk, Ne.symm hkk]

/-- The handler makes its call. -/
theorem moves_call (hwf : Wf s) : Moves s (step s .call) := by
  cases hcall : s.call with
  | none =>
    have hstep : step s .call = (s, []) := by simp [step, hcall]
    rw [hstep]
    exact moves_quiet quiet_nil rfl (fun _ => rfl) rfl rfl rfl
  | shutdown fd =>
    have hstep : step s .call = ({ s with call := .none }, [(.handler, .shutdown fd)]) := by
      simp [step, hcall]
    have hhand : s.hand = .taken fd s.found := by simp [hand, hcall]
    rw [hstep]
    refine moves_of_quiet (by simp [Quiet]) rfl (fun _ => rfl) rfl fun log closers => ?_
    have hempty : hand { s with call := .none } = .empty := hand_of_free rfl (hwf.free fd hcall)
    rw [hempty]
    exact .drops fd s.found hhand
  | close =>
    cases hh : s.broker.handler with
    | busy item stage =>
      cases stage with
      | dialed fd k => exact moves_reject hwf.broker hcall hh
      | _ =>
        have hstep : step s .call = (s, []) := by simp [step, hcall, hh]
        rw [hstep]
        exact moves_quiet quiet_nil rfl (fun _ => rfl) rfl rfl rfl
    | _ =>
      have hstep : step s .call = (s, []) := by simp [step, hcall, hh]
      rw [hstep]
      exact moves_quiet quiet_nil rfl (fun _ => rfl) rfl rfl rfl

theorem handler_of_occupied {e : Gcdbroker.Event} (h : s.broker.occupied e = true) :
    e = .handle ∧ ∃ item fd k, s.broker.handler = .busy item (.dialed fd k) := by
  unfold occupied at h
  split at h
  · split at h
    · next item fd k hh => exact ⟨rfl, item, fd, k, hh⟩
    · cases h
  · cases h

/-- A step of the threads is a step of the custody. -/
theorem custody_step (hwf : Wf s) (e : Event) : Moves s (step s e) := by
  cases e with
  | call => exact moves_call hwf
  | broker e =>
    have hstay : Moves s (s, []) := moves_quiet quiet_nil rfl (fun _ => rfl) rfl rfl rfl
    dsimp only [step]
    split_ifs with hblocked hoccupied
    · exact hstay
    · obtain ⟨rfl, item, fd, k, hh⟩ := handler_of_occupied hoccupied
      have hcall : s.call = .none := by
        by_contra hcall
        exact hblocked ⟨rfl, hcall⟩
      refine moves_quiet quiet_nil rfl (fun _ => rfl) rfl rfl ?_
      simp [hand, hcall, hh]
    · refine moves_broker hwf.broker e (fun he => ?_) (by simpa using hoccupied)
      by_contra hcall
      exact hblocked ⟨he, hcall⟩

/-- Nobody but the handler moves the handler. -/
theorem handler_other (s : Gcdbroker) {e : Gcdbroker.Event} (h : e.thread ≠ .handler) :
    (s.step e).1.handler = s.handler ∧ ∀ effect ∈ (s.step e).2, effect.shutdownFd = none := by
  cases e with
  | handle => exact absurd rfl h
  | dial fd => exact absurd rfl h
  | send taken => exact absurd rfl h
  | _ =>
    dsimp only [Gcdbroker.step, receive, read]
    repeat' split
    all_goals simp [Effect.shutdownFd]

/-- Behind a shutdown the handler holds nothing else. -/
theorem free_of_shutdown (s : Gcdbroker) (e : Gcdbroker.Event) :
    ∀ effect ∈ (s.step e).2, effect.shutdownFd ≠ none → (s.step e).1.handler.Free := by
  cases e with
  | handle =>
    dsimp only [Gcdbroker.step, handle, dispatch, Gcdbroker.insert]
    repeat' split
    all_goals simp [Effect.shutdownFd, SendHandler.Free]
  | dial fd =>
    dsimp only [Gcdbroker.step, Gcdbroker.dial]
    repeat' split
    all_goals simp [Effect.shutdownFd]
  | send taken =>
    dsimp only [Gcdbroker.step, Gcdbroker.send]
    repeat' split
    all_goals simp [Effect.shutdownFd]
  | _ =>
    intro effect hmem hshutdown
    exact absurd ((handler_other s (by simp [Event.thread])).2 effect hmem) hshutdown

theorem length_connected (s : Gcdbroker) (e : Gcdbroker.Event) :
    ((s.step e).2.filterMap Effect.connected).length + s.dialed = (s.step e).1.dialed := by
  cases e with
  | handle =>
    dsimp only [Gcdbroker.step, handle, dispatch, Gcdbroker.insert]
    repeat' split
    all_goals simp [Effect.connected]
  | dial fd =>
    dsimp only [Gcdbroker.step, Gcdbroker.dial]
    repeat' split
    all_goals simp [Effect.connected, Nat.add_comm]
  | send taken =>
    dsimp only [Gcdbroker.step, Gcdbroker.send]
    repeat' split
    all_goals simp [Effect.connected]
  | _ =>
    dsimp only [Gcdbroker.step, receive, read]
    repeat' split
    all_goals simp [Effect.connected]

/-- The number of connections that have been dialed. -/
theorem length_dialed (s : Threads) (e : Event) :
    ((step s e).2.filterMap dialed).length + s.broker.dialed = (step s e).1.broker.dialed := by
  have hshut : ∀ effect : Effect, effect.shutdownFd.isNone = false → effect.connected = none := by
    intro effect h
    cases effect <;> first | rfl | cases h
  have hfilter : ∀ (who : Thread) (out : List Effect),
      ((out.filter fun effect => effect.shutdownFd.isNone).map fun effect => (who, effect)).filterMap
        dialed = out.filterMap Effect.connected := by
    intro who out
    rw [List.filterMap_map, List.filterMap_filter]
    congr 1
    funext effect
    cases hsome : effect.shutdownFd.isNone with
    | true => rfl
    | false => simp [hshut effect hsome]
  cases e with
  | broker e =>
    dsimp only [step]
    split_ifs
    · simp
    · simp
    · dsimp only [advance]
      rw [hfilter]
      exact length_connected s.broker e
  | call =>
    dsimp only [step]
    repeat' split
    all_goals simp [dialed, Effect.connected]

theorem Wf.step (h : Wf s) (e : Event) : Wf (Threads.step s e).1 := by
  cases e with
  | broker e =>
    dsimp only [Threads.step]
    split_ifs with hblocked
    · exact h
    · exact ⟨h.broker, nofun⟩
    · refine ⟨h.broker.step e, fun fd hfd => ?_⟩
      dsimp only [advance] at hfd ⊢
      cases hsome : (s.broker.step e).2.findSome? Effect.shutdownFd with
      | some fd' =>
        obtain ⟨effect, hmem, heq⟩ := List.exists_of_findSome?_eq_some hsome
        exact free_of_shutdown s.broker e effect hmem (by simp [heq])
      | none =>
        rw [hsome] at hfd
        have hthread : e.thread ≠ .handler := by
          rintro heq
          refine hblocked ⟨heq, ?_⟩
          rintro hnone
          cases hnone.symm.trans hfd
        rw [(handler_other s.broker hthread).1]
        exact h.free fd hfd
  | call =>
    cases hcall : s.call with
    | none =>
      simp only [Threads.step, hcall]
      exact h
    | shutdown fd =>
      simp only [Threads.step, hcall]
      exact ⟨h.broker, nofun⟩
    | close =>
      simp only [Threads.step, hcall]
      split
      · next hh => exact ⟨h.broker.reject hh, nofun⟩
      · exact h

end

end Threads

end Gcdbroker

end GuacamoleDiode
