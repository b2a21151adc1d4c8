import GuacamoleDiode.Gcdbroker.Integrity
import GuacamoleDiode.Gcdbroker.Turns

/-!
# Connections that succeed each other on a channel

The table and the queues know connections by their channels only. A channel that is shut
down and approved again is bound to a new connection while the reader of the old one may
still run, and acks of the old one may still be queued.

## Main definitions

- `LeavesAlone`: a step of a reader does not touch the connection of another one
- `Succeeds`: the condition on a step that binds a channel again
- `Apart`: the invariant: a channel has one reader that has not removed it

## Main results

- `leavesAlone_of_succeeds`: old readers leave their successors alone
-/

namespace GuacamoleDiode

open Wire

namespace Gcdbroker

/-- The reader that takes the step removes no entry but its own and announces no channel
that is bound again, and an ack that is written goes to the connection of its own reader. -/
def LeavesAlone (s : Gcdbroker) (e : Event) : Prop :=
  (∀ k r, e = .read k → s.readers k = some r →
    (r.stage = .leaving → ∀ k', s.lookup r.channel = some k' → k' = k) ∧
    (r.stage = .announcing → s.lookup r.channel = none)) ∧
  ∀ k k' item data, .write k' item data ∈ (s.step e).2 → item.origin = .reader k → k' = k

/-- A channel is bound again only when all its earlier readers are about to close their
descriptors, and none of their acks is queued any more. -/
def Succeeds (s : Gcdbroker) (e : Event) : Prop :=
  ∀ item fd k, e = .handle → s.handler = .busy item (.dialed fd k) →
    s.table item.msg.channel = none →
    (∀ k' r, s.readers k' = some r → r.channel = item.msg.channel → r.stage = .closing) ∧
    ∀ ack ∈ s.recvQueue, ∀ k', ack.origin = .reader k' → ack.msg.channel ≠ item.msg.channel

/-- A channel has at most one reader that has not left it. -/
def Single (readers : ℕ → Option Reader) : Prop :=
  ∀ k k' r r', readers k = some r → readers k' = some r' → r.channel = r'.channel →
    r.stage ≠ .closing → r'.stage ≠ .closing → k = k'

/-- The readers, the handler and the queue keep the connections of a channel apart. -/
structure Apart (s : Gcdbroker) : Prop where
  single : Single s.readers
  routed : ∀ item fd, s.handler = .busy item (.routed fd) → ∀ k r, s.readers k = some r →
    r.channel = item.msg.channel → r.stage ≠ .closing → r.fd = fd
  acks : ∀ ack ∈ s.router.pending, ∀ k, ack.origin = .reader k →
    ∀ k', s.bound ack.msg.channel = some k' → k' = k

section

variable {readers : ℕ → Option Reader} {k : ℕ} {r r' : Reader}

theorem Single.update_reader (h : Single readers) (hr : readers k = some r)
    (hchannel : r'.channel = r.channel) (hstage : r'.stage ≠ .closing → r.stage ≠ .closing) :
    Single (Function.update readers k (some r')) := by
  -- every reader was there before, on the same channel
  have hbefore : ∀ k₁ r₁, Function.update readers k (some r') k₁ = some r₁ →
      r₁.stage ≠ .closing →
      ∃ r₀, readers k₁ = some r₀ ∧ r₀.channel = r₁.channel ∧ r₀.stage ≠ .closing := by
    intro k₁ r₁ hr₁ hopen
    obtain ⟨rfl, rfl⟩ | ⟨hk, hr₁⟩ := Table.of_update hr₁
    · exact ⟨r, hr, hchannel.symm, hstage hopen⟩
    · exact ⟨r₁, hr₁, rfl, hopen⟩
  intro k₁ k₂ r₁ r₂ hr₁ hr₂ hc hopen₁ hopen₂
  obtain ⟨r₁', hr₁', hc₁, hopen₁'⟩ := hbefore k₁ r₁ hr₁ hopen₁
  obtain ⟨r₂', hr₂', hc₂, hopen₂'⟩ := hbefore k₂ r₂ hr₂ hopen₂
  exact h k₁ k₂ r₁' r₂' hr₁' hr₂' (hc₁.trans (hc.trans hc₂.symm)) hopen₁' hopen₂'

theorem Single.remove (h : Single readers) (k : ℕ) : Single (Function.update readers k none) := by
  intro k₁ k₂ r₁ r₂ hr₁ hr₂
  exact h k₁ k₂ r₁ r₂ (Table.of_update_none hr₁).2 (Table.of_update_none hr₂).2

/-- A new reader, where all others of its channel are about to close. -/
theorem Single.insert (h : Single readers)
    (hclosing : ∀ k' r', readers k' = some r' → r'.channel = r.channel → r'.stage = .closing) :
    Single (Function.update readers k (some r)) := by
  intro k₁ k₂ r₁ r₂ hr₁ hr₂ hc hopen₁ hopen₂
  rcases Table.of_update hr₁ with ⟨hk₁, heq₁⟩ | ⟨-, hold₁⟩
  · rcases Table.of_update hr₂ with ⟨hk₂, -⟩ | ⟨-, hold₂⟩
    · exact hk₁.trans hk₂.symm
    · exact absurd (hclosing k₂ r₂ hold₂ (heq₁ ▸ hc.symm)) hopen₂
  · rcases Table.of_update hr₂ with ⟨-, heq₂⟩ | ⟨-, hold₂⟩
    · exact absurd (hclosing k₁ r₁ hold₁ (heq₂ ▸ hc)) hopen₁
    · exact h k₁ k₂ r₁ r₂ hold₁ hold₂ hc hopen₁ hopen₂

end

section

variable {s s' : Gcdbroker} {e : Event} {k k' fd : ℕ} {r : Reader}

/-- A reader that has not left its channel sees no other connection there. -/
theorem own_table (hwf : Wf s) (hsingle : Single s.readers) (hr : s.readers k = some r)
    (hopen : r.stage ≠ .closing) (hfd : s.table r.channel = some fd) :
    r.fd = fd ∧ s.sockets fd = some k ∧ r.stage.Listed := by
  obtain ⟨k₁, r₁, hk₁, hr₁, hfd₁, hc₁, hlisted⟩ := hwf.listed r.channel fd hfd
  have hopen₁ : r₁.stage ≠ .closing := by
    intro hclosing
    rw [hclosing] at hlisted
    exact hlisted
  obtain rfl := hsingle k k₁ r r₁ hr hr₁ hc₁.symm hopen hopen₁
  cases hr.symm.trans hr₁
  exact ⟨hfd₁, hk₁, hlisted⟩

theorem own_lookup (hwf : Wf s) (hsingle : Single s.readers) (hr : s.readers k = some r)
    (hopen : r.stage ≠ .closing) (hlookup : s.lookup r.channel = some k') :
    k' = k ∧ r.stage.Listed := by
  obtain ⟨fd, hfd, hk'⟩ := Option.bind_eq_some_iff.mp hlookup
  obtain ⟨-, hk, hlisted⟩ := own_table hwf hsingle hr hopen hfd
  exact ⟨Option.some.inj (hk'.symm.trans hk), hlisted⟩

/-- What the handler has looked up counts as well. -/
theorem Apart.own_bound (h : Apart s) (hwf : Wf s) (hr : s.readers k = some r)
    (hopen : r.stage ≠ .closing) (hbound : s.bound r.channel = some k') : k' = k := by
  have hlookup : s.lookup r.channel = some k' → k' = k :=
    fun hlook => (own_lookup hwf h.single hr hopen hlook).1
  unfold bound at hbound
  split at hbound
  · next item fd hh =>
    split_ifs at hbound with hc
    · obtain rfl := h.routed item fd hh k r hr hc.symm hopen
      exact Option.some.inj (hbound.symm.trans (hwf.owner k r hr).1)
    · exact hlookup hbound
  · split_ifs at hbound
    exact hlookup hbound
  · exact hlookup hbound

theorem Apart.single_step (h : Apart s) (hok : Succeeds s e) {msgs : List BridgeMessage}
    (hturn : Turn s e s' msgs) : Single s'.readers := by
  cases hturn with
  | other _ hreaders => exact hreaders ▸ h.single
  | shut _ _ _ _ hreaders => exact hreaders ▸ h.single
  | bind he item fd k hh hnone _ hreaders =>
    rw [hreaders]
    exact h.single.insert (hok item fd k he hh hnone).1
  | relay _ _ _ hreaders => exact hreaders ▸ h.single
  | fail _ _ _ _ hreaders => exact hreaders ▸ h.single
  | work k r r' hr _ hreaders hsame hlisted =>
    rw [hreaders]
    refine h.single.update_reader hr hsame.2 fun _ hclosing => ?_
    rw [hclosing] at hlisted
    exact hlisted.1
  | leave k r hr hstage _ hreaders =>
    rw [hreaders]
    exact h.single.update_reader hr rfl fun _ => by simp [hstage]
  | announce k r hr hstage _ hreaders =>
    rw [hreaders]
    exact h.single.update_reader hr rfl fun _ => by simp [hstage]
  | close k _ r _ _ _ hreaders =>
    rw [hreaders]
    exact h.single.remove k

/-- A reader of the new state that has not left its channel was there before. -/
theorem Turn.reader_before {msgs : List BridgeMessage} (hturn : Turn s e s' msgs)
    (hbusy : ∃ item stage, s'.handler = .busy item stage) (hr : s'.readers k = some r)
    (hopen : r.stage ≠ .closing) :
    ∃ r₀, s.readers k = some r₀ ∧ r₀.fd = r.fd ∧ r₀.channel = r.channel ∧ r₀.stage ≠ .closing := by
  obtain ⟨item, stage, hbusy⟩ := hbusy
  have hupdate : ∀ k₁ r₀ r₁, s.readers k₁ = some r₀ →
      s'.readers = Function.update s.readers k₁ (some r₁) → r₁.fd = r₀.fd ∧ r₁.channel = r₀.channel →
      r₀.stage ≠ .closing → ∃ r₀, s.readers k = some r₀ ∧ r₀.fd = r.fd ∧
        r₀.channel = r.channel ∧ r₀.stage ≠ .closing := by
    intro k₁ r₀ r₁ hr₀ hreaders hsame hopen₀
    rw [hreaders] at hr
    obtain ⟨rfl, rfl⟩ | ⟨hk, hr⟩ := Table.of_update hr
    · exact ⟨r₀, hr₀, hsame.1.symm, hsame.2.symm, hopen₀⟩
    · exact ⟨r, hr, rfl, rfl, hopen⟩
  cases hturn with
  | other _ hreaders => exact ⟨r, hreaders ▸ hr, rfl, rfl, hopen⟩
  | shut _ _ _ _ _ hh' => cases hbusy.symm.trans hh'
  | bind _ _ _ _ _ _ _ _ hh' => cases hbusy.symm.trans hh'
  | relay _ _ _ _ hh' => cases hbusy.symm.trans hh'
  | fail _ _ _ _ _ hh' => cases hbusy.symm.trans hh'
  | work k₁ r₀ r₁ hr₀ _ hreaders hsame hlisted =>
    refine hupdate k₁ r₀ r₁ hr₀ hreaders hsame fun hclosing => ?_
    rw [hclosing] at hlisted
    exact hlisted.1
  | leave k₁ r₀ hr₀ hstage _ hreaders =>
    exact hupdate k₁ r₀ _ hr₀ hreaders ⟨rfl, rfl⟩ (by simp [hstage])
  | announce k₁ r₀ hr₀ hstage _ hreaders =>
    exact hupdate k₁ r₀ _ hr₀ hreaders ⟨rfl, rfl⟩ (by simp [hstage])
  | close k₁ _ r₀ _ _ _ hreaders =>
    rw [hreaders] at hr
    exact ⟨r, (Table.of_update_none hr).2, rfl, rfl, hopen⟩

/-- The handler looks up a channel, or keeps what it has looked up. -/
theorem Turn.routed_before {msgs : List BridgeMessage} (hturn : Turn s e s' msgs) {item : Item}
    (hh : s'.handler = .busy item (.routed fd)) :
    s.handler = .busy item (.routed fd) ∨ s.table item.msg.channel = some fd := by
  cases hturn with
  | other _ _ _ hrouted => exact (hrouted item fd hh).imp_left fun heq => heq.symm.trans hh
  | shut _ _ _ _ _ hh' => cases hh.symm.trans hh'
  | bind _ _ _ _ _ _ _ _ hh' => cases hh.symm.trans hh'
  | relay _ _ _ _ hh' => cases hh.symm.trans hh'
  | fail _ _ _ _ _ hh' => cases hh.symm.trans hh'
  | work _ _ _ _ _ _ _ _ heq => exact .inl (heq.symm.trans hh)
  | leave _ _ _ _ _ _ heq => exact .inl (heq.symm.trans hh)
  | announce _ _ _ _ _ _ heq => exact .inl (heq.symm.trans hh)
  | close _ _ _ _ _ _ _ heq => exact .inl (heq.symm.trans hh)

theorem Apart.routed_step (h : Apart s) (hwf : Wf s) {msgs : List BridgeMessage}
    (hturn : Turn s e s' msgs) {item : Item} (hh : s'.handler = .busy item (.routed fd))
    (hr : s'.readers k = some r) (hc : r.channel = item.msg.channel) (hopen : r.stage ≠ .closing) :
    r.fd = fd := by
  obtain ⟨r₀, hr₀, hfd₀, hc₀, hopen₀⟩ := hturn.reader_before ⟨item, _, hh⟩ hr hopen
  rw [← hfd₀]
  rw [← hc₀] at hc
  rcases hturn.routed_before hh with hh | hfd
  · exact h.routed item fd hh k r₀ hr₀ hc hopen₀
  · rw [← hc] at hfd
    exact (own_table hwf h.single hr₀ hopen₀ hfd).1

/-- An ack comes from a reader that has not left its channel. -/
theorem reader_of_ackOf {ack : Item} (hack : s.ackOf e = some ack) (horigin : ack.origin = .reader k) :
    ∃ r, s.readers k = some r ∧ r.channel = ack.msg.channel ∧ r.stage ≠ .closing := by
  unfold ackOf at hack
  split at hack
  · split at hack
    · next r hr =>
      split_ifs at hack with hstage
      obtain ⟨data, -, rfl⟩ := Option.map_eq_some_iff.mp hack
      cases horigin
      exact ⟨r, hr, rfl, by simp [hstage]⟩
    · cases hack
  · split at hack
    · next r hr =>
      split at hack
      · next hstage =>
        obtain ⟨data, -, rfl⟩ := Option.map_eq_some_iff.mp hack
        cases horigin
        exact ⟨r, hr, rfl, by simp [hstage]⟩
      · cases hack
    · cases hack
  · cases hack

theorem Apart.acks_step (h : Apart s) (hwf : Wf s) (hok : Succeeds s e) {ack : Item}
    (hmem : ack ∈ (s.step e).1.router.pending) (horigin : ack.origin = .reader k)
    (hbound : (s.step e).1.bound ack.msg.channel = some k') : k' = k := by
  have hmove := move hwf e
  rcases hmove.bound_eq hbound with hbefore | ⟨item, hopened, hc⟩
  · obtain ⟨popped, hpopped⟩ := hmove.pending_eq
    have hmem' : ack ∈ s.router.pending ++ s.queued e := by
      rw [hpopped]
      exact List.mem_append_right _ hmem
    rcases List.mem_append.mp hmem' with hold | hnew
    · exact h.acks ack hold k horigin k' hbefore
    · rcases List.mem_append.mp hnew with harrived | hack
      · obtain ⟨msg, -, rfl⟩ := Option.map_eq_some_iff.mp (Option.mem_toList.mp harrived)
        cases horigin
      · obtain ⟨r, hr, hrc, hopen⟩ := reader_of_ackOf (Option.mem_toList.mp hack) horigin
        exact h.own_bound hwf hr hopen (hrc ▸ hbefore)
  · -- the channel has just been bound, and no ack for it is left
    obtain ⟨effect, heffect, hrouted⟩ := List.mem_filterMap.mp hopened
    cases effect <;> simp only [Effect.routed, reduceCtorEq, Option.some.injEq] at hrouted
    cases hrouted
    obtain ⟨fd, he, hh, hnone, -⟩ := insert_step heffect
    have hpending := (hmove.opened hopened).2.2.1
    have hqueue : s.recvQueue = (s.step e).1.router.pending := by
      simpa [router, hh, SendHandler.held] using hpending
    exact absurd hc.symm ((hok item fd k' he hh hnone).2 ack (hqueue ▸ hmem) k horigin)

/-- Every step keeps connections apart as long as channels are bound again in time. -/
theorem Apart.step (h : Apart s) (hwf : Wf s) (hok : Succeeds s e) : Apart (s.step e).1 where
  single := h.single_step hok (turn s e)
  routed _ _ hh _ _ hr hc hopen := h.routed_step hwf (turn s e) hh hr hc hopen
  acks _ hmem _ horigin _ hbound := h.acks_step hwf hok hmem horigin hbound

theorem Apart.leavesAlone (h : Apart s) (hwf : Wf s) (e : Event) : LeavesAlone s e := by
  refine ⟨fun k r _ hr => ⟨fun hstage k' hk' => ?_, fun hstage => ?_⟩, ?_⟩
  · exact (own_lookup hwf h.single hr (by simp [hstage]) hk').1
  · rw [Option.eq_none_iff_forall_ne_some]
    intro k' hk'
    have hlisted := (own_lookup hwf h.single hr (by simp [hstage]) hk').2
    rw [hstage] at hlisted
    exact hlisted
  · intro k k' item data hwrite horigin
    have hwrote : .wrote k' item data ∈ routes (s.step e).2 :=
      List.mem_filterMap.mpr ⟨_, hwrite, rfl⟩
    obtain ⟨hbound, hpending⟩ := (move hwf e).wrote hwrote
    exact h.acks item (by simp [hpending]) k horigin k' hbound

end

/-- In every run that binds channels again in time, no reader touches the connection of
another one. -/
theorem leavesAlone_of_succeeds (es : List Event)
    (hok : machine.Always (fun _ s e => Succeeds s e) es) :
    machine.Always (fun _ s e => LeavesAlone s e) es := by
  intro pre e post hsplit
  have hpre : machine.Always (fun _ s e => Succeeds s e) pre := by
    rintro pre' e' post' rfl
    exact hok pre' e' (post' ++ e :: post) (by simp [hsplit])
  have hapart : Apart (machine.run pre) :=
    Machine.invariant_of_always (P := fun _ s => Apart s)
      ⟨by simp [Single, machine], by simp [machine], by simp [machine, router, SendHandler.held]⟩
      (fun es e h hok => h.step (wf_run es) hok) hpre
  exact hapart.leavesAlone (wf_run pre) e

/-- The bridge shuts channel 1 down. -/
def shutting : List Event :=
  [.datagram (Multiplexer.serialize { channel := 1, action := .shutdownChannel }), .handle, .handle,
    .handle]

/-- The reader of connection 0 sees that its connection has ended, and removes its channel. -/
def exiting : List Event := [.receive 0 [] false, .read 0]

/-- Channel 1 is approved again when the reader of its first connection is finished. -/
def succeededRun : List Event := opening ++ shutting ++ exiting ++ [.read 0] ++ opening

theorem succeededRun_succeeds : machine.Always (fun _ s e => Succeeds s e) succeededRun := by
  -- a connection that has been dialed but not bound does not count as the next one yet
  have hbinding : ∀ i < succeededRun.length, (machine.run (succeededRun.take i)).dialed ≤ 2 ∧
      ((machine.run (succeededRun.take i)).next = (machine.run (succeededRun.take i)).dialed ∨
        (machine.run (succeededRun.take i)).recvQueue = [] ∧
          ((machine.run (succeededRun.take i)).readers 0).isNone = true ∧
          ((machine.run (succeededRun.take i)).readers 1).isNone = true) := by
    decide +kernel
  refine Machine.always_of_getElem fun i hi item fd k _ hh _ => ?_
  obtain ⟨hdialed, hquiet⟩ := hbinding i hi
  have hnext : (machine.run (succeededRun.take i)).next = k := by simp [next, hh]
  have hk := ((wf_run _).fresh item fd k hh).2.2.2
  obtain ⟨hqueue, hnone₀, hnone₁⟩ := hquiet.resolve_left (by omega)
  rw [Option.isNone_iff_eq_none] at hnone₀ hnone₁
  refine ⟨fun k' r hr _ => ?_, by simp [hqueue]⟩
  have hk' := ((wf_run _).owner k' r hr).2
  obtain rfl | rfl : k' = 0 ∨ k' = 1 := by omega
  · cases hnone₀.symm.trans hr
  · cases hnone₁.symm.trans hr

/-- The condition holds of a run that binds a channel twice. -/
theorem leavesAlone_succeededRun :
    (machine.run succeededRun).lookup 1 = some 1 ∧
      machine.Always (fun _ s e => LeavesAlone s e) succeededRun :=
  ⟨by decide +kernel, leavesAlone_of_succeeds succeededRun succeededRun_succeeds⟩

/-- Channel 1 is approved again while the reader of its first connection still runs. -/
def overtakenRun : List Event :=
  opening ++ shutting ++ [.datagram (Multiplexer.serialize approval), .handle, .dial (some 6), .handle] ++
    exiting

/-- The old reader removes the entry of the new connection. -/
theorem not_leavesAlone_overtakenRun :
    ¬machine.Always (fun _ s e => LeavesAlone s e) overtakenRun := by
  intro h
  have hlast : LeavesAlone (machine.run (overtakenRun.dropLast)) (.read 0) :=
    h overtakenRun.dropLast (.read 0) [] (by decide +kernel)
  have hstage : ((machine.run overtakenRun.dropLast).readers 0).map
      (fun r => (r.channel, r.stage)) = some (1, .leaving) := by
    decide +kernel
  obtain ⟨r, hr, hpair⟩ := Option.map_eq_some_iff.mp hstage
  obtain ⟨hc, hleaving⟩ : r.channel = 1 ∧ r.stage = .leaving := Prod.mk.inj hpair
  have hlookup : (machine.run overtakenRun.dropLast).lookup 1 = some 1 := by decide +kernel
  exact absurd ((hlast.1 0 r rfl hr).1 hleaving 1 (by rw [hc]; exact hlookup)) (by decide)

end Gcdbroker

end GuacamoleDiode
