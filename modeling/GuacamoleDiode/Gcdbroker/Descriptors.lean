import GuacamoleDiode.Gcdbroker.Broker
import GuacamoleDiode.Lib.Tables

/-!
# Descriptors and their owners

The table, the descriptors and the readers agree in every reachable state: a channel is
only ever bound to an open descriptor whose own reader has not removed it yet, and a
reader keeps its descriptor open until it closes it.
-/

namespace GuacamoleDiode

open Wire

namespace Gcdbroker

/-- The reader has not removed its channel yet. -/
def ReaderStage.Listed : ReaderStage → Prop
  | .receiving | .feeding _ _ | .leaving => True
  | .announcing | .closing => False

/-- The handler holds nothing that it has dialed or looked up. -/
def SendHandler.Free (h : SendHandler) : Prop := ∀ item stage, h = .busy item stage → stage = .fetched

/-- The table, the descriptors and the threads agree. -/
structure Agree (table : UInt16 → Option ℕ) (sockets : ℕ → Option ℕ) (readers : ℕ → Option Reader)
    (dialed : ℕ) (handler : SendHandler) : Prop where
  listed : ∀ c fd, table c = some fd → ∃ k r, sockets fd = some k ∧ readers k = some r ∧
    r.fd = fd ∧ r.channel = c ∧ r.stage.Listed
  owner : ∀ k r, readers k = some r → sockets r.fd = some k ∧ k < dialed
  routed : ∀ item fd, handler = .busy item (.routed fd) → item.msg.action = .none ∧
    (table item.msg.channel = some fd ∨ table item.msg.channel = none)
  fresh : ∀ item fd k, handler = .busy item (.dialed fd k) →
    (item.msg.action = .approval ∧ verdict item.msg = approvalApprove) ∧
    sockets fd = some k ∧ readers k = none ∧ k + 1 = dialed

/-- The state is well formed. -/
def Wf (s : Gcdbroker) : Prop := Agree s.table s.sockets s.readers s.dialed s.handler

section

variable {table : UInt16 → Option ℕ} {sockets : ℕ → Option ℕ} {readers : ℕ → Option Reader}
  {dialed : ℕ} {handler handler' : SendHandler} {k fd : ℕ} {r r' : Reader}

/-- The handler lets go of what it holds. -/
theorem Agree.of_free (h : Agree table sockets readers dialed handler) (hfree : handler'.Free) :
    Agree table sockets readers dialed handler' where
  listed := h.listed
  owner := h.owner
  routed item fd hh := by cases hfree _ _ hh
  fresh item fd k hh := by cases hfree _ _ hh

/-- The handler looks up a channel. -/
theorem Agree.route (h : Agree table sockets readers dialed handler) {item : Item}
    (hact : item.msg.action = .none) (hfd : table item.msg.channel = some fd) :
    Agree table sockets readers dialed (.busy item (.routed fd)) where
  listed := h.listed
  owner := h.owner
  routed item' fd' heq := by
    cases heq
    exact ⟨hact, .inl hfd⟩
  fresh item' fd' k heq := by cases heq

/-- A channel is removed. -/
theorem Agree.remove (h : Agree table sockets readers dialed handler) (c : UInt16) :
    Agree (Function.update table c none) sockets readers dialed handler where
  listed c' fd hfd := by
    exact h.listed c' fd (Table.of_update_none hfd).2
  owner := h.owner
  routed item fd hh := by
    obtain ⟨hact, hfd⟩ := h.routed item fd hh
    refine ⟨hact, ?_⟩
    by_cases hc : item.msg.channel = c
    · exact .inr (by simp [hc])
    · simpa only [Function.update_of_ne hc] using hfd
  fresh := h.fresh

/-- A reader moves on. -/
theorem Agree.update_reader (h : Agree table sockets readers dialed handler)
    (hr : readers k = some r) (hfd : r'.fd = r.fd) (hchannel : r'.channel = r.channel)
    (hlisted : r.stage.Listed → r'.stage.Listed ∨ table r.channel = none) :
    Agree table sockets (Function.update readers k (some r')) dialed handler where
  listed c fd hc := by
    obtain ⟨k', r₀, hk', hr₀, hfd₀, hchannel₀, hlisted₀⟩ := h.listed c fd hc
    by_cases hkk : k' = k
    · subst hkk
      obtain rfl : r₀ = r := Option.some.inj (hr₀.symm.trans hr)
      refine ⟨k', r', hk', by simp, hfd.trans hfd₀, hchannel.trans hchannel₀, ?_⟩
      refine (hlisted hlisted₀).resolve_right fun hnone => ?_
      rw [hchannel₀, hc] at hnone
      cases hnone
    · exact ⟨k', r₀, hk', by rw [Function.update_of_ne hkk]; exact hr₀, hfd₀, hchannel₀, hlisted₀⟩
  owner k' r₀ hr₀ := by
    obtain ⟨rfl, rfl⟩ | ⟨hkk, hr₀⟩ := Table.of_update hr₀
    · rw [hfd]
      exact h.owner k' r hr
    · exact h.owner k' r₀ hr₀
  routed := h.routed
  fresh item fd k' hh := by
    obtain ⟨hact, hsock, hnone, hk'⟩ := h.fresh item fd k' hh
    refine ⟨hact, hsock, ?_, hk'⟩
    have hne : k' ≠ k := by
      rintro rfl
      rw [hnone] at hr
      cases hr
    rw [Function.update_of_ne hne]
    exact hnone

/-- guacd is dialed on a descriptor that is not in use. -/
theorem Agree.connect (h : Agree table sockets readers dialed handler) {item : Item}
    (hclosed : sockets fd = none) (hact : item.msg.action = .approval)
    (hverdict : verdict item.msg = approvalApprove) :
    Agree table (Function.update sockets fd (some dialed)) readers (dialed + 1)
      (.busy item (.dialed fd dialed)) := by
  have hopen : ∀ fd' k, sockets fd' = some k →
      Function.update sockets fd (some dialed) fd' = some k := by
    intro fd' k hk
    have hne : fd' ≠ fd := by
      rintro rfl
      rw [hclosed] at hk
      cases hk
    rw [Function.update_of_ne hne]
    exact hk
  refine ⟨?_, ?_, ?_, ?_⟩
  · intro c fd' hc
    obtain ⟨k, r, hk, hr⟩ := h.listed c fd' hc
    exact ⟨k, r, hopen fd' k hk, hr⟩
  · intro k r hr
    obtain ⟨hk, hlt⟩ := h.owner k r hr
    exact ⟨hopen r.fd k hk, hlt.trans (Nat.lt_succ_self _)⟩
  · intro item' fd' heq
    cases heq
  · intro item' fd' k heq
    cases heq
    refine ⟨⟨hact, hverdict⟩, Function.update_self .., ?_, rfl⟩
    -- the number has not been used before
    rw [Option.eq_none_iff_forall_ne_some]
    intro r hr
    exact absurd (h.owner _ r hr).2 (Nat.lt_irrefl _)

/-- A connection is bound to its channel, and its reader starts. -/
theorem Agree.insert {item : Item} (h : Agree table sockets readers dialed (.busy item (.dialed fd k)))
    (hfree : handler'.Free) :
    Agree (Function.update table item.msg.channel (some fd)) sockets
      (Function.update readers k (some { channel := item.msg.channel, fd := fd })) dialed handler' := by
  obtain ⟨-, hsock, hnone, hk⟩ := h.fresh item fd k rfl
  have hne : ∀ {k' r}, readers k' = some r → k' ≠ k := by
    rintro k' r hr rfl
    rw [hnone] at hr
    cases hr
  refine ⟨?_, ?_, ?_, ?_⟩
  · intro c fd' hfd'
    obtain ⟨rfl, rfl⟩ | ⟨hcc, hfd'⟩ := Table.of_update hfd'
    · exact ⟨k, _, hsock, Function.update_self .., rfl, rfl, trivial⟩
    · obtain ⟨k', r, hk', hr, hrest⟩ := h.listed c fd' hfd'
      exact ⟨k', r, hk', by rw [Function.update_of_ne (hne hr)]; exact hr, hrest⟩
  · intro k' r hr
    obtain ⟨rfl, rfl⟩ | ⟨hkk, hr⟩ := Table.of_update hr
    · exact ⟨hsock, by omega⟩
    · exact h.owner k' r hr
  · intro item fd hh
    cases hfree _ _ hh
  · intro item fd k hh
    cases hfree _ _ hh

/-- A descriptor is closed whose reader has removed its channel, or never had one. -/
theorem Agree.close (h : Agree table sockets readers dialed handler) (hfd : sockets fd = some k)
    (hunlisted : ∀ r, readers k = some r → ¬r.stage.Listed)
    (hheld : ∀ item fd' k', handler = .busy item (.dialed fd' k') → k' ≠ k) :
    Agree table (Function.update sockets fd none) (Function.update readers k none) dialed handler := by
  have hother : ∀ {fd' k'}, sockets fd' = some k' → k' ≠ k → fd' ≠ fd := by
    rintro fd' k' hk' hne rfl
    exact hne (Option.some.inj (hk'.symm.trans hfd))
  refine ⟨?_, ?_, h.routed, ?_⟩
  · intro c fd' hc
    obtain ⟨k', r, hk', hr, hrest⟩ := h.listed c fd' hc
    have hne : k' ≠ k := by
      rintro rfl
      exact hunlisted r hr hrest.2.2
    exact ⟨k', r, by simpa [hother hk' hne] using hk', by simpa [hne] using hr, hrest⟩
  · intro k' r hr
    obtain ⟨hne, hr⟩ := Table.of_update_none hr
    obtain ⟨hk', hlt⟩ := h.owner k' r hr
    exact ⟨by simpa [hother hk' hne] using hk', hlt⟩
  · intro item fd' k' hh
    obtain ⟨hact, hsock, hnone, hk'⟩ := h.fresh item fd' k' hh
    have hne := hheld item fd' k' hh
    exact ⟨hact, by simpa [hother hsock hne] using hsock, by simpa [hne] using hnone, hk'⟩

end

section

variable {s : Gcdbroker} {item : Item}

theorem free_waiting : SendHandler.Free .waiting := by simp [SendHandler.Free]

theorem free_relaying (msg : BridgeMessage) : SendHandler.Free (.relaying msg) := by
  simp [SendHandler.Free]

theorem free_failed (c : UInt16) : SendHandler.Free (.failed c) := by simp [SendHandler.Free]

theorem free_fetched (item : Item) : SendHandler.Free (.busy item .fetched) := by
  intro item' stage h
  cases h
  rfl

theorem Wf.dispatch (h : Wf s) : Wf (s.dispatch item).1 := by
  unfold Gcdbroker.dispatch
  split
  · exact h.of_free free_waiting
  · split_ifs
    · exact h
    · exact h.of_free (free_relaying _)
  · exact (Agree.remove h _).of_free (free_relaying _)
  · next hact =>
    split
    · exact h.of_free free_waiting
    · next fd hfd => exact h.route hact hfd

theorem Wf.dial (h : Wf s) (fd : Option ℕ) : Wf (s.dial fd).1 := by
  unfold Gcdbroker.dial
  split
  · split_ifs with hact
    · split
      · exact h.of_free (free_relaying _)
      · split_ifs with hclosed
        · exact h.connect hclosed hact.1 hact.2
        · exact h
    · exact h
  · exact h

/-- What could not be inserted is closed. -/
theorem Wf.reject {fd k : ℕ} (h : Wf s) (hh : s.handler = .busy item (.dialed fd k)) :
    Wf { s with
      sockets := Function.update s.sockets fd none
      handler := .relaying (downgrade item.msg) } := by
  rw [Wf, hh] at h
  obtain ⟨-, hsock, hnone, -⟩ := h.fresh item fd k rfl
  -- the number was never given to a reader
  have hfree := h.of_free (free_relaying (downgrade item.msg))
  have hclose := hfree.close hsock (by simp [hnone]) (by simp)
  rwa [← hnone, Function.update_eq_self] at hclose

theorem Wf.insert {fd k : ℕ} (h : Wf s) (hh : s.handler = .busy item (.dialed fd k)) :
    Wf (s.insert item fd k).1 := by
  have hreject := h.reject hh
  rw [Wf, hh] at h
  unfold Gcdbroker.insert
  split
  · exact h.insert (free_relaying _)
  · exact hreject

theorem Wf.handle (h : Wf s) : Wf s.handle.1 := by
  unfold Gcdbroker.handle
  split
  · split
    · exact h
    · exact h.of_free (free_fetched _)
  · exact h.dispatch
  · next hh => exact h.insert hh
  · exact h
  · exact h.of_free free_waiting
  · exact (Agree.remove h _).of_free free_waiting

theorem Wf.send (h : Wf s) (taken : ℕ) : Wf (s.send taken).1 := by
  unfold Gcdbroker.send
  split
  · split
    · dsimp only
      split_ifs
      · exact h.of_free (free_failed _)
      · exact h.of_free free_waiting
    · dsimp only
      split_ifs
      · exact h.of_free (free_failed _)
      · exact h.of_free free_waiting
  · exact h

theorem Reader.feed_fd (r : Reader) (data : Bytes) (due : Bool) :
    (r.feed data due).1.fd = r.fd ∧ (r.feed data due).1.channel = r.channel ∧
      (r.feed data due).1.stage = .receiving := by
  unfold Reader.feed
  dsimp only
  split_ifs <;> exact ⟨rfl, rfl, rfl⟩

theorem Wf.receive {k : ℕ} {r : Reader} (h : Wf s) (hr : s.readers k = some r) (data : Bytes)
    (due : Bool) : Wf (s.receive k r data due).1 := by
  unfold Gcdbroker.receive
  split_ifs
  · dsimp only
    split_ifs
    · exact Agree.update_reader h hr rfl rfl fun _ => .inl trivial
    · exact Agree.update_reader h hr rfl rfl fun _ => .inl trivial
  · exact h

theorem Wf.read {k : ℕ} {r : Reader} (h : Wf s) (hr : s.readers k = some r) :
    Wf (s.read k r).1 := by
  unfold Gcdbroker.read
  split
  · exact h
  · next data due hstage =>
    obtain ⟨hfd, hchannel, hreceiving⟩ := r.feed_fd data due
    exact Agree.update_reader h hr hfd hchannel fun _ => .inl (by rw [hreceiving]; trivial)
  · refine (Agree.remove h r.channel).update_reader hr rfl rfl fun _ => .inr ?_
    exact Function.update_self ..
  · next hstage =>
    refine Agree.update_reader h hr rfl rfl fun hlisted => ?_
    rw [hstage] at hlisted
    exact hlisted.elim
  · next hstage =>
    refine Agree.close h (h.owner k r hr).1 ?_ ?_
    · intro r' hr'
      cases hr.symm.trans hr'
      rw [hstage]
      exact id
    · rintro item fd' k' hh rfl
      have hnone := (h.fresh item fd' k' hh).2.2.1
      rw [hnone] at hr
      cases hr

theorem Wf.step (h : Wf s) (e : Event) : Wf (s.step e).1 := by
  unfold Gcdbroker.step
  cases e with
  | datagram data =>
    dsimp only
    split <;> exact h
  | handle => exact h.handle
  | dial fd => exact h.dial fd
  | send taken => exact h.send taken
  | receive k data due =>
    dsimp only
    split
    · exact h
    · next hr => exact h.receive hr data due
  | timeout k due => exact h
  | read k =>
    dsimp only
    split
    · exact h
    · next hr => exact h.read hr
  | transmit =>
    dsimp only
    split <;> exact h

end

/-- A step either dials the connection with the next number, or none. -/
inductive Dials (s s' : Gcdbroker) : Prop where
  | same (dialed : s'.dialed = s.dialed)
      (handler : ∀ item fd k, s'.handler = .busy item (.dialed fd k) → s'.handler = s.handler)
  | next (item : Item) (fd : ℕ) (dialed : s'.dialed = s.dialed + 1)
      (handler : s'.handler = .busy item (.dialed fd s.dialed))

theorem Dials.le {s s' : Gcdbroker} (h : Dials s s') : s.dialed ≤ s'.dialed := by
  cases h with
  | same hdialed => exact hdialed.ge
  | next _ _ hdialed => omega

theorem dials_handle (s : Gcdbroker) : Dials s s.handle.1 := by
  have hsame : ∀ {s' : Gcdbroker}, s'.dialed = s.dialed →
      (∀ item fd k, s'.handler ≠ .busy item (.dialed fd k)) → Dials s s' :=
    fun hdialed hnone => .same hdialed fun item fd k h => absurd h (hnone item fd k)
  unfold handle
  split
  · split
    · exact .same rfl fun _ _ _ _ => rfl
    · exact hsame rfl nofun
  · unfold dispatch
    split
    · exact hsame rfl nofun
    · split_ifs
      · exact .same rfl fun _ _ _ _ => rfl
      · exact hsame rfl nofun
    · exact hsame rfl nofun
    · split
      · exact hsame rfl nofun
      · exact hsame rfl nofun
  · unfold insert
    split
    · exact hsame rfl nofun
    · exact hsame rfl nofun
  · exact .same rfl fun _ _ _ _ => rfl
  · exact hsame rfl nofun
  · exact hsame rfl nofun

theorem dials_dial (s : Gcdbroker) (fd : Option ℕ) : Dials s (s.dial fd).1 := by
  unfold dial
  split
  · next item _ =>
    split_ifs
    · split
      · exact .same rfl nofun
      · next fd =>
        split_ifs
        · exact .next item fd rfl rfl
        · exact .same rfl fun _ _ _ _ => rfl
    · exact .same rfl fun _ _ _ _ => rfl
  · exact .same rfl fun _ _ _ _ => rfl

theorem dials_send (s : Gcdbroker) (taken : ℕ) : Dials s (s.send taken).1 := by
  unfold send
  split
  · split
    · refine .same rfl fun item fd k h => ?_
      dsimp only at h
      split_ifs at h
    · refine .same rfl fun item fd k h => ?_
      dsimp only at h
      split_ifs at h
  · exact .same rfl fun _ _ _ _ => rfl

theorem dials_step (s : Gcdbroker) (e : Event) : Dials s (s.step e).1 := by
  have hkept : ∀ {s' : Gcdbroker}, s'.dialed = s.dialed → s'.handler = s.handler → Dials s s' :=
    fun hdialed hhandler => .same hdialed fun _ _ _ _ => hhandler
  unfold step
  cases e with
  | datagram data =>
    dsimp only
    split <;> exact hkept rfl rfl
  | handle => exact dials_handle s
  | dial fd => exact dials_dial s fd
  | send taken => exact dials_send s taken
  | receive k data due =>
    dsimp only [receive]
    repeat' split
    all_goals exact hkept rfl rfl
  | timeout k due => exact hkept rfl rfl
  | read k =>
    dsimp only [read]
    repeat' split
    all_goals exact hkept rfl rfl
  | transmit =>
    dsimp only
    split <;> exact hkept rfl rfl

/-- Every reachable state is well formed. -/
theorem wf_run (es : List Event) : Wf (machine.run es) :=
  Machine.invariant (M := machine) (P := fun _ s => Wf s)
    ⟨by simp [machine], by simp [machine], by simp [machine], by simp [machine]⟩
    (fun _ e h => h.step e) es

end Gcdbroker

end GuacamoleDiode
