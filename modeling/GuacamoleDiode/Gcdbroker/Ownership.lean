import GuacamoleDiode.Gcdbroker.Threads

/-!
# Who closes a descriptor

The handler goes on using descriptors that it has looked up in the channel table while the
readers close theirs. Every descriptor is closed once, by the thread that has it, and none is
used that has been closed and dialed again.

## Main definitions

- `ReaderStage.Within`: the reader has left its loop and closes its descriptor soon
- `Owned`: what it means for the descriptors of a run to be owned

## Main results

- `custody_run`: what a run keeps
- `finishes`, `settles`: whoever has a descriptor closes it, or gives it away
- `ownership`: the handler and the readers own their descriptors in every run
-/

namespace GuacamoleDiode

open Wire

namespace Gcdbroker

/-- The reader has left its loop, and closes its descriptor in at most so many steps. -/
def ReaderStage.Within : ReaderStage → ℕ → Prop
  | .leaving, n => 3 ≤ n
  | .announcing, n => 2 ≤ n
  | .closing, n => 1 ≤ n
  | _, _ => False

/-- Nobody but a reader moves it, once it has been started. -/
theorem readers_other {s : Gcdbroker} {e : Event} {k : ℕ} (hthread : e.thread ≠ .reader k)
    (hnew : ∀ item fd, s.handler ≠ .busy item (.dialed fd k)) :
    (s.step e).1.readers k = s.readers k := by
  cases e with
  | handle =>
    dsimp only [step, handle, dispatch, insert]
    repeat' split
    all_goals try rfl
    next item fd k' hh _ _ =>
      have hkk : k ≠ k' := by
        rintro rfl
        exact hnew item fd hh
      exact Function.update_of_ne hkk ..
  | receive j data due =>
    have hkj : k ≠ j := by
      rintro rfl
      exact hthread rfl
    dsimp only [step, receive]
    repeat' split
    · rfl
    · exact Function.update_of_ne hkj ..
    · exact Function.update_of_ne hkj ..
    · rfl
  | read j =>
    have hkj : k ≠ j := by
      rintro rfl
      exact hthread rfl
    dsimp only [step, read]
    repeat' split
    · rfl
    · rfl
    all_goals exact Function.update_of_ne hkj ..
  | _ =>
    dsimp only [step, dial, send]
    repeat' split
    all_goals rfl

/-- A reader that has left its loop only goes on towards the close. -/
theorem within_read {s : Gcdbroker} {k n : ℕ} {r r' : Reader} (hr : s.readers k = some r)
    (h : r.stage.Within n) (hr' : (s.step (.read k)).1.readers k = some r') :
    r'.stage.Within (n - 1) := by
  have hstep : s.step (.read k) = s.read k r := by simp [step, hr]
  rw [hstep, read] at hr'
  cases hstage : r.stage with
  | receiving => exact (hstage ▸ h : ReaderStage.Within .receiving n).elim
  | feeding data due => exact (hstage ▸ h : ReaderStage.Within (.feeding data due) n).elim
  | leaving =>
    have hn : 3 ≤ n := (hstage ▸ h : ReaderStage.Within .leaving n)
    simp only [hstage, Function.update_self] at hr'
    obtain rfl := Option.some.inj hr'
    dsimp only
    split
    · show 2 ≤ n - 1
      omega
    · show 1 ≤ n - 1
      omega
  | announcing =>
    have hn : 2 ≤ n := (hstage ▸ h : ReaderStage.Within .announcing n)
    simp only [hstage, Function.update_self] at hr'
    obtain rfl := Option.some.inj hr'
    show 1 ≤ n - 1
    omega
  | closing => simp [hstage] at hr'

/-- Until it has closed its descriptor, a reader that has left its loop comes closer to the close
with every step. -/
theorem within_step {s : Gcdbroker} {e : Event} {k n : ℕ} {r' : Reader}
    (h : ∀ r, s.readers k = some r → r.stage.Within n)
    (hnew : ∀ item fd, s.handler ≠ .busy item (.dialed fd k))
    (hr' : (s.step e).1.readers k = some r') :
    r'.stage.Within (n - if e = .read k then 1 else 0) := by
  cases e with
  | receive j data due =>
    rw [if_neg (by simp)]
    by_cases hkj : j = k
    · subst hkj
      cases hr : s.readers j with
      | none =>
        simp [step, hr] at hr'
      | some r =>
        have hwithin := h r hr
        have hstage : r.stage ≠ .receiving := by
          rintro hstage
          rw [hstage] at hwithin
          exact hwithin
        simp only [step, hr, receive, if_neg hstage] at hr'
        obtain rfl := Option.some.inj hr'
        exact hwithin
    · have hthread : (Event.receive j data due).thread ≠ .reader k :=
        fun heq => hkj (Thread.reader.inj heq)
      rw [readers_other hthread hnew] at hr'
      exact h r' hr'
  | timeout j due =>
    rw [if_neg (by simp)]
    exact h r' hr'
  | read j =>
    by_cases hkj : j = k
    · subst hkj
      rw [if_pos rfl]
      cases hr : s.readers j with
      | none => simp [step, hr] at hr'
      | some r => exact within_read hr (h r hr) hr'
    · have hthread : (Event.read j).thread ≠ .reader k := fun heq => hkj (Thread.reader.inj heq)
      rw [readers_other hthread hnew] at hr'
      rw [if_neg fun heq => hkj (Event.read.inj heq)]
      exact h r' hr'
  | _ =>
    rw [readers_other (by simp [Event.thread]) hnew] at hr'
    rw [if_neg (by simp)]
    exact h r' hr'

namespace Threads

section

variable {s : Threads} {k : ℕ}

/-- What the broker closes is what the handler has dialed, or what a reader has. -/
theorem open_of_close_broker {s : Gcdbroker} (hwf : Gcdbroker.Wf s) {e : Gcdbroker.Event} {fd : ℕ}
    (h : .close fd ∈ (s.step e).2) : ∃ k, s.sockets fd = some k := by
  cases e with
  | handle =>
    dsimp only [Gcdbroker.step, handle] at h
    split at h
    · split at h <;> simp at h
    · dsimp only [dispatch] at h
      repeat' split at h
      all_goals simp at h
    · next item fd' k hh =>
      dsimp only [Gcdbroker.insert] at h
      split at h
      · simp at h
      · obtain rfl : fd = fd' := by simpa using h
        exact ⟨k, (hwf.fresh item fd k hh).2.1⟩
    · simp at h
    · simp at h
    · simp at h
  | dial fd' =>
    dsimp only [Gcdbroker.step, Gcdbroker.dial] at h
    repeat' split at h
    all_goals simp at h
  | send taken =>
    dsimp only [Gcdbroker.step, Gcdbroker.send] at h
    repeat' split at h
    all_goals simp at h
  | read k =>
    dsimp only [Gcdbroker.step] at h
    split at h
    · simp at h
    · next r hr =>
      unfold read at h
      split at h
      · simp at h
      · simp at h
      · simp at h
      · simp at h
      · obtain rfl : fd = r.fd := by simpa using h
        exact ⟨k, (hwf.owner k r hr).1⟩
  | _ =>
    dsimp only [Gcdbroker.step, receive] at h
    repeat' split at h
    all_goals simp at h

/-- A descriptor that is closed is open. -/
theorem open_of_close (hwf : Wf s) {e : Event} {who : Thread} {fd : ℕ}
    (h : (who, Effect.close fd) ∈ (Threads.step s e).2) : ∃ k, s.broker.sockets fd = some k := by
  cases e with
  | broker e =>
    dsimp only [Threads.step] at h
    split_ifs at h
    · exact absurd h List.not_mem_nil
    · exact absurd h List.not_mem_nil
    · obtain ⟨effect, hmem, heq⟩ := List.mem_map.mp h
      obtain ⟨-, rfl⟩ := Prod.mk.inj heq
      exact open_of_close_broker hwf.broker (List.mem_of_mem_filter hmem)
  | call =>
    cases hcall : s.call with
    | none => simp [Threads.step, hcall] at h
    | shutdown fd' => simp [Threads.step, hcall] at h
    | close =>
      simp only [Threads.step, hcall] at h
      split at h
      · next item fd' k hh =>
        obtain ⟨-, heq⟩ := Prod.mk.inj (List.mem_singleton.mp h)
        cases heq
        exact ⟨k, (hwf.broker.fresh item fd k hh).2.1⟩
      · exact absurd h List.not_mem_nil

/-- What the handler has dialed and not inserted. -/
theorem exists_of_fresh {fd : ℕ} (h : s.hand = .fresh fd k) :
    ∃ item, s.broker.handler = .busy item (.dialed fd k) := by
  unfold hand at h
  split at h
  · cases h
  · next hh _ =>
    cases h
    exact ⟨_, hh⟩
  · cases h
  · cases h

/-- The handler has the descriptor that it uses in its hands. -/
theorem hand_of_uses {e : Event} {fd : ℕ} (h : s.uses e = some fd) : s.hand = .taken fd s.found := by
  unfold uses at h
  split at h
  · split at h
    · next hcall hh =>
      cases h
      simp [hand, hcall, hh]
    · cases h
  · split at h
    · next hcall =>
      cases h
      simp [hand, hcall]
    · cases h
  · cases h

/-- What a run keeps: the state is well formed, and so is its custody. -/
theorem custody_run (es : List Event) :
    Wf (machine.run es) ∧ (dials es).length = (machine.run es).broker.dialed ∧
      Custody.Wf .handler .reader ((machine.run es).custody (machine.emitted es) (closers es)) := by
  induction es using List.reverseRecOn with
  | nil =>
    refine ⟨⟨wf_run [], nofun⟩, rfl, ?_⟩
    have hinit : (machine.run []).custody (machine.emitted []) (closers []) = {} := by
      refine Custody.ext rfl rfl rfl rfl rfl ?_ rfl
      exact Set.eq_empty_of_forall_notMem fun k ⟨item, hmem⟩ => absurd hmem List.not_mem_nil
    rw [hinit]
    exact Custody.wf_init
  | append_singleton es e ih =>
    obtain ⟨hwf, hlen, hcustody⟩ := ih
    have hstep : Threads.step (machine.run es) e = machine.step (machine.run es) e := rfl
    have hclosers : closers (es ++ [e]) = fun k => closers es k ++
        closing (machine.run es).broker.sockets k (machine.step (machine.run es) e).2 := by
      funext k
      exact Machine.collect_snoc ..
    rw [Machine.run_snoc, Machine.emitted_snoc, hclosers]
    refine ⟨hwf.step e, ?_, hcustody.step (custody_step hwf e _ _ hlen)⟩
    have hlength := length_dialed (machine.run es) e
    rw [dials, Machine.emitted_snoc, List.filterMap_append, List.length_append]
    have hlen' : ((machine.emitted es).filterMap dialed).length = (machine.run es).broker.dialed := hlen
    rw [hstep] at hlength
    omega

/-- What has been inserted and dialed stays so. -/
theorem inserted_mono (es es' : List Event) (h : k ∈ inserted (machine.emitted es)) :
    k ∈ inserted (machine.emitted (es ++ es')) := by
  induction es' using List.reverseRecOn with
  | nil => simpa using h
  | append_singleton es' e ih =>
    obtain ⟨item, hmem⟩ := ih
    refine ⟨item, ?_⟩
    rw [← List.append_assoc, Machine.emitted_snoc]
    exact List.mem_append_left _ hmem

/-- The handler does not hold what it has inserted. -/
theorem not_dialed_of_inserted (es : List Event) (h : k ∈ inserted (machine.emitted es)) (item : Item)
    (fd : ℕ) : (machine.run es).broker.handler ≠ .busy item (.dialed fd k) := by
  intro hh
  obtain ⟨hwf, -, hcustody⟩ := custody_run es
  have hhand : (machine.run es).hand = .fresh fd k := by
    unfold hand
    split
    · next hcall =>
      cases hwf.free _ hcall _ _ hh
    · next hh' _ =>
      cases hh.symm.trans hh'
      rfl
    · next hh' _ => cases hh.symm.trans hh'
    · next hne _ => exact absurd hh (hne item fd k)
  exact (hcustody.fresh fd k hhand).2 h

/-- A connection whose reader is gone has been closed by it. -/
theorem closers_of_inserted {es : List Event} (hgiven : k ∈ inserted (machine.emitted es))
    (hnone : (machine.run es).broker.readers k = none) : closers es k = [.reader k] := by
  obtain ⟨-, -, hcustody⟩ := custody_run es
  have hlt : k < (dials es).length := by
    by_contra hge
    exact (hcustody.unused k (not_lt.mp hge)).2 hgiven
  obtain ⟨fd, hk⟩ : ∃ fd, (dials es)[k]? = some fd := ⟨_, List.getElem?_eq_getElem hlt⟩
  rcases hcustody.closed_once hk with ⟨-, -, hfresh | hworking⟩ | ⟨-, hnot⟩ | ⟨hclosers, -⟩
  · exact absurd hgiven (hcustody.fresh fd k hfresh).2
  · have hsome : ((machine.run es).broker.readers k).map Reader.fd = some fd := hworking
    rw [hnone] at hsome
    cases hsome
  · exact absurd hgiven hnot
  · exact hclosers

/-- What becomes of the readers in a step is decided by the broker. -/
theorem readers_step (s : Threads) (e : Event) (k : ℕ) :
    (Threads.step s e).1.broker.readers k = s.broker.readers k ∧ e ≠ .broker (.read k) ∨
      ∃ e', e = .broker e' ∧ (Threads.step s e).1.broker = (s.broker.step e').1 := by
  cases e with
  | broker e =>
    by_cases hread : e = .read k
    · refine .inr ⟨e, rfl, ?_⟩
      subst hread
      simp [Threads.step, Event.thread, occupied, advance]
    · have hne : Event.broker e ≠ .broker (.read k) := fun heq => hread (Event.broker.inj heq)
      dsimp only [Threads.step]
      split_ifs
      · exact .inl ⟨rfl, hne⟩
      · exact .inl ⟨rfl, hne⟩
      · exact .inr ⟨e, rfl, rfl⟩
  | call =>
    refine .inl ⟨?_, by simp⟩
    dsimp only [Threads.step]
    repeat' split
    all_goals rfl

/-- A reader that has left its loop closes its descriptor in three steps of its own, whatever the
other threads do. -/
theorem finishes (es es' : List Event) {r : Reader} (hr : (machine.run es).broker.readers k = some r)
    (hstage : r.stage.Within 3) (hcount : 3 ≤ es'.count (.broker (.read k))) :
    closers (es ++ es') k = [.reader k] := by
  have hworking : ((machine.run es).custody (machine.emitted es) (closers es)).workers k = some r.fd := by
    simp [custody, hr]
  have hgiven : ∀ es', k ∈ inserted (machine.emitted (es ++ es')) :=
    fun es' => inserted_mono es es' ((custody_run es).2.2.working k r.fd hworking).2
  have hwithin : ∀ r', (machine.run (es ++ es')).broker.readers k = some r' →
      r'.stage.Within (3 - es'.count (.broker (.read k))) := by
    clear hcount
    induction es' using List.reverseRecOn with
    | nil =>
      intro r' hr'
      rw [List.append_nil] at hr'
      obtain rfl := Option.some.inj (hr.symm.trans hr')
      exact hstage
    | append_singleton es' e ih =>
      intro r' hr'
      have hnew := not_dialed_of_inserted (es ++ es') (hgiven es')
      rw [← List.append_assoc, Machine.run_snoc] at hr'
      rw [List.count_append, Nat.sub_add_eq]
      rcases readers_step (machine.run (es ++ es')) e k with ⟨hsame, hne⟩ | ⟨e', rfl, hbroker⟩
      · have hr₀ := hsame.symm.trans hr'
        rw [List.count_singleton, if_neg (by simpa using hne)]
        exact ih r' hr₀
      · have hr₀ : ((machine.run (es ++ es')).broker.step e').1.readers k = some r' :=
          hbroker ▸ hr'
        have hstep := within_step ih hnew hr₀
        have hcount : [Event.broker e'].count (.broker (.read k)) = if e' = .read k then 1 else 0 := by
          rw [List.count_singleton]
          simp
        rw [hcount]
        exact hstep
  -- nobody has the descriptor any more
  have hnone : (machine.run (es ++ es')).broker.readers k = none := by
    rw [Option.eq_none_iff_forall_ne_some]
    intro r' hr'
    have hzero := hwithin r' hr'
    rw [Nat.sub_eq_zero_of_le hcount] at hzero
    cases hstage' : r'.stage <;> rw [hstage'] at hzero <;> simp [ReaderStage.Within] at hzero
  exact closers_of_inserted (hgiven es') hnone

/-- The connection is out of the hands of the handler: it has been closed, or inserted. -/
def Settled (es : List Event) (k : ℕ) : Prop :=
  closers es k = [.handler] ∨ k ∈ inserted (machine.emitted es)

theorem dials_append (es es' : List Event) : ∃ fds, dials (es ++ es') = dials es ++ fds := by
  induction es' using List.reverseRecOn with
  | nil => exact ⟨[], by simp⟩
  | append_singleton es' e ih =>
    obtain ⟨fds, hfds⟩ := ih
    refine ⟨fds ++ ((machine.step (machine.run (es ++ es')) e).2.filterMap dialed), ?_⟩
    rw [← List.append_assoc, dials, Machine.emitted_snoc, List.filterMap_append, ← List.append_assoc,
      ← hfds]
    rfl

theorem closers_append (es es' : List Event) (k : ℕ) :
    ∃ more, closers (es ++ es') k = closers es k ++ more := by
  induction es' using List.reverseRecOn with
  | nil => exact ⟨[], by simp⟩
  | append_singleton es' e ih =>
    obtain ⟨more, hmore⟩ := ih
    refine ⟨more ++ closing (machine.run (es ++ es')).broker.sockets k
      (Threads.step (machine.run (es ++ es')) e).2, ?_⟩
    rw [← List.append_assoc, ← List.append_assoc, ← hmore]
    exact Machine.collect_snoc ..

/-- What has been dialed is in the hands of the handler until it is settled. -/
theorem settled_or_held {es : List Event} (hk : k < (dials es).length) :
    Settled es k ∨ ∃ item fd, (machine.run es).broker.handler = .busy item (.dialed fd k) := by
  obtain ⟨-, -, hcustody⟩ := custody_run es
  have hfd : (dials es)[k]? = some (dials es)[k] := List.getElem?_eq_getElem hk
  rcases hcustody.closed_once hfd with ⟨-, -, hfresh | hworking⟩ | ⟨hclosers, -⟩ | ⟨-, hgiven⟩
  · obtain ⟨item, hh⟩ := exists_of_fresh hfresh
    exact .inr ⟨item, _, hh⟩
  · exact .inl (.inr (hcustody.working k _ hworking).2)
  · exact .inl (.inl hclosers)
  · exact .inl (.inr hgiven)

/-- What is settled stays so. -/
theorem Settled.append {es : List Event} (h : Settled es k) (es' : List Event) : Settled (es ++ es') k := by
  rcases h with hclosers | hgiven
  · obtain ⟨-, -, hcustody⟩ := custody_run (es ++ es')
    obtain ⟨more, hmore⟩ := closers_append es es' k
    have hne : closers (es ++ es') k ≠ [] := by
      rw [hmore, hclosers]
      exact List.cons_ne_nil _ _
    have hlt : k < (dials (es ++ es')).length := by
      by_contra hge
      exact hne (hcustody.unused k (not_lt.mp hge)).1
    have hfd : (dials (es ++ es'))[k]? = some (dials (es ++ es'))[k] := List.getElem?_eq_getElem hlt
    rcases hcustody.closed_once hfd with ⟨hnil, -⟩ | ⟨hclosers', -⟩ | ⟨-, hgiven⟩
    · exact absurd hnil hne
    · exact .inl hclosers'
    · exact .inr hgiven
  · exact .inr (inserted_mono es es' hgiven)

/-- The handler settles what it holds with its next two accesses. -/
theorem held_step (hwf : Wf s) {item : Item} {fd : ℕ}
    (hh : s.broker.handler = .busy item (.dialed fd k)) (e : Event) :
    (Threads.step s e).1.broker.handler.Free ∨
      ((Threads.step s e).1.broker.handler = .busy item (.dialed fd k) ∧
        (s.call = .close ∨ e = .broker .handle → e ≠ .call ∧ (Threads.step s e).1.call = .close)) := by
  have hshutdown : ∀ fd', s.call ≠ .shutdown fd' := by
    intro fd' hcall
    cases hwf.free fd' hcall _ _ hh
  cases e with
  | broker e =>
    dsimp only [Threads.step]
    split_ifs with hblocked hoccupied
    · refine .inr ⟨hh, fun _ => ⟨by simp, ?_⟩⟩
      cases hcall : s.call with
      | none => exact absurd hcall hblocked.2
      | shutdown fd' => exact absurd hcall (hshutdown fd')
      | close => rfl
    · exact .inr ⟨hh, fun _ => ⟨by simp, rfl⟩⟩
    · by_cases hthread : e.thread = .handler
      · have hcall : s.call = .none := by
          by_contra hcall
          exact hblocked ⟨hthread, hcall⟩
        have hsame : s.broker.step e = (s.broker, []) → e ≠ .handle →
            (s.advance e).1.broker.handler = .busy item (.dialed fd k) ∧
              (s.call = .close ∨ Event.broker e = .broker .handle →
                Event.broker e ≠ .call ∧ (s.advance e).1.call = .close) := by
          intro hstep hne
          refine ⟨by simp [advance, hstep, hh], ?_⟩
          simp [hcall, hne]
        cases e with
        | handle =>
          have hnone : s.broker.table item.msg.channel = none := by
            simpa [occupied, hh] using hoccupied
          left
          simp only [advance, Gcdbroker.step, handle, hh, Gcdbroker.insert, hnone]
          exact free_relaying item.msg
        | dial fd' => exact .inr (hsame (by simp [Gcdbroker.step, Gcdbroker.dial, hh]) (by simp))
        | send taken => exact .inr (hsame (by simp [Gcdbroker.step, Gcdbroker.send, hh]) (by simp))
        | _ => cases hthread
      · obtain ⟨hhandler, hplain⟩ := handler_other s.broker hthread
        refine .inr ⟨hhandler.trans hh, fun hcall => ⟨by simp, ?_⟩⟩
        have hclose : s.call = .close := by
          refine hcall.resolve_right fun heq => hthread ?_
          rw [Event.broker.inj heq]
          rfl
        simp only [advance, List.findSome?_eq_none_iff.mpr hplain, hclose, Option.elim_none]
  | call =>
    cases hcall : s.call with
    | none =>
      simp only [Threads.step, hcall]
      exact .inr ⟨hh, by simp⟩
    | shutdown fd' => exact absurd hcall (hshutdown fd')
    | close =>
      simp only [Threads.step, hcall, hh]
      exact .inl (free_relaying _)

/-- The handler is about to close a connection. -/
def Refused (es : List Event) (k : ℕ) : Prop :=
  (∃ item fd, (machine.run es).broker.handler = .busy item (.dialed fd k)) ∧
    (machine.run es).call = .close

/-- What the handler holds has been dialed. -/
theorem lt_of_held {es : List Event} {item : Item} {fd : ℕ}
    (hh : (machine.run es).broker.handler = .busy item (.dialed fd k)) : k < (dials es).length := by
  obtain ⟨hwf, hlen, -⟩ := custody_run es
  obtain ⟨-, -, -, hk⟩ := hwf.broker.fresh item fd k hh
  omega

/-- The handler goes on with what it holds. -/
theorem settled_or_refused {es : List Event} {item : Item} {fd : ℕ}
    (hh : (machine.run es).broker.handler = .busy item (.dialed fd k)) {e : Event}
    (he : (machine.run es).call = .close ∨ e = .broker .handle) :
    Settled (es ++ [e]) k ∨ e ≠ .call ∧ Refused (es ++ [e]) k := by
  obtain ⟨hwf, -, -⟩ := custody_run es
  have hrun : machine.run (es ++ [e]) = (Threads.step (machine.run es) e).1 := Machine.run_snoc ..
  rcases held_step hwf hh e with hfree | ⟨hheld, hcall⟩
  · left
    have hk : k < (dials (es ++ [e])).length := by
      obtain ⟨fds, hfds⟩ := dials_append es [e]
      rw [hfds, List.length_append]
      exact Nat.lt_add_right _ (lt_of_held hh)
    refine (settled_or_held hk).resolve_right ?_
    rintro ⟨item', fd', hh'⟩
    rw [hrun] at hh'
    cases hfree _ _ hh'
  · obtain ⟨hne, hclose⟩ := hcall he
    refine .inr ⟨hne, ⟨item, fd, ?_⟩, ?_⟩
    · rw [hrun, hheld]
    · rw [hrun, hclose]

/-- While the handler is about to close a connection, nobody takes it from the handler. -/
theorem Refused.append {es : List Event} (h : Refused es k) (es' : List Event) :
    Settled (es ++ es') k ∨ Refused (es ++ es') k := by
  induction es' using List.reverseRecOn with
  | nil =>
    rw [List.append_nil]
    exact .inr h
  | append_singleton es' e ih =>
    rw [← List.append_assoc]
    rcases ih with hsettled | ⟨⟨item, fd, hh⟩, hcall⟩
    · exact .inl (hsettled.append [e])
    · exact (settled_or_refused hh (.inl hcall)).imp_right And.right

/-- What the handler has dialed it inserts with its next access, or closes with the call behind it,
whatever the other threads do. -/
theorem settles {es : List Event} {item : Item} {fd : ℕ}
    (hh : (machine.run es).broker.handler = .busy item (.dialed fd k)) {es' : List Event}
    (hsteps : [.broker .handle, .call].Sublist es') : Settled (es ++ es') k := by
  obtain ⟨r₁, r₂, rfl, hhandle, hcall⟩ := List.cons_sublist_iff.mp hsteps
  obtain ⟨a, b, rfl⟩ := List.append_of_mem hhandle
  obtain ⟨c, d, rfl⟩ := List.append_of_mem (List.singleton_sublist.mp hcall)
  have hk : k < (dials (es ++ a)).length := by
    obtain ⟨fds, hfds⟩ := dials_append es a
    rw [hfds, List.length_append]
    exact Nat.lt_add_right _ (lt_of_held hh)
  have hafter : Settled (es ++ a ++ [.broker .handle]) k ∨ Refused (es ++ a ++ [.broker .handle]) k := by
    rcases settled_or_held hk with hsettled | ⟨item', fd', hh'⟩
    · exact .inl (hsettled.append _)
    · exact (settled_or_refused hh' (.inr rfl)).imp_right And.right
  have hbefore : Settled (es ++ a ++ [.broker .handle] ++ (b ++ c)) k ∨
      Refused (es ++ a ++ [.broker .handle] ++ (b ++ c)) k := by
    rcases hafter with hsettled | hrefused
    · exact .inl (hsettled.append _)
    · exact hrefused.append _
  have hcalled : Settled (es ++ a ++ [.broker .handle] ++ (b ++ c) ++ [.call]) k := by
    rcases hbefore with hsettled | ⟨⟨item', fd', hh'⟩, hclose⟩
    · exact hsettled.append _
    · exact (settled_or_refused hh' (.inl hclose)).resolve_right fun h => h.1 rfl
  simpa using hcalled.append d

end

/-- Every descriptor that `Connect` returns is closed once, by the thread that has it, and the
handler uses none that has been closed and returned again. -/
structure Owned (es : List Event) : Prop where
  /-- nothing is closed that is not open -/
  closes : ∀ e who fd, (who, .close fd) ∈ (step (machine.run es) e).2 →
    ∃ k, (machine.run es).broker.sockets fd = some k
  /-- a descriptor is open for its connection and in the hands of one thread, or has been closed
  once: by the handler if it has not been inserted, and by its own reader otherwise -/
  once : ∀ k fd, (dials es)[k]? = some fd →
    closers es k = [] ∧ (machine.run es).broker.sockets fd = some k ∧
        ((∃ item, (machine.run es).broker.handler = .busy item (.dialed fd k)) ∨
          ∃ r, (machine.run es).broker.readers k = some r ∧ r.fd = fd) ∨
      closers es k = [.handler] ∧ k ∉ inserted (machine.emitted es) ∨
      closers es k = [.reader k] ∧ k ∈ inserted (machine.emitted es)
  /-- a reader that has left its loop closes its descriptor in three steps of its own -/
  reader : ∀ k r, (machine.run es).broker.readers k = some r → r.stage.Within 3 →
    ∀ es', 3 ≤ es'.count (.broker (.read k)) → closers (es ++ es') k = [.reader k]
  /-- the handler inserts what it has dialed with its next access, or closes it behind that -/
  handler : ∀ item fd k, (machine.run es).broker.handler = .busy item (.dialed fd k) →
    ∀ es', [.broker .handle, .call].Sublist es' →
      closers (es ++ es') k = [.handler] ∨ k ∈ inserted (machine.emitted (es ++ es'))
  /-- the descriptor of a `Send` or a `Shutdown` is that of the connection for which it has been
  inserted, or closed and not in use again -/
  uses : ∀ e fd, (machine.run es).uses e = some fd → (dials es)[(machine.run es).found]? = some fd ∧
    ((machine.run es).broker.sockets fd = some (machine.run es).found ∨
      (machine.run es).broker.sockets fd = none)

/-- The handler and the readers own their descriptors in every run. -/
theorem ownership (es : List Event) : Owned es := by
  obtain ⟨hwf, -, hcustody⟩ := custody_run es
  refine ⟨fun e who fd h => open_of_close hwf h, fun k fd hk => ?_,
    fun k r hr hstage es' hcount => finishes es es' hr hstage hcount,
    fun item fd k hh es' hsteps => settles hh hsteps, fun e fd he => ?_⟩
  · rcases hcustody.closed_once hk with ⟨hclosers, hfile, howner⟩ | hclosed
    · refine .inl ⟨hclosers, hfile, howner.imp (fun hfresh => ?_) fun hworking => ?_⟩
      · exact exists_of_fresh hfresh
      · exact Option.map_eq_some_iff.mp hworking
    · exact .inr hclosed
  · exact hcustody.taken fd _ (hand_of_uses he)

end Threads

end Gcdbroker

end GuacamoleDiode
