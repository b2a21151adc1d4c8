import GuacamoleDiode.Gcdbroker.Integrity
import GuacamoleDiode.Gcdbroker.Turns

/-!
# How connections end

Whoever removes a channel from the table announces it: the handler when a SHUTDOWN comes
from the bridge, and a reader when guacd ends its connection. A write that fails removes
the channel as well, and announces nothing.

## Main definitions

- `Announced`: a SHUTDOWN of a channel has been queued since a connection was bound to it
- `Doomed`: a SHUTDOWN of a channel is about to be queued
- `Announces`: the condition on a step under which nothing ends unannounced

## Main results

- `announced_of_announces`: every connection that has ended has been announced
-/

namespace GuacamoleDiode

open Wire

namespace Gcdbroker

/-- The message closes the channel on the other side. -/
def Shuts (c : UInt16) (msg : BridgeMessage) : Prop :=
  msg.action = .shutdownChannel ∧ msg.channel = c

instance (c : UInt16) (msg : BridgeMessage) : Decidable (Shuts c msg) :=
  inferInstanceAs (Decidable (_ ∧ _))

/-- A SHUTDOWN of the channel has been put on the send queue since connection `k` was bound. -/
def Announced (es : List Event) (k : ℕ) (c : UInt16) : Prop :=
  ∃ pre e post, es = pre ++ e :: post ∧ (∃ item, .insert k item ∈ machine.emitted pre) ∧
    ∃ msg ∈ (machine.run pre).enqueued e, Shuts c msg

/-- A SHUTDOWN of the channel is about to be queued. -/
def Doomed (handler : SendHandler) (readers : ℕ → Option Reader) (c : UInt16) : Prop :=
  (∃ msg, handler = .relaying msg ∧ Shuts c msg) ∨
    ∃ k r, readers k = some r ∧ r.stage = .announcing ∧ r.channel = c

/-- The step neither removes a bound channel after a failed write, nor finishes a reader
while a SHUTDOWN of its channel is about to be queued. -/
def Announces (s : Gcdbroker) (e : Event) : Prop :=
  (e = .handle → ∀ c, s.handler = .failed c → s.table c = none) ∧
    ∀ k r, e = .read k → s.readers k = some r → r.stage = .closing →
      ¬Doomed s.handler s.readers r.channel

/-- The reader of a connection runs, and either the channel is still its own or a SHUTDOWN
of it is about to be queued. -/
def Running (s : Gcdbroker) (k : ℕ) (c : UInt16) : Prop :=
  ∃ r, s.readers k = some r ∧ r.channel = c ∧
    (s.table c = some r.fd ∨ Doomed s.handler s.readers c)

section

variable {es : List Event} {e : Event} {s s' : Gcdbroker} {k k' : ℕ} {c : UInt16} {r r' : Reader}

theorem Announced.snoc (h : Announced es k c) (e : Event) : Announced (es ++ [e]) k c := by
  obtain ⟨pre, e', post, rfl, h⟩ := h
  exact ⟨pre, e', post ++ [e], by simp, h⟩

/-- A step that leaves the readers alone. -/
theorem Running.of_readers (h : Running s k c) (hreaders : s'.readers = s.readers)
    (htable : s'.table c = s.table c ∨ Doomed s'.handler s'.readers c)
    (hrelaying : ∀ msg, s.handler = .relaying msg → Shuts c msg → s'.handler = .relaying msg) :
    Running s' k c := by
  obtain ⟨r, hr, hc, hcase⟩ := h
  refine ⟨r, hreaders ▸ hr, hc, ?_⟩
  rcases htable with htable | hdoomed
  · refine hcase.imp (htable.trans ·) ?_
    rintro (⟨msg, hmsg, hshuts⟩ | hreader)
    · exact .inl ⟨msg, hrelaying msg hmsg hshuts, hshuts⟩
    · exact .inr (hreaders ▸ hreader)
  · exact .inr hdoomed

/-- A step of a reader. -/
theorem Running.of_reader (h : Running s k c) (hr : s.readers k' = some r)
    (hreaders : s'.readers = Function.update s.readers k' (some r'))
    (hsame : r'.fd = r.fd ∧ r'.channel = r.channel) (hhandler : s'.handler = s.handler)
    (htable : s'.table c = s.table c ∨ Doomed s'.handler s'.readers c)
    (hstage : r.stage = .announcing → r.channel = c → r'.stage = .announcing) :
    Running s' k c := by
  obtain ⟨r₀, hr₀, hc, hcase⟩ := h
  have hother : ∀ {k₁ r₁}, k₁ ≠ k' → s.readers k₁ = some r₁ → s'.readers k₁ = some r₁ := by
    intro k₁ r₁ hne hr₁
    rw [hreaders, Function.update_of_ne hne]
    exact hr₁
  have hself : s'.readers k' = some r' := by rw [hreaders, Function.update_self]
  have hcase' : s'.table c = some r₀.fd ∨ Doomed s'.handler s'.readers c := by
    rcases htable with htable | hdoomed
    · refine hcase.imp (htable.trans ·) ?_
      rintro (hrelaying | ⟨k₁, r₁, hr₁, hann, hc₁⟩)
      · exact .inl (hhandler ▸ hrelaying)
      · by_cases hk : k₁ = k'
        · subst hk
          cases hr.symm.trans hr₁
          exact .inr ⟨k₁, r', hself, hstage hann hc₁, hsame.2.trans hc₁⟩
        · exact .inr ⟨k₁, r₁, hother hk hr₁, hann, hc₁⟩
    · exact .inr hdoomed
  by_cases hk : k = k'
  · subst hk
    cases hr.symm.trans hr₀
    exact ⟨r', hself, hsame.2.trans hc, by rwa [hsame.1]⟩
  · exact ⟨r₀, hother hk hr₀, hc, hcase'⟩

/-- A step that leaves its reader alone, and the readers that are about to announce a channel. -/
theorem Running.of_others (h : Running s k c)
    (hother : ∀ k₁ r₁, k₁ = k ∨ r₁.stage = .announcing → s.readers k₁ = some r₁ →
      s'.readers k₁ = some r₁)
    (htable : ∀ fd, s.table c = some fd → s'.table c = some fd)
    (hrelaying : ∀ msg, s.handler = .relaying msg → s'.handler = .relaying msg) :
    Running s' k c := by
  obtain ⟨r, hr, hc, hcase⟩ := h
  refine ⟨r, hother k r (.inl rfl) hr, hc, hcase.imp (htable r.fd) ?_⟩
  rintro (⟨msg, hmsg, hshuts⟩ | ⟨k₁, r₁, hr₁, hann, hc₁⟩)
  · exact .inl ⟨msg, hrelaying msg hmsg, hshuts⟩
  · exact .inr ⟨k₁, r₁, hother k₁ r₁ (.inr hann) hr₁, hann, hc₁⟩

/-- A reader that closes its descriptor has announced its channel. -/
theorem Running.ne_of_closing (h : Running s k c) (hwf : Wf s) (hok : Announces s e)
    (he : e = .read k') (hr : s.readers k' = some r) (hstage : r.stage = .closing) : k ≠ k' := by
  obtain ⟨r₀, hr₀, hc, hcase⟩ := h
  rintro rfl
  cases hr.symm.trans hr₀
  rcases hcase with hfd | hdoomed
  · -- the channel would be bound to a descriptor whose reader has removed it
    obtain ⟨k₁, r₁, hk₁, hr₁, hfd₁, -, hlisted⟩ := hwf.listed c r.fd hfd
    cases (hwf.owner k r hr).1.symm.trans hk₁
    cases hr.symm.trans hr₁
    rw [hstage] at hlisted
    exact hlisted
  · exact hok.2 k r he hr hstage (hc ▸ hdoomed)

/-- A connection whose reader runs keeps running, or a SHUTDOWN of its channel is queued. -/
theorem Running.turn {msgs : List BridgeMessage} (h : Running s k c) (hwf : Wf s)
    (hok : Announces s e) (hturn : Turn s e s' msgs) :
    Running s' k c ∨ ∃ msg ∈ msgs, Shuts c msg := by
  cases hturn with
  | other htable hreaders hrelaying =>
    refine .inl (h.of_readers hreaders (.inl (by rw [htable])) fun msg hmsg _ => ?_)
    exact ((hrelaying msg).resolve_left (absurd hmsg)).trans hmsg
  | shut item hh _ htable hreaders hh' =>
    refine .inl (h.of_readers hreaders ?_ fun msg hmsg _ => by cases hh.symm.trans hmsg)
    by_cases hc : c = item.msg.channel
    · exact .inr (.inl ⟨_, hh', rfl, hc.symm⟩)
    · exact .inl (by rw [htable, Function.update_of_ne hc])
  | bind _ item fd k' hh hnone htable hreaders _ =>
    refine .inl (h.of_others (fun k₁ r₁ _ hr₁ => ?_) (fun fd' hfd => ?_) fun msg hmsg => ?_)
    · have hne : k₁ ≠ k' := by
        rintro rfl
        cases (hwf.fresh item fd k₁ hh).2.2.1.symm.trans hr₁
      rw [hreaders, Function.update_of_ne hne]
      exact hr₁
    · have hne : c ≠ item.msg.channel := by
        rintro rfl
        cases hnone.symm.trans hfd
      rw [htable, Function.update_of_ne hne]
      exact hfd
    · cases hh.symm.trans hmsg
  | relay msg hh htable hreaders _ =>
    by_cases hshuts : Shuts c msg
    · exact .inr ⟨msg, List.mem_singleton_self msg, hshuts⟩
    · refine .inl (h.of_readers hreaders (.inl (by rw [htable])) fun msg' hmsg' hshuts' => ?_)
      cases hh.symm.trans hmsg'
      exact absurd hshuts' hshuts
  | fail he c' hh htable hreaders _ =>
    -- there is nothing left to remove
    have hsame : s'.table = s.table := by
      rw [htable, ← hok.1 he c' hh, Function.update_eq_self]
    exact .inl (h.of_readers hreaders (.inl (by rw [hsame])) fun msg hmsg _ => by
      cases hh.symm.trans hmsg)
  | work k' r r' hr htable hreaders hsame hlisted hh =>
    refine .inl (h.of_reader hr hreaders hsame hh (.inl (by rw [htable])) fun hann _ => ?_)
    rw [hann] at hlisted
    exact hlisted.1.elim
  | leave k' r hr hstage htable hreaders hh =>
    refine .inl (h.of_reader hr hreaders ⟨rfl, rfl⟩ hh ?_ fun hann _ => by
      cases hstage.symm.trans hann)
    by_cases hc : c = r.channel
    · subst hc
      cases hfd : s.table r.channel with
      | none => exact .inl (by rw [htable, Function.update_self])
      | some fd =>
        -- the reader has removed somebody's channel, and announces it next
        have hself : s'.readers k' = some { r with stage := .announcing } := by
          rw [hreaders, Function.update_self, hfd]
          rfl
        exact .inr (.inr ⟨k', _, hself, rfl, rfl⟩)
    · exact .inl (by rw [htable, Function.update_of_ne hc])
  | announce k' r hr hstage htable hreaders hh =>
    by_cases hc : r.channel = c
    · exact .inr ⟨_, List.mem_singleton_self _, rfl, hc⟩
    · exact .inl (h.of_reader hr hreaders ⟨rfl, rfl⟩ hh (.inl (by rw [htable])) fun _ hc' =>
        absurd hc' hc)
  | close k' he r hr hstage htable hreaders hh =>
    have hk := h.ne_of_closing hwf hok he hr hstage
    refine .inl (h.of_others (fun k₁ r₁ hkeep hr₁ => ?_) (fun fd hfd => htable ▸ hfd)
      fun msg hmsg => hh.trans hmsg)
    have hne : k₁ ≠ k' := by
      rintro rfl
      rcases hkeep with rfl | hann
      · exact hk rfl
      · cases hr.symm.trans hr₁
        cases hstage.symm.trans hann
    rw [hreaders, Function.update_of_ne hne]
    exact hr₁

end

/-- In every run whose steps meet the condition, a SHUTDOWN has been queued for every
connection that has ended. -/
theorem announced_of_announces (es : List Event)
    (hok : machine.Always (fun _ s e => Announces s e) es) (k : ℕ) (item : Item)
    (hopen : .insert k item ∈ machine.emitted es) (hended : (machine.run es).readers k = none) :
    Announced es k item.msg.channel := by
  have hall : ∀ k item, .insert k item ∈ machine.emitted es →
      Announced es k item.msg.channel ∨ Running (machine.run es) k item.msg.channel := by
    refine Machine.invariant_of_always (P := fun es s => ∀ k item,
      .insert k item ∈ machine.emitted es → Announced es k item.msg.channel ∨
        Running s k item.msg.channel) ?_ ?_ hok
    · intro k item hopen
      simp at hopen
    · intro es e ih hok k item hopen
      rw [Machine.emitted_snoc, List.mem_append] at hopen
      rcases hopen with hopen | hopen
      · rcases ih k item hopen with h | h
        · exact .inl (h.snoc e)
        · refine (h.turn (wf_run es) hok (turn _ e)).symm.imp_left fun ⟨msg, hmsg, hshuts⟩ => ?_
          exact ⟨es, e, [], rfl, ⟨item, hopen⟩, msg, hmsg, hshuts⟩
      · obtain ⟨fd, -, -, -, htable, hreader⟩ := insert_step hopen
        exact .inr ⟨_, hreader, rfl, .inl htable⟩
  refine (hall k item hopen).resolve_right ?_
  rintro ⟨r, hr, -⟩
  cases hended.symm.trans hr

/-- guacd ends the connection of channel 1. -/
def endedRun : List Event := opening ++ [.receive 0 [] false, .read 0, .read 0, .read 0]

theorem endedRun_announces : machine.Always (fun _ s e => Announces s e) endedRun := by
  have hhandler : ∀ i < endedRun.length, (machine.run (endedRun.take i)).handler ∈
      [.waiting, .busy ⟨.bridge 0, approval⟩ .fetched, .busy ⟨.bridge 0, approval⟩ (.dialed 5 0),
        .relaying approval] := by
    decide +kernel
  have hearly : ∀ i (hi : i < endedRun.length),
      (machine.run (endedRun.take i)).handler = .relaying approval → endedRun[i] ∈ opening := by
    decide +kernel
  have hdialed : ∀ i < endedRun.length, (machine.run (endedRun.take i)).dialed ≤ 1 := by
    decide +kernel
  refine Machine.always_of_getElem fun i hi => ⟨fun _ c hc => ?_, fun k r he hr hstage => ?_⟩
  · simpa [hc] using hhandler i hi
  · rintro (⟨msg, hmsg, -⟩ | ⟨k', r', hr', hann, -⟩)
    · obtain rfl : msg = approval := by simpa [hmsg] using hhandler i hi
      simpa [he, opening] using hearly i hi hmsg
    · have hk := ((wf_run _).owner k r hr).2
      have hk' := ((wf_run _).owner k' r' hr').2
      have hone := hdialed i hi
      obtain rfl : k = k' := by omega
      cases hr.symm.trans hr'
      cases hstage.symm.trans hann

/-- The reader of the connection has announced it and is finished. -/
theorem announced_endedRun :
    .insert 0 ⟨.bridge 0, approval⟩ ∈ machine.emitted endedRun ∧
      Announced endedRun 0 1 := by
  have hopen : .insert 0 ⟨.bridge 0, approval⟩ ∈ machine.emitted endedRun := by decide +kernel
  refine ⟨hopen, announced_of_announces endedRun endedRun_announces 0 _ hopen ?_⟩
  rw [← Option.isNone_iff_eq_none]
  decide +kernel

/-- A write to guacd fails, which ends the connection of channel 1. -/
def failedRun : List Event :=
  opening ++ [payload (ascii "3.nop;"), .handle, .handle, .send 0, .handle, .receive 0 [] false,
    .read 0, .read 0]

/-- The connection has ended, and nothing has been announced. -/
theorem not_announced_failedRun :
    .insert 0 ⟨.bridge 0, approval⟩ ∈ machine.emitted failedRun ∧
      (machine.run failedRun).readers 0 = none ∧ ¬Announced failedRun 0 approval.channel := by
  refine ⟨by decide +kernel, ?_, ?_⟩
  · rw [← Option.isNone_iff_eq_none]
    decide +kernel
  · rintro ⟨pre, e, post, hsplit, -, msg, hmsg, hshuts⟩
    have hnever : ∀ i (hi : i < failedRun.length),
        ∀ msg ∈ (machine.run (failedRun.take i)).enqueued failedRun[i], ¬Shuts 1 msg := by
      decide +kernel
    have hlen : pre.length < failedRun.length := by simp [hsplit]
    refine hnever pre.length hlen msg ?_ hshuts
    simpa [hsplit] using hmsg

end Gcdbroker

end GuacamoleDiode
