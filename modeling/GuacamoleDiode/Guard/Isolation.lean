import GuacamoleDiode.Guard.Gate

/-!
# Channels do not see each other

What the guard emits on a channel is what a guard would emit that serves this channel
alone. The lone guard is fed with the messages of the channel, with the position of the
approval switch at each of its CREATEs, and with the global denies. Nothing else that the
guard receives has any bearing on the channel.
-/

namespace GuacamoleDiode

open Wire

namespace Guard

/-- What a channel notices of a step of the guard. -/
inductive Notice where
  /-- a message of the channel, and for a CREATE the position of the approval switch -/
  | message (msg : BridgeMessage) (approve : Option Bool)
  /-- a global deny has been handled -/
  | denied
  /-- the main loop has ended -/
  | stopped
  deriving DecidableEq, Repr

/-- What channel `c` notices of a step. -/
def notice (c : UInt16) (g : Guard) (e : Event) : Option Notice :=
  match e with
  | .datagram _ =>
    match g.received e with
    | some msg =>
      if msg.channel = c then
        some (.message msg (if msg.action = .createChannel then some g.approve else none))
      else none
    | none => none
  | .poll order =>
    if g.receiving = false ∧ g.stopped = false ∧ g.denyTeardown = true ∧ g.Visits order then
      some .denied
    else none
  | .stop order =>
    if g.receiving = false ∧ g.stopped = false ∧ g.Visits order then some .stopped else none
  | _ => none

/-- What channel `c` notices of a run. -/
def notices (c : UInt16) (es : List Event) : List Notice :=
  machine.observe (fun seen g e _ => seen ++ (notice c g e).toList) [] es

/-- The datagrams on channel `c`. -/
def onChannel (c : UInt16) (out : List Bytes) : List Bytes :=
  out.filter fun d => (Multiplexer.tryCast d).map BridgeMessage.channel = some c

/-- A step of the guard that serves channel `c` alone. -/
def lonely (c : UInt16) (g : Guard) : Notice → Guard × List Bytes
  | .message msg approve =>
    { g with approve := approve.getD g.approve }.dispatch (Multiplexer.serialize msg) msg
  | .denied => g.teardown (if c ∈ g.approved then [c] else [])
  | .stopped => ({ g with approved := ∅ }, if c ∈ g.approved then [shutdown c] else [])

/-- The guard that serves channel `c` alone. -/
def lone (c : UInt16) : Machine Guard Notice Bytes where
  init := {}
  step := lonely c

/-- Two guards are in the same state as far as channel `c` is concerned. -/
structure Alike (c : UInt16) (g g' : Guard) : Prop where
  parsers : g.parsers c = g'.parsers c
  poisoned : c ∈ g.poisoned ↔ c ∈ g'.poisoned
  approved : c ∈ g.approved ↔ c ∈ g'.approved

section Alike

variable {c : UInt16} {g g' : Guard} {msg : BridgeMessage} {buffer : Bytes}

theorem Alike.create (h : Alike c g g') (hc : msg.channel = c) (hv : g.approve = g'.approve) :
    (g.create buffer msg).2 = (g'.create buffer msg).2 ∧
      Alike c (g.create buffer msg).1 (g'.create buffer msg).1 := by
  subst hc
  unfold Guard.create
  by_cases hid : isValidRequestId msg.payload = true
  · simp only [hid, if_true, Approver.handleRequest_approved, hv]
    cases g'.approve with
    | true => exact ⟨rfl, by simp, by simp, by simp⟩
    | false => exact ⟨rfl, by simp, by simp, by simp⟩
  · rw [if_neg hid, if_neg hid]
    exact ⟨rfl, h⟩

theorem Alike.shutdownChannel (hc : msg.channel = c) :
    Alike c (g.shutdownChannel buffer msg).1 (g'.shutdownChannel buffer msg).1 := by
  subst hc
  exact ⟨by simp [Guard.shutdownChannel], by simp [Guard.shutdownChannel],
    by simp [Guard.shutdownChannel]⟩

theorem Alike.settle (h : Alike c g g') (hc : msg.channel = c)
    (x : ParserState × OpcodeParser GuardMembers) :
    (g.settle buffer msg x).2 = (g'.settle buffer msg x).2 ∧
      Alike c (g.settle buffer msg x).1 (g'.settle buffer msg x).1 := by
  subst hc
  obtain ⟨st, p⟩ := x
  cases st with
  | streamCorrupted => exact ⟨rfl, by simp [Guard.settle], by simp [Guard.settle], by simp [Guard.settle]⟩
  | deniedData => exact ⟨rfl, by simp [Guard.settle], h.poisoned, h.approved⟩
  | _ => exact ⟨rfl, by simp [Guard.settle], h.poisoned, h.approved⟩

theorem Alike.relay (h : Alike c g g') (hc : msg.channel = c) :
    (g.relay buffer msg).2 = (g'.relay buffer msg).2 ∧
      Alike c (g.relay buffer msg).1 (g'.relay buffer msg).1 := by
  subst hc
  unfold Guard.relay
  by_cases hpois : msg.channel ∈ g.poisoned
  · rw [if_pos hpois, if_pos (h.poisoned.mp hpois)]
    exact ⟨rfl, h⟩
  · rw [if_neg hpois, if_neg (fun hn => hpois (h.poisoned.mpr hn))]
    by_cases happ : msg.channel ∈ g.approved
    · rw [if_pos happ, if_pos (h.approved.mp happ), h.parsers]
      exact h.settle rfl _
    · rw [if_neg happ, if_neg (fun hn => happ (h.approved.mpr hn))]
      exact ⟨rfl, h⟩

/-- A message of the channel does the same to both. -/
theorem Alike.dispatch (buffer : Bytes) (h : Alike c g g') (hc : msg.channel = c)
    (hv : msg.action = .createChannel → g.approve = g'.approve) :
    (g.dispatch buffer msg).2 = (g'.dispatch buffer msg).2 ∧
      Alike c (g.dispatch buffer msg).1 (g'.dispatch buffer msg).1 := by
  unfold Guard.dispatch
  cases hact : msg.action with
  | createChannel => exact h.create hc (hv hact)
  | shutdownChannel => exact ⟨rfl, Alike.shutdownChannel hc⟩
  | none => exact h.relay hc
  | approval => exact h.relay hc

end Alike

theorem eq_of_channelOf_serialize {c : UInt16} {m : BridgeMessage}
    (h : (Multiplexer.tryCast (Multiplexer.serialize m)).map BridgeMessage.channel = some c) :
    m.channel = c := by
  obtain ⟨m', hm, hc⟩ := Option.map_eq_some_iff.mp h
  have hser := (Multiplexer.serialize_of_tryCast hm).1
  rw [← hc, Multiplexer.serialize_injective hser]

theorem onChannel_append (c : UInt16) (xs ys : List Bytes) :
    onChannel c (xs ++ ys) = onChannel c xs ++ onChannel c ys := List.filter_append ..

/-- Messages of another channel are not on this one. -/
theorem onChannel_of_ne {c d : UInt16} (hne : d ≠ c) {out : List Bytes}
    (h : ∀ x ∈ out, ∃ m : BridgeMessage, x = Multiplexer.serialize m ∧ m.channel = d) :
    onChannel c out = [] := by
  apply List.filter_eq_nil_iff.mpr
  intro x hx hon
  obtain ⟨m, rfl, hm⟩ := h x hx
  exact hne (hm.symm.trans (eq_of_channelOf_serialize (by simpa using hon)))

section Steps

variable {c : UInt16} {g g' l : Guard} {e : Event} {out : List Bytes} {msg : BridgeMessage}

/-- A message of another channel changes nothing here. -/
theorem Outcome.other (h : Outcome g e g' out) (hrec : g.received e = some msg)
    (hne : msg.channel ≠ c) : Alike c g' g ∧ onChannel c out = [] := by
  obtain ⟨data, he, -, -⟩ := exists_datagram hrec
  cases h with
  | quiet hp hpo ha => exact ⟨⟨by rw [hp], by rw [hpo], by rw [ha]⟩, rfl⟩
  | approvedCreate m hm _ _ _ hp hpo ha =>
    obtain rfl : m = msg := Option.some.inj (hm.symm.trans hrec)
    refine ⟨⟨by simp [hp, hne.symm], by simp [hpo, hne.symm], by simp [ha, hne.symm]⟩, ?_⟩
    refine onChannel_of_ne hne ?_
    simp only [List.mem_cons, List.not_mem_nil, or_false]
    rintro x (rfl | rfl)
    · exact ⟨m, rfl, rfl⟩
    · exact ⟨_, rfl, rfl⟩
  | deniedCreate m hm _ _ _ hp hpo ha =>
    obtain rfl : m = msg := Option.some.inj (hm.symm.trans hrec)
    refine ⟨⟨by simp [hp, hne.symm], by simp [hpo, hne.symm], by simp [ha, hne.symm]⟩, ?_⟩
    refine onChannel_of_ne hne ?_
    simp only [List.mem_cons, List.not_mem_nil, or_false]
    rintro x (rfl | rfl | rfl)
    · exact ⟨m, rfl, rfl⟩
    · exact ⟨_, rfl, rfl⟩
    · exact ⟨_, rfl, rfl⟩
  | closed m hm _ hp hpo ha =>
    obtain rfl : m = msg := Option.some.inj (hm.symm.trans hrec)
    refine ⟨⟨by simp [hp, hne.symm], by simp [hpo, hne.symm], by simp [ha, hne.symm]⟩, ?_⟩
    exact onChannel_of_ne hne fun x hx => ⟨m, List.mem_singleton.mp hx, rfl⟩
  | corrupted m hm _ _ _ hp hpo ha =>
    obtain rfl : m = msg := Option.some.inj (hm.symm.trans hrec)
    refine ⟨⟨by simp [hp, hne.symm], by simp [hpo, hne.symm], by simp [ha, hne.symm]⟩, ?_⟩
    exact onChannel_of_ne hne fun x hx => ⟨_, List.mem_singleton.mp hx, rfl⟩
  | relayed m payload _ hm _ _ _ hp hpo ha _ hout =>
    obtain rfl : m = msg := Option.some.inj (hm.symm.trans hrec)
    refine ⟨⟨by simp [hp, hne.symm], by rw [hpo], by rw [ha]⟩, ?_⟩
    rcases hout with rfl | ⟨rfl, -⟩
    · exact onChannel_of_ne hne fun x hx => ⟨_, List.mem_singleton.mp hx, rfl⟩
    · rfl
  | tornDown order hpoll => rw [he] at hpoll; cases hpoll
  | halted order hstop => rw [he] at hstop; cases hstop

/-- A channel that is torn down with all the others. -/
theorem onChannel_map_shutdown {order : List UInt16} (horder : order.Nodup) :
    onChannel c (order.map shutdown) = if c ∈ order then [shutdown c] else [] := by
  induction order with
  | nil => rfl
  | cons d order ih =>
    obtain ⟨hd, hrest⟩ := List.nodup_cons.mp horder
    have hself : ∀ a : UInt16, (Multiplexer.tryCast (shutdown a)).map BridgeMessage.channel = some a := by
      intro a
      rw [shutdown, Multiplexer.tryCast_serialize (by simp)]
      rfl
    rw [List.map_cons, onChannel, List.filter_cons, ← onChannel, ih hrest, hself]
    by_cases hdc : d = c
    · subst hdc
      simp [hd]
    · simp [hdc, Ne.symm hdc]

/-- A step that the channel does not notice changes nothing here. -/
theorem unnoticed (h : notice c g e = none) :
    Alike c (g.step e).1 g ∧ onChannel c (g.step e).2 = [] := by
  cases e with
  | datagram data =>
    cases hrec : g.received (.datagram data) with
    | some msg =>
      simp only [notice, hrec, ite_eq_right_iff, reduceCtorEq, imp_false] at h
      exact (outcome g _).other hrec h
    | none =>
      simp only [received] at hrec
      by_cases hr : g.receiving = true
      · rw [if_pos hr] at hrec
        simp only [Guard.step, if_pos hr, handle, hrec]
        exact ⟨⟨rfl, Iff.rfl, Iff.rfl⟩, rfl⟩
      · rw [Guard.step, if_neg hr]
        exact ⟨⟨rfl, Iff.rfl, Iff.rfl⟩, rfl⟩
  | poll order =>
    simp only [notice, ite_eq_right_iff, reduceCtorEq, imp_false] at h
    rw [Guard.step]
    split_ifs with hin hflag hvis
    · exact ⟨⟨rfl, Iff.rfl, Iff.rfl⟩, rfl⟩
    · rw [not_or, Bool.not_eq_true, Bool.not_eq_true] at hin
      exact absurd ⟨hin.1, hin.2, hflag, hvis⟩ h
    · exact ⟨⟨rfl, Iff.rfl, Iff.rfl⟩, rfl⟩
    · exact ⟨⟨rfl, Iff.rfl, Iff.rfl⟩, rfl⟩
  | stop order =>
    simp only [notice, ite_eq_right_iff, reduceCtorEq, imp_false] at h
    rw [Guard.step]
    split_ifs with hin hvis
    · exact ⟨⟨rfl, Iff.rfl, Iff.rfl⟩, rfl⟩
    · rw [not_or, Bool.not_eq_true, Bool.not_eq_true] at hin
      exact absurd ⟨hin.1, hin.2, hvis⟩ h
    · exact ⟨⟨rfl, Iff.rfl, Iff.rfl⟩, rfl⟩
  | command raw =>
    rw [Guard.step]
    split_ifs
    · exact ⟨⟨rfl, Iff.rfl, Iff.rfl⟩, rfl⟩
    · split <;> exact ⟨⟨rfl, Iff.rfl, Iff.rfl⟩, rfl⟩
  | flagTeardown =>
    rw [Guard.step]
    split_ifs <;> exact ⟨⟨rfl, Iff.rfl, Iff.rfl⟩, rfl⟩
  | timeout => exact ⟨⟨rfl, Iff.rfl, Iff.rfl⟩, rfl⟩

/-- A message of the channel, received by the guard and by the lone guard. -/
theorem Alike.message (h : Alike c g l) (hrec : g.received e = some msg) (hc : msg.channel = c) :
    let n := Notice.message msg (if msg.action = .createChannel then some g.approve else none)
    Alike c (g.step e).1 (lonely c l n).1 ∧
      onChannel c (g.step e).2 = onChannel c (lonely c l n).2 := by
  rw [step_of_received hrec]
  have hsame : Alike c { g with receiving := false } { l with
      approve := (if msg.action = .createChannel then some g.approve else none).getD l.approve } :=
    ⟨h.parsers, h.poisoned, h.approved⟩
  obtain ⟨hout, hst⟩ := hsame.dispatch (Multiplexer.serialize msg) hc fun hact => by simp [hact]
  exact ⟨hst, congrArg (onChannel c) hout⟩

/-- All approved channels are visited. -/
theorem Alike.onChannel_visited (h : Alike c g l) {order : List UInt16} (hvis : g.Visits order) :
    onChannel c (order.map shutdown) =
      onChannel c (if c ∈ l.approved then [shutdown c] else []) := by
  have hmem : c ∈ order ↔ c ∈ l.approved := by
    rw [← h.approved, ← hvis.2, List.mem_toFinset]
  rw [onChannel_map_shutdown hvis.1]
  by_cases hc : c ∈ l.approved
  · rw [if_pos (hmem.mpr hc), if_pos hc]
    have hlone := onChannel_map_shutdown (c := c) (List.nodup_singleton c)
    rw [if_pos (List.mem_singleton_self c)] at hlone
    exact hlone.symm
  · rw [if_neg (fun hn => hc (hmem.mp hn)), if_neg hc]
    rfl

/-- A step that the channel notices does to it what the lone guard does. -/
theorem Alike.noticed (h : Alike c g l) {n : Notice} (hn : notice c g e = some n) :
    Alike c (g.step e).1 (lonely c l n).1 ∧
      onChannel c (g.step e).2 = onChannel c (lonely c l n).2 := by
  cases e with
  | datagram data =>
    cases hrec : g.received (.datagram data) with
    | some msg =>
      simp only [notice, hrec, Option.ite_none_right_eq_some, Option.some.injEq] at hn
      obtain ⟨hc, rfl⟩ := hn
      exact h.message hrec hc
    | none => simp [notice, hrec] at hn
  | poll order =>
    simp only [notice, Option.ite_none_right_eq_some, Option.some.injEq] at hn
    obtain ⟨⟨hr, hs, hd, hvis⟩, rfl⟩ := hn
    have hstep : g.step (.poll order) =
        ({ (g.teardown order).1 with receiving := true }, (g.teardown order).2) := by
      simp [Guard.step, hr, hs, hd, hvis]
    rw [hstep]
    have hmem : c ∈ order ↔ c ∈ l.approved := by
      rw [← h.approved, ← hvis.2, List.mem_toFinset]
    refine ⟨⟨?_, h.poisoned, by simp [teardown, lonely]⟩, ?_⟩
    · by_cases hc : c ∈ l.approved
      · simp [teardown, lonely, hmem, hc]
      · simp [teardown, lonely, hmem, hc, h.parsers]
    · rw [teardown, h.onChannel_visited hvis, lonely, teardown]
      split_ifs <;> rfl
  | stop order =>
    simp only [notice, Option.ite_none_right_eq_some, Option.some.injEq] at hn
    obtain ⟨⟨hr, hs, hvis⟩, rfl⟩ := hn
    have hstep : g.step (.stop order) =
        ({ g with approved := ∅, stopped := true }, order.map shutdown) := by
      simp [Guard.step, hr, hs, hvis]
    rw [hstep]
    exact ⟨⟨h.parsers, h.poisoned, by simp [lonely]⟩, h.onChannel_visited hvis⟩
  | _ => simp [notice] at hn

end Steps

/-- The channel sees the guard as a guard of its own. -/
theorem lone_run (c : UInt16) (es : List Event) :
    Alike c (machine.run es) ((lone c).run (notices c es)) ∧
      onChannel c (machine.emitted es) = onChannel c ((lone c).emitted (notices c es)) := by
  induction es using List.reverseRecOn with
  | nil => exact ⟨⟨rfl, Iff.rfl, Iff.rfl⟩, rfl⟩
  | append_singleton es e ih =>
    obtain ⟨hst, hout⟩ := ih
    rw [Machine.run_snoc, Machine.emitted_snoc, onChannel_append, notices, Machine.observe_snoc,
      ← notices]
    cases hn : notice c (machine.run es) e with
    | none =>
      obtain ⟨hst', hout'⟩ := unnoticed hn
      rw [Option.toList_none, List.append_nil]
      refine ⟨⟨hst'.parsers.trans hst.parsers, hst'.poisoned.trans hst.poisoned,
        hst'.approved.trans hst.approved⟩, ?_⟩
      rw [show onChannel c (machine.step (machine.run es) e).2 = [] from hout', List.append_nil, hout]
    | some n =>
      obtain ⟨hst', hout'⟩ := hst.noticed hn
      rw [Option.toList_some, Machine.run_snoc, Machine.emitted_snoc, onChannel_append, hout]
      exact ⟨hst', congrArg (_ ++ ·) hout'⟩

/-- Two runs in which a channel notices the same emit the same on it. -/
theorem onChannel_eq_of_notices (c : UInt16) (es es' : List Event)
    (h : notices c es = notices c es') :
    onChannel c (machine.emitted es) = onChannel c (machine.emitted es') := by
  rw [(lone_run c es).2, (lone_run c es').2, h]

/-- A datagram that no channel claims, and a stream on channel 2 that is corrupted. -/
def noise : List Event :=
  [.poll [], .datagram [0, 1]] ++ turn [] { request with channel := 2 } ++
    turn [] { channel := 2, payload := ascii "?" }

/-- The request on channel 1 is answered in the same way behind the noise. -/
theorem onChannel_request_behind_noise :
    notices 1 (noise ++ turn [] request) = notices 1 (turn [] request) ∧
      onChannel 1 (machine.emitted (noise ++ turn [] request)) =
        onChannel 1 (machine.emitted (turn [] request)) := by
  have h : notices 1 (noise ++ turn [] request) = notices 1 (turn [] request) := by decide +kernel
  exact ⟨h, onChannel_eq_of_notices 1 _ _ h⟩

end Guard

end GuacamoleDiode
