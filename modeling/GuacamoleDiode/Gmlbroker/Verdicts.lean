import GuacamoleDiode.Gmlbroker.Registry

/-!
# Verdicts

The send handler matches a verdict with the entry of its channel before it acts. An entry
exists from the moment at which the connection is accepted, with an empty id, and a denial
fetches the mailbox of its channel after it has been matched. A verdict acts on the session
whose request it answers as long as neither of these gaps is hit.

## Main definitions

- `Requested`: the session has registered the id of a verdict and has sent its request
- `Answers`: a step lets a verdict act only on the session whose request it answers
- `Orderly`: the verdict of a step finds a request that has been sent, and the channel of a
  matched denial is not given away
-/

namespace GuacamoleDiode

open Wire

namespace ReadHandler

section

variable {ids : ℕ → Bytes} {channel : UInt16} {s : ReadHandler}

theorem approved_maybeReplay : (maybeReplay channel s).1.approved = s.approved := by
  unfold maybeReplay
  split_ifs <;> rfl

theorem approved_established (data : Bytes) :
    (established channel data s).1.approved = s.approved := by
  unfold established
  dsimp only
  split_ifs
  · exact approved_maybeReplay
  · exact approved_maybeReplay

theorem approved_feedForger (data requestId : Bytes) :
    (feedForger ids channel data requestId s).1.approved = s.approved := by
  unfold feedForger
  dsimp only
  split_ifs <;> rfl

/-- The reader does not touch its flag. -/
theorem approved_turn (p : Poll) : (turn ids channel s p).1.approved = s.approved := by
  cases p with
  | heartbeat ms =>
    simp only [turn]
    split_ifs <;> rfl
  | timeout => exact approved_maybeReplay
  | read data requestId =>
    simp only [turn]
    split_ifs
    · rfl
    · exact approved_established data
    · exact approved_feedForger data requestId
  | drain chunks failed teardown =>
    simp only [turn]
    split
    · rfl
    · split_ifs <;> rfl
  | stop => rfl

/-- Once the id is registered, the request is what is left of the turn. -/
theorem Todo.setRequestId {closed : Bool} {id : Bytes} {effects : List Effect}
    (h : Todo channel closed (.setRequestId id :: effects)) :
    closed = false ∧
      effects = [.enqueue { channel := channel, action := .createChannel, payload := id }] := by
  generalize heq : Effect.setRequestId id :: effects = all at h
  cases h with
  | whole hshape =>
    cases hshape with
    | plain hplain =>
      subst heq
      exact (hplain _ List.mem_cons_self).elim
    | @request before hplain id' =>
      cases before with
      | nil =>
        obtain ⟨hid, rfl⟩ := List.cons.inj heq
        cases hid
        exact ⟨rfl, rfl⟩
      | cons b before =>
        obtain ⟨rfl, -⟩ := List.cons.inj heq
        exact (hplain _ List.mem_cons_self).elim
    | @farewell before hplain announce =>
      cases before with
      | nil => cases (List.cons.inj heq).1
      | cons b before =>
        obtain ⟨rfl, -⟩ := List.cons.inj heq
        exact (hplain _ List.mem_cons_self).elim
  | create id' => cases (List.cons.inj heq).1
  | gone announce done =>
    have hmem : Effect.setRequestId id ∈ ReadHandler.farewell channel announce :=
      List.mem_of_mem_drop (heq ▸ List.mem_cons_self)
    cases announce <;> simp [ReadHandler.farewell] at hmem

end

end ReadHandler

namespace Gmlbroker

/-- The session has registered the id of a verdict and has sent its request. -/
def Requested (log : List Effect) (n : ℕ) (msg : BridgeMessage) : Prop :=
  .performed n (.setRequestId (verdictId msg)) ∈ log ∧
    .performed n (.enqueue
      { channel := msg.channel, action := .createChannel, payload := verdictId msg }) ∈ log

/-- The approved flag of the session is set. -/
def Approved (s : Gmlbroker) (n : ℕ) : Prop :=
  ∃ session, s.sessions n = some session ∧ session.reader.approved = true

/-- A step lets a verdict act only on the session whose request it answers. -/
structure Answers (ids : ℕ → ℕ → Bytes) (log : List Effect) (s : Gmlbroker) (e : Event) : Prop where
  /-- it approves a session -/
  approval : ∀ n, ¬Approved s n → Approved (s.step ids e).1 n →
    ∃ item, s.handler = .busy item ∧ item.msg.action = .approval ∧ Requested log n item.msg
  /-- it sends the denied screen or a teardown to a session -/
  denial : ∀ n item mail, .mailed n item mail ∈ (s.step ids e).2 → item.msg.action = .approval →
    Requested log n item.msg

/-- The verdict of a step finds a request that has been sent, and the channel of a matched
denial is not given away. -/
structure Orderly (s : Gmlbroker) (e : Event) : Prop where
  verdict : e = .handle → ∀ item n, s.handler = .busy item → item.msg.action = .approval →
    s.matching item.msg = some n → verdictId item.msg ≠ [] ∧
      ∀ session, s.sessions n = some session →
        .enqueue { channel := item.msg.channel, action := .createChannel,
                   payload := verdictId item.msg } ∉ session.pending
  reuse : e = .accept → s.acceptor = .accepting → ∀ item, s.handler = .matched item →
    ChannelTable.allocate s.table s.nextChannel ≠ some item.msg.channel

/-- The requests that have been registered, and what the handler knows of them. -/
structure Verdicts (log : List Effect) (s : Gmlbroker) : Prop where
  /-- the ids of the entries are those that their sessions have registered -/
  minted : ∀ c entry, s.approvals c = some entry → entry.requestId ≠ [] →
    .performed entry.session (.setRequestId entry.requestId) ∈ log
  /-- the request follows the id -/
  sent : ∀ n id, .performed n (.setRequestId id) ∈ log → ∃ session, s.sessions n = some session ∧
    (.performed n (.enqueue
        { channel := session.channel, action := .createChannel, payload := id }) ∈ log ∨
      .enqueue { channel := session.channel, action := .createChannel, payload := id } ∈
        session.pending)
  /-- nobody but the session that is denied holds the channel -/
  matched : ∀ item, s.handler = .matched item → ∃ n, Requested log n item.msg ∧
    ∀ m, s.table item.msg.channel = some m → m = n
  holding : ∀ item n mails, s.handler = .holding item n mails → item.msg.action = .approval →
    Requested log n item.msg

theorem Requested.mono {log log' : List Effect} {n : ℕ} {msg : BridgeMessage}
    (h : Requested log n msg) : Requested (log ++ log') n msg :=
  ⟨List.mem_append_left _ h.1, List.mem_append_left _ h.2⟩

/-- The sessions are still there, with everything that they have to do. -/
def Continues (sessions sessions' : ℕ → Option Session) : Prop :=
  ∀ n session, sessions n = some session → ∃ session', sessions' n = some session' ∧
    session'.channel = session.channel ∧ session.pending ⊆ session'.pending

section

variable {ids : ℕ → ℕ → Bytes} {log : List Effect} {s s' : Gmlbroker} {n : ℕ} {session : Session}

theorem Continues.refl (sessions : ℕ → Option Session) : Continues sessions sessions :=
  fun _ session h => ⟨session, h, rfl, fun _ he => he⟩

theorem Continues.update {sessions : ℕ → Option Session} {session' : Session}
    (h : ∀ session, sessions n = some session →
      session'.channel = session.channel ∧ session.pending ⊆ session'.pending) :
    Continues sessions (Function.update sessions n (some session')) := by
  intro m session hm
  by_cases hmn : m = n
  · subst hmn
    exact ⟨session', by simp, h session hm⟩
  · exact ⟨session, by rw [Function.update_of_ne hmn, hm], rfl, fun _ he => he⟩

theorem Continues.map {sessions : ℕ → Option Session} (f : Session → Session)
    (h : ∀ session, (f session).channel = session.channel ∧ (f session).pending = session.pending)
    (n : ℕ) : Continues sessions (Function.update sessions n ((sessions n).map f)) := by
  intro m session hm
  obtain ⟨session', hsession', ⟨-, rfl⟩ | ⟨-, rfl⟩⟩ := Table.exists_update_map hm
  · refine ⟨_, hsession', (h session).1, ?_⟩
    rw [(h session).2]
    exact fun _ he => he
  · exact ⟨_, hsession', rfl, fun _ he => he⟩

theorem continues_start (s : Gmlbroker) (n : ℕ) : Continues s.sessions (s.start n) := by
  unfold start
  apply Continues.map
  exact fun _ => ⟨rfl, rfl⟩

theorem continues_setFlag (s : Gmlbroker) (n : ℕ) : Continues s.sessions (s.setFlag n) := by
  unfold setFlag
  apply Continues.map
  exact fun _ => ⟨rfl, rfl⟩

theorem continues_deliver (s : Gmlbroker) (n : ℕ) (mail : Mail) :
    Continues s.sessions (s.deliver n mail) := by
  unfold deliver
  apply Continues.map
  exact fun _ => ⟨rfl, rfl⟩

theorem Verdicts.sent_of_continues (h : Verdicts log s) (hs : Continues s.sessions s'.sessions) :
    ∀ n id, .performed n (.setRequestId id) ∈ log → ∃ session, s'.sessions n = some session ∧
      (.performed n (.enqueue
          { channel := session.channel, action := .createChannel, payload := id }) ∈ log ∨
        .enqueue { channel := session.channel, action := .createChannel, payload := id } ∈
          session.pending) := by
  intro n id hid
  obtain ⟨session, hn, hsent⟩ := h.sent n id hid
  obtain ⟨session', hn', hchannel, hpending⟩ := hs n session hn
  refine ⟨session', hn', ?_⟩
  rw [hchannel]
  exact hsent.imp_right fun hmem => hpending hmem

/-- A step of another thread than the handler that registers no id. -/
theorem Verdicts.frame (h : Verdicts log s) (hs : Continues s.sessions s'.sessions)
    (happrovals : ∀ c entry, s'.approvals c = some entry → entry.requestId ≠ [] →
      s.approvals c = some entry)
    (hhandler : s'.handler = s.handler)
    (htable : ∀ item, s.handler = .matched item → ∀ m, s'.table item.msg.channel = some m →
      s.table item.msg.channel = some m) : Verdicts log s' where
  minted c entry hc hne := h.minted c entry (happrovals c entry hc hne) hne
  sent := h.sent_of_continues hs
  matched item hitem := by
    rw [hhandler] at hitem
    obtain ⟨n, hreq, hown⟩ := h.matched item hitem
    exact ⟨n, hreq, fun m hm => hown m (htable item hitem m hm)⟩
  holding item n mails hitem := by
    rw [hhandler] at hitem
    exact h.holding item n mails hitem

theorem Verdicts.accept (h : Verdicts log s) (hwf : Wf s) (ho : Orderly s .accept) :
    Verdicts log s.accept.1 := by
  unfold Gmlbroker.accept
  split_ifs with hacc
  · split
    · exact h
    · next channel hallocate =>
      refine h.frame (Continues.update fun session hn => ?_) (fun c entry hc _ => hc) rfl ?_
      · exact absurd (hwf.number _ _ (holders_eq hn)) (Nat.lt_irrefl _)
      · intro item hitem m hm
        have hne : item.msg.channel ≠ channel := by
          rintro rfl
          exact ho.reuse rfl hacc item hitem hallocate
        dsimp only at hm
        rwa [Function.update_of_ne hne] at hm
  · exact h

theorem Verdicts.register (h : Verdicts log s) : Verdicts log s.register.1 := by
  unfold Gmlbroker.register
  split
  · exact h
  · next n channel hacc =>
    refine h.frame (Continues.refl _) (fun c entry hc hne => ?_) rfl fun _ _ _ hm => hm
    dsimp only at hc
    obtain ⟨rfl, rfl⟩ | ⟨hcc, hc⟩ := Table.of_update hc
    · exact absurd rfl hne
    · exact hc
  · next n channel hacc =>
    exact h.frame (continues_start s n) (fun _ _ hc _ => hc) rfl fun _ _ _ hm => hm

/-- The session of an entry holds the channel. -/
theorem Wf.table_of_entry (h : Wf s) {c : UInt16} {entry : Entry} (hc : s.approvals c = some entry) :
    s.table c = some entry.session := by
  have hentry : s.entries c = some entry.session := by simp [entries, hc]
  obtain ⟨x, hx, rfl, -, hkeeps⟩ := (h.approval c _).mp hentry
  exact (h.bound _ _).mpr ⟨x, hx, rfl, h.keeps_channel hx (h.keeps_mailbox hx hkeeps)⟩

/-- The session of a mailbox holds the channel. -/
theorem Wf.table_of_mailbox (h : Wf s) {c : UInt16} (hc : s.mailboxes c = some n) :
    s.table c = some n := by
  obtain ⟨x, hx, rfl, -, hkeeps⟩ := (h.mailbox c _).mp hc
  exact (h.bound _ _).mpr ⟨x, hx, rfl, h.keeps_channel hx hkeeps⟩

theorem exists_entry_of_matching {msg : BridgeMessage} (h : s.matching msg = some n) :
    ∃ entry, s.approvals msg.channel = some entry ∧ entry.session = n ∧
      entry.requestId = verdictId msg := by
  unfold matching at h
  split at h
  · cases h
  · next entry hentry =>
    split_ifs at h with hid
    exact ⟨entry, hentry, Option.some.inj h, hid⟩

/-- A verdict that matches answers a request. -/
theorem Verdicts.requested (h : Verdicts log s) (hwf : Wf s) (ho : Orderly s .handle) {item : Item}
    (hitem : s.handler = .busy item) (haction : item.msg.action = .approval)
    (hmatching : s.matching item.msg = some n) : Requested log n item.msg := by
  obtain ⟨hne, hsent⟩ := ho.verdict rfl item n hitem haction hmatching
  obtain ⟨entry, hentry, rfl, hid⟩ := exists_entry_of_matching hmatching
  rw [← hid] at hne
  have hminted := h.minted _ entry hentry hne
  rw [hid] at hminted
  obtain ⟨session, hn, hcreate⟩ := h.sent _ _ hminted
  obtain ⟨x, hx, hchannel, -⟩ := (hwf.bound _ _).mp (hwf.table_of_entry hentry)
  cases (holders_eq hn).symm.trans hx
  have hsame : session.channel = item.msg.channel := hchannel
  rw [hsame] at hcreate
  exact ⟨hminted, hcreate.resolve_right (hsent session hn)⟩

/-- The handler comes to wait for a message, or for the mailbox of one that is no verdict. -/
theorem Verdicts.idle (h : Verdicts log s) (hs : Continues s.sessions s'.sessions)
    (happrovals : s'.approvals = s.approvals)
    (hmatched : ∀ item, s'.handler ≠ .matched item)
    (hholding : ∀ item n mails, s'.handler = .holding item n mails →
      item.msg.action ≠ .approval) : Verdicts log s' where
  minted c entry hc := h.minted c entry (happrovals ▸ hc)
  sent := h.sent_of_continues hs
  matched item hitem := absurd hitem (hmatched item)
  holding item n mails hitem haction := absurd haction (hholding item n mails hitem)

theorem Verdicts.dispatch (h : Verdicts log s) (hwf : Wf s) (ho : Orderly s .handle) {item : Item}
    (hitem : s.handler = .busy item) : Verdicts log (s.dispatch item).1 := by
  unfold Gmlbroker.dispatch
  split
  · next haction =>
    dsimp only
    split
    · exact h.idle (Continues.refl _) rfl (by simp) (by simp)
    · refine h.idle (Continues.refl _) rfl (by simp) ?_
      rintro _ _ _ ⟨⟩
      simp [haction]
  · exact h.idle (Continues.refl _) rfl (by simp) (by simp)
  · next haction =>
    split
    · exact h.idle (Continues.refl _) rfl (by simp) (by simp)
    · next n hmatching =>
      split_ifs
      · exact h.idle (continues_setFlag s n) rfl (by simp) (by simp)
      · have hreq := h.requested hwf ho hitem haction hmatching
        obtain ⟨entry, hentry, rfl, -⟩ := exists_entry_of_matching hmatching
        refine ⟨h.minted, h.sent, ?_, by simp⟩
        rintro _ ⟨⟩
        refine ⟨_, hreq, fun m hm => ?_⟩
        exact Option.some.inj (hm.symm.trans (hwf.table_of_entry hentry))
  · next haction =>
    split
    · exact h.idle (Continues.refl _) rfl (by simp) (by simp)
    · dsimp only
      split_ifs
      · exact h.idle (Continues.refl _) rfl (by simp) (by simp)
      · refine h.idle (Continues.refl _) rfl (by simp) ?_
        rintro _ _ _ ⟨⟩
        simp [haction]

theorem Verdicts.handle (h : Verdicts log s) (hwf : Wf s) (ho : Orderly s .handle) :
    Verdicts log s.handle.1 := by
  unfold Gmlbroker.handle
  split
  · split
    · exact h
    · exact h.idle (Continues.refl _) rfl (by simp) (by simp)
  · next item hitem => exact h.dispatch hwf ho hitem
  · next item hitem =>
    split
    · exact h.idle (Continues.refl _) rfl (by simp) (by simp)
    · next n hn =>
      obtain ⟨m, hreq, hown⟩ := h.matched item hitem
      refine ⟨h.minted, h.sent, by simp, ?_⟩
      rintro _ _ _ ⟨⟩ -
      -- the mailbox belongs to the session that holds the channel
      rw [hown n (hwf.table_of_mailbox hn)]
      exact hreq
  · exact h.idle (Continues.refl _) rfl (by simp) (by simp)
  · next item n mail mails hitem =>
    refine ⟨h.minted, h.sent_of_continues (continues_deliver s n mail), by simp, ?_⟩
    rintro _ _ _ ⟨⟩
    exact h.holding item n _ hitem

theorem Verdicts.turn (h : Verdicts log s) (hn : s.sessions n = some session)
    (hready : session.pending = []) (wake : Wake) :
    Verdicts log { s with
      sessions := Function.update s.sessions n (some (Gmlbroker.turn ids n session wake)) } := by
  refine h.frame (Continues.update fun session' hn' => ?_) (fun _ _ hc _ => hc) rfl fun _ _ _ hm => hm
  cases hn.symm.trans hn'
  refine ⟨rfl, ?_⟩
  rw [hready]
  exact List.nil_subset _

/-- The request that is left of a turn has been sent, or is still left. -/
theorem Verdicts.sent_perform (h : Verdicts log s) (hwf : Wf s) (hn : s.sessions n = some session)
    {effect : ReadHandler.Effect} {pending : List ReadHandler.Effect}
    (hpending : session.pending = effect :: pending) (m : ℕ) (id : Bytes)
    (hid : .performed m (.setRequestId id) ∈ log ++ [.performed n effect]) :
    ∃ session', Function.update s.sessions n (some { session with pending }) m = some session' ∧
      (.performed m (.enqueue
          { channel := session'.channel, action := .createChannel, payload := id }) ∈
            log ++ [.performed n effect] ∨
        .enqueue { channel := session'.channel, action := .createChannel, payload := id } ∈
          session'.pending) := by
  have htodo : ReadHandler.Todo session.channel session.reader.closed (effect :: pending) :=
    hpending ▸ hwf.todo n _ (holders_eq hn)
  rcases List.mem_append.mp hid with hid | hid
  · obtain ⟨session', hm, hsent⟩ := h.sent m id hid
    by_cases hmn : m = n
    · subst hmn
      cases hn.symm.trans hm
      refine ⟨_, Function.update_self .., ?_⟩
      rcases hsent with hsent | hsent
      · exact .inl (List.mem_append_left _ hsent)
      · rw [hpending, List.mem_cons] at hsent
        rcases hsent with rfl | hsent
        · exact .inl (by simp)
        · exact .inr hsent
    · exact ⟨session', by rw [Function.update_of_ne hmn, hm],
        hsent.imp_left (List.mem_append_left _)⟩
  · obtain ⟨rfl, rfl⟩ : m = n ∧ effect = .setRequestId id := by simpa [eq_comm] using hid
    refine ⟨_, Function.update_self .., .inr ?_⟩
    rw [htodo.setRequestId.2]
    exact List.mem_singleton_self _

theorem Verdicts.perform (h : Verdicts log s) (hwf : Wf s) (hn : s.sessions n = some session)
    {effect : ReadHandler.Effect} {pending : List ReadHandler.Effect}
    (hpending : session.pending = effect :: pending) :
    Verdicts (log ++ [.performed n effect]) (Gmlbroker.perform { s with
      sessions := Function.update s.sessions n (some { session with pending }) } n
      session.channel effect) := by
  have hsent := h.sent_perform hwf hn hpending
  have hminted : ∀ c entry, s.approvals c = some entry → entry.requestId ≠ [] →
      .performed entry.session (.setRequestId entry.requestId) ∈ log ++ [.performed n effect] :=
    fun c entry hc hne => List.mem_append_left _ (h.minted c entry hc hne)
  have hmatched : ∀ item, s.handler = .matched item →
      ∃ m, Requested (log ++ [.performed n effect]) m item.msg ∧
        ∀ m', s.table item.msg.channel = some m' → m' = m := by
    intro item hitem
    obtain ⟨m, hreq, hown⟩ := h.matched item hitem
    exact ⟨m, hreq.mono, hown⟩
  have hholding : ∀ item m mails, s.handler = .holding item m mails →
      item.msg.action = .approval → Requested (log ++ [.performed n effect]) m item.msg :=
    fun item m mails hitem haction => (h.holding item m mails hitem haction).mono
  cases effect with
  | setRequestId id =>
    refine ⟨fun c entry hc hne => ?_, hsent, hmatched, hholding⟩
    dsimp only [Gmlbroker.perform] at hc
    obtain ⟨old, hold, ⟨rfl, rfl⟩ | ⟨-, rfl⟩⟩ := Table.of_update_map hc
    · -- the session still holds its channel, so that the entry is its own
      have htodo : ReadHandler.Todo session.channel session.reader.closed (.setRequestId id :: pending) :=
        hpending ▸ hwf.todo n _ (holders_eq hn)
      have htable : s.table session.channel = some n :=
        (hwf.bound _ n).mpr ⟨session.holder, holders_eq hn, rfl, .inl htodo.setRequestId.1⟩
      have hsession : old.session = n :=
        Option.some.inj ((hwf.table_of_entry hold).symm.trans htable)
      simp [hsession]
    · exact hminted c old hold hne
  | removeApproval =>
    refine ⟨fun c entry hc => ?_, hsent, hmatched, hholding⟩
    dsimp only [Gmlbroker.perform] at hc
    exact hminted c entry (Table.of_update_none hc).2
  | removeChannel =>
    refine ⟨hminted, hsent, fun item hitem => ?_, hholding⟩
    obtain ⟨m, hreq, hown⟩ := hmatched item hitem
    refine ⟨m, hreq, fun m' hm' => ?_⟩
    dsimp only [Gmlbroker.perform] at hm'
    exact hown m' (Table.of_update_none hm').2
  | _ => exact ⟨hminted, hsent, hmatched, hholding⟩

/-- A step in which no reader does anything. -/
theorem Verdicts.mono (h : Verdicts log s) {out : List Effect}
    (hout : ∀ n effect, .performed n effect ∉ out) : Verdicts (log ++ out) s where
  minted c entry hc hne := List.mem_append_left _ (h.minted c entry hc hne)
  sent n id hid := by
    obtain ⟨session, hn, hsent⟩ := h.sent n id ((List.mem_append.mp hid).resolve_right (hout _ _))
    exact ⟨session, hn, hsent.imp_left (List.mem_append_left _)⟩
  matched item hitem := by
    obtain ⟨n, hreq, hown⟩ := h.matched item hitem
    exact ⟨n, hreq.mono, hown⟩
  holding item n mails hitem haction := (h.holding item n mails hitem haction).mono

theorem performed_notMem_accept (effect : ReadHandler.Effect) : .performed n effect ∉ s.accept.2 := by
  unfold Gmlbroker.accept
  split_ifs
  · split <;> simp
  · simp

theorem performed_notMem_register (effect : ReadHandler.Effect) :
    .performed n effect ∉ s.register.2 := by
  unfold Gmlbroker.register
  split <;> simp

theorem out_dispatch {item : Item} {effect : Effect} (h : effect ∈ (s.dispatch item).2) :
    ∃ n, effect = .approved n item := by
  unfold Gmlbroker.dispatch at h
  split at h
  · dsimp only at h
    split at h <;> simp at h
  · simp at h
  · split at h
    · simp at h
    · next n _ =>
      split_ifs at h
      · exact ⟨n, List.mem_singleton.mp h⟩
      · simp at h
  · split at h
    · simp at h
    · dsimp only at h
      split_ifs at h <;> simp at h

theorem performed_notMem_handle (effect : ReadHandler.Effect) : .performed n effect ∉ s.handle.2 := by
  unfold Gmlbroker.handle
  split
  · split <;> simp
  · intro hmem
    obtain ⟨m, hm⟩ := out_dispatch hmem
    cases hm
  · split <;> simp
  · simp
  · simp

theorem Verdicts.step (h : Verdicts log s) (hwf : Wf s) {e : Event} (ho : Orderly s e) :
    Verdicts (log ++ (s.step ids e).2) (s.step ids e).1 := by
  unfold Gmlbroker.step
  cases e with
  | datagram data =>
    dsimp only
    split
    · simpa using h
    · refine Verdicts.mono ?_ (by simp)
      exact h.frame (Continues.refl _) (fun _ _ hc _ => hc) rfl fun _ _ _ hm => hm
  | accept => exact (h.accept hwf ho).mono fun _ => performed_notMem_accept
  | register => exact h.register.mono fun _ => performed_notMem_register
  | handle => exact (h.handle hwf ho).mono fun _ => performed_notMem_handle
  | wake n wake =>
    dsimp only
    split
    · simpa using h
    · next session hn =>
      split_ifs with hready
      · simpa using h.turn hn hready.2 wake
      · simpa using h
  | perform n =>
    dsimp only
    split
    · simpa using h
    · next session hn =>
      split
      · simpa using h
      · next hpending => exact h.perform hwf hn hpending
  | transmit =>
    dsimp only
    split
    · simpa using h
    · refine Verdicts.mono ?_ (by simp)
      exact h.frame (Continues.refl _) (fun _ _ hc _ => hc) rfl fun _ _ _ hm => hm

/-- The approved flag of a session stays as it is if nobody sets it. -/
theorem Approved.of_map {sessions : ℕ → Option Session} {f : Session → Session} {m : ℕ}
    (hf : ∀ session, (f session).reader.approved = session.reader.approved)
    (h : ∃ session, Function.update sessions n ((sessions n).map f) m = some session ∧
      session.reader.approved = true) :
    ∃ session, sessions m = some session ∧ session.reader.approved = true := by
  obtain ⟨session, hm, happ⟩ := h
  obtain ⟨old, hold, ⟨-, rfl⟩ | ⟨-, rfl⟩⟩ := Table.of_update_map hm
  · exact ⟨old, hold, (hf old).symm.trans happ⟩
  · exact ⟨old, hold, happ⟩

theorem approved_dispatch {item : Item} (h : ¬Approved s n) (h' : Approved (s.dispatch item).1 n) :
    item.msg.action = .approval ∧ s.matching item.msg = some n := by
  unfold Gmlbroker.dispatch at h'
  split at h'
  · dsimp only at h'
    split at h' <;> exact absurd h' h
  · exact absurd h' h
  · next haction =>
    refine ⟨haction, ?_⟩
    split at h'
    · exact absurd h' h
    · next m hmatching =>
      split_ifs at h'
      · obtain ⟨session, hn, happ⟩ := h'
        by_cases hnm : n = m
        · rw [hnm, hmatching]
        · dsimp only [setFlag] at hn
          rw [Function.update_of_ne hnm] at hn
          exact absurd ⟨session, hn, happ⟩ h
      · exact absurd h' h
  · split at h'
    · exact absurd h' h
    · dsimp only at h'
      split_ifs at h' <;> exact absurd h' h

theorem approved_handle (h : ¬Approved s n) (h' : Approved s.handle.1 n) :
    ∃ item, s.handler = .busy item ∧ item.msg.action = .approval ∧ s.matching item.msg = some n := by
  unfold Gmlbroker.handle at h'
  split at h'
  · split at h' <;> exact absurd h' h
  · next item hitem => exact ⟨item, hitem, approved_dispatch h h'⟩
  · split at h' <;> exact absurd h' h
  · exact absurd h' h
  · refine absurd (Approved.of_map ?_ h') h
    exact fun _ => rfl

/-- Only the handler sets an approved flag. -/
theorem approved_step {e : Event} (h : ¬Approved s n) (h' : Approved (s.step ids e).1 n) :
    e = .handle := by
  unfold Gmlbroker.step at h'
  cases e with
  | datagram data =>
    dsimp only at h'
    split at h' <;> exact absurd h' h
  | accept =>
    dsimp only [Gmlbroker.accept] at h'
    split_ifs at h'
    · split at h'
      · exact absurd h' h
      · obtain ⟨session, hn, happ⟩ := h'
        dsimp only at hn
        obtain ⟨rfl, rfl⟩ | ⟨hna, hn⟩ := Table.of_update hn
        · cases happ
        · exact absurd ⟨session, hn, happ⟩ h
    · exact absurd h' h
  | register =>
    dsimp only [Gmlbroker.register] at h'
    split at h'
    · exact absurd h' h
    · exact absurd h' h
    · refine absurd (Approved.of_map ?_ h') h
      exact fun _ => rfl
  | handle => rfl
  | wake m wake =>
    dsimp only at h'
    split at h'
    · exact absurd h' h
    · next session hm =>
      split_ifs at h'
      · refine absurd (Approved.of_map (n := m) (f := fun session => Gmlbroker.turn ids m session wake) ?_ ?_) h
        · intro session
          dsimp only [Gmlbroker.turn, ReadHandler.step]
          split_ifs
          · rfl
          · exact ReadHandler.approved_turn _
        · rw [hm]
          exact h'
      · exact absurd h' h
  | perform m =>
    dsimp only at h'
    split at h'
    · exact absurd h' h
    · next session hm =>
      split at h'
      · exact absurd h' h
      · next effect pending hpending =>
        refine absurd (Approved.of_map (n := m) (f := fun session => { session with pending })
          (fun _ => rfl) ?_) h
        rw [hm]
        cases effect <;> exact h'
  | transmit =>
    dsimp only at h'
    split at h' <;> exact absurd h' h

/-- What is brought to a mailbox is what the handler holds. -/
theorem mailed_handle {item : Item} {mail : Mail} (h : .mailed n item mail ∈ s.handle.2) :
    ∃ mails, s.handler = .holding item n mails := by
  unfold Gmlbroker.handle at h
  split at h
  · split at h <;> simp at h
  · obtain ⟨m, hm⟩ := out_dispatch h
    cases hm
  · split at h <;> simp at h
  · simp at h
  · next hitem =>
    cases List.mem_singleton.mp h
    exact ⟨_, hitem⟩

theorem mailed_step {e : Event} {item : Item} {mail : Mail}
    (h : .mailed n item mail ∈ (s.step ids e).2) :
    e = .handle ∧ ∃ mails, s.handler = .holding item n mails := by
  unfold Gmlbroker.step at h
  cases e with
  | datagram data =>
    dsimp only at h
    split at h <;> simp at h
  | accept =>
    dsimp only [Gmlbroker.accept] at h
    split_ifs at h
    · split at h <;> simp at h
    · simp at h
  | register =>
    dsimp only [Gmlbroker.register] at h
    split at h <;> simp at h
  | handle => exact ⟨rfl, mailed_handle h⟩
  | wake m wake =>
    dsimp only at h
    split at h
    · simp at h
    · split_ifs at h <;> simp at h
  | perform m =>
    dsimp only at h
    split at h
    · simp at h
    · split at h <;> simp at h
  | transmit =>
    dsimp only at h
    split at h <;> simp at h

theorem Verdicts.answers (h : Verdicts log s) (hwf : Wf s) {e : Event} (ho : Orderly s e) :
    Answers ids log s e where
  approval n hn hn' := by
    obtain rfl := approved_step hn hn'
    obtain ⟨item, hitem, haction, hmatching⟩ := approved_handle hn hn'
    exact ⟨item, hitem, haction, h.requested hwf ho hitem haction hmatching⟩
  denial n item mail hmem haction := by
    obtain ⟨-, mails, hitem⟩ := mailed_step hmem
    exact h.holding item n mails hitem haction

end

theorem verdicts_of_orderly {ids : ℕ → ℕ → Bytes} {es : List Event}
    (h : (machine ids).Always (fun _ s e => Orderly s e) es) :
    Verdicts ((machine ids).emitted es) ((machine ids).run es) := by
  refine Machine.invariant_of_always (M := machine ids) (Q := fun _ s e => Orderly s e)
    (P := fun es s => Verdicts ((machine ids).emitted es) s) ?_ ?_ h
  · refine ⟨?_, ?_, ?_, ?_⟩ <;> simp [machine]
  · intro es e ih ho
    rw [Machine.emitted_snoc]
    exact ih.step (wf_run ids es) ho

/-- In every run whose verdicts find requests that have been sent, and in which the channel of
a matched denial is not given away, a verdict acts only on the session whose request it
answers. -/
theorem answers_of_orderly (ids : ℕ → ℕ → Bytes) (es : List Event)
    (h : (machine ids).Always (fun _ s e => Orderly s e) es) :
    (machine ids).Always (fun pre s e => Answers ids ((machine ids).emitted pre) s e) es := by
  rintro pre e post rfl
  have hpre : (machine ids).Always (fun _ s e => Orderly s e) pre := by
    rintro pre' e' post' rfl
    exact h pre' e' (post' ++ e :: post) (by simp)
  exact (verdicts_of_orderly hpre).answers (wf_run ids pre) (h pre e post rfl)

/-- A denial of the request of channel 0. -/
def denial : Item where
  origin := .bridge
  msg := { channel := 0, action := .approval, payload := approvalDeny :: ascii "01234567895f" }

/-- The first session asks for an approval and is denied. -/
def deniedRun : List Event :=
  [.accept, .register, .register, .wake 0 (.read (ascii "7.connect;") (ascii "01234567895f")), .perform 0,
    .perform 0, .perform 0, .datagram (Multiplexer.serialize denial.msg), .handle, .handle, .handle,
    .handle, .handle]

theorem deniedRun_orderly :
    (machine fun _ _ => []).Always (fun _ s e => Orderly s e) deniedRun := by
  have hhandler : ∀ i < deniedRun.length, ((machine fun _ _ => []).run (deniedRun.take i)).handler ∈
      [.waiting, .busy denial, .matched denial,
        .holding denial 0 [.post HandshakeForger.deniedScreen, .requestTeardown true],
        .holding denial 0 [.requestTeardown true]] := by
    decide +kernel
  have hbusy : ∀ i < deniedRun.length,
      ((machine fun _ _ => []).run (deniedRun.take i)).handler = .busy denial →
        ((machine fun _ _ => []).run (deniedRun.take i)).matching denial.msg = some 0 ∧
          (((machine fun _ _ => []).run (deniedRun.take i)).sessions 0).map Session.pending =
            some [] := by
    decide +kernel
  have haccept : ∀ i (hi : i < deniedRun.length), deniedRun[i] = .accept →
      ((machine fun _ _ => []).run (deniedRun.take i)).handler = .waiting := by
    decide +kernel
  refine Machine.always_of_getElem fun i hi => ⟨fun _ item n hitem _ hmatching => ?_, ?_⟩
  · obtain rfl : item = denial := by simpa [hitem] using hhandler i hi
    obtain ⟨hzero, hpending⟩ := hbusy i hi hitem
    cases hzero.symm.trans hmatching
    refine ⟨by decide, fun session hn => ?_⟩
    rw [hn] at hpending
    rw [Option.some.inj hpending]
    exact List.not_mem_nil
  · intro he _ item hitem
    cases (haccept i hi he).symm.trans hitem

/-- The denial reaches the session that has asked. -/
theorem answers_deniedRun :
    .mailed 0 denial (.requestTeardown true) ∈ (machine fun _ _ => []).emitted deniedRun ∧
      (machine fun _ _ => []).Always
        (fun pre s e => Answers (fun _ _ => []) ((machine fun _ _ => []).emitted pre) s e) deniedRun :=
  ⟨by decide +kernel, answers_of_orderly _ deniedRun deniedRun_orderly⟩

/-- A verdict without an id, for a session that has not asked for anything yet. -/
def unaskedRun : List Event :=
  [.accept, .register, .register,
    .datagram (Multiplexer.serialize { channel := 0, action := .approval, payload := [approvalApprove] }),
    .handle, .handle]

/-- The session is approved. -/
theorem not_answers_unaskedRun :
    ¬(machine fun _ _ => []).Always
      (fun pre s e => Answers (fun _ _ => []) ((machine fun _ _ => []).emitted pre) s e) unaskedRun := by
  intro h
  have hbefore : (((machine fun _ _ => []).run (unaskedRun.take 5)).sessions 0).map
      (·.reader.approved) = some false := by decide +kernel
  have hafter : (((machine fun _ _ => []).run unaskedRun).sessions 0).map
      (·.reader.approved) = some true := by decide +kernel
  have hlast := h (unaskedRun.take 5) .handle [] rfl
  obtain ⟨item, -, -, hreq⟩ := hlast.approval 0 (by
    rintro ⟨session, hn, happ⟩
    have happ' : ((machine fun _ _ => []).run (unaskedRun.take 5)).sessions 0 = some session := hn
    rw [happ'] at hbefore
    cases happ.symm.trans (Option.some.inj hbefore)) (by
    obtain ⟨session, hn, happ⟩ := Option.map_eq_some_iff.mp hafter
    exact ⟨session, hn, happ⟩)
  have hlog : (machine fun _ _ => []).emitted (unaskedRun.take 5) = [.accepted 0 0] := by
    decide +kernel
  rw [hlog] at hreq
  simpa using hreq.1

end Gmlbroker

end GuacamoleDiode
