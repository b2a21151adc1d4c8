import GuacamoleDiode.System.Sessions

/-!
# Every connection has a parser of its own

The coupling of the guard and gcdbroker over whole runs. A step disturbs it in two ways
only: the guard lets an APPROVAL of the low side pass on an approved channel, or gcdbroker
refuses an approval and keeps the connection that the channel had before.
-/

namespace GuacamoleDiode

open Wire

namespace ForwardPath

open Gcdbroker

/-- The frame of an item on the queue of gcdbroker. -/
def frameOf (labels : List ℕ) (item : Item) : Frame :=
  match item.origin with
  | .bridge n => (item.msg, labels.getD n 0)
  | .reader _ => (item.msg, 0)

theorem frameOf_fst (labels : List ℕ) (item : Item) : (frameOf labels item).1 = item.msg := by
  unfold frameOf
  split <;> rfl

theorem frameOf_bridge {labels : List ℕ} {item : Item} {n : ℕ} (h : item.origin = .bridge n) :
    (frameOf labels item).2 = labels.getD n 0 := by
  simp [frameOf, h]

/-- The frames between the connections of gcdbroker and the parsers of the guard. -/
def frames (s : ForwardPath) : List Frame :=
  (bridgeOf s.broker.router.pending).map (frameOf s.labels) ++ linkFrames s.link

/-- All frames that the guard has sent. -/
def history (s : ForwardPath) (ms : List BridgeMessage) : List Frame :=
  ms.zip s.labels ++ linkFrames s.link

/-- Two approvals were sent under different parsers. -/
def Apart (f f' : Frame) : Prop := Approves f.1 → Approves f'.1 → f.2 ≠ f'.2

/-- The guard and gcdbroker are coupled: `inst` gives the parser of each connection. -/
structure Coupled (s : ForwardPath) (ms : List BridgeMessage) (out : List Routed) (inst : ℕ → ℕ) :
    Prop where
  length : s.labels.length = ms.length
  opened : ∀ k item n, .opened k item ∈ out → item.origin = .bridge n →
    s.labels[n]? = some (inst k)
  wrote : ∀ k item data n, .wrote k item data ∈ out → item.origin = .bridge n →
    s.labels[n]? = some (inst k)
  follows : ∀ c, Follows (c ∈ s.guard.approved) (s.session c) c
    ((s.broker.router.bound c).map inst) s.frames
  apart : (s.history ms).Pairwise Apart
  below : ∀ f ∈ s.history ms, Approves f.1 → f.2 < s.started

section

variable {s s' : ForwardPath} {ms : List BridgeMessage} {out : List Routed} {inst : ℕ → ℕ}

/-- A step of the guard keeps the coupling. -/
theorem Coupled.guard (h : Coupled s ms out inst) {e : Guard.Event}
    (hforged : ¬Guard.ForgedApproval s.guard e) : Coupled (s.forward e) ms out inst := by
  obtain ⟨msgs, hout, hsent⟩ := sent (Guard.outcome s.guard e) hforged
  have hlink : linkFrames (s.forward e).link = linkFrames s.link ++
      sentFrames s.guard e s.started s.session msgs := by
    rw [sentFrames, ← linkFrames_serialize, ← hout]
    exact List.filterMap_append ..
  have hhistory : (s.forward e).history ms = s.history ms ++
      sentFrames s.guard e s.started s.session msgs := by
    rw [history, hlink, ← List.append_assoc]
    rfl
  have hstarted : s.started ≤ (s.forward e).started := Nat.le_add_right _ _
  refine ⟨h.length, h.opened, h.wrote, fun c => ?_, ?_, ?_⟩
  · rw [frames, hlink, ← List.append_assoc]
    exact hsent.follows (h.follows c)
  · rw [hhistory, List.pairwise_append]
    refine ⟨h.apart, ?_, ?_⟩
    · rcases hsent.approvals s.started s.session with
        hno | ⟨-, f, f', heq, hf, -⟩
      · exact List.pairwise_of_forall_mem_list fun f hf f' _ happ => absurd happ (hno f hf)
      · rw [heq]
        exact List.pairwise_pair.mpr fun happ => absurd happ hf
    · intro f hf f' hf' happ happ'
      have hlt := h.below f hf happ
      rcases hsent.approvals s.started s.session with
        hno | ⟨-, a, a', heq, ha, ha'⟩
      · exact absurd happ' (hno f' hf')
      · rw [heq, List.mem_pair] at hf'
        rcases hf' with rfl | rfl
        · exact absurd happ' ha
        · omega
  · intro f hf happ
    rw [hhistory] at hf
    rcases List.mem_append.mp hf with hf | hf
    · exact (h.below f hf happ).trans_le hstarted
    · rcases hsent.approvals s.started s.session with
        hno | ⟨⟨c, hc⟩, a, a', heq, ha, ha'⟩
      · exact absurd happ (hno f hf)
      · rw [heq, List.mem_pair] at hf
        rcases hf with rfl | rfl
        · exact absurd happ ha
        · simp [forward, hc, ha']

/-- The label of an item does not change as more messages arrive. -/
theorem frameOf_append {labels : List ℕ} {item : Item} {n : ℕ} (h : item.origin = .bridge n)
    (hn : n < labels.length) (more : List ℕ) : frameOf (labels ++ more) item = frameOf labels item := by
  simp [frameOf, h, List.getD_eq_getElem?_getD, List.getElem?_append_left hn]

theorem getElem?_of_frameOf {labels : List ℕ} {item : Item} {n x : ℕ} (h : item.origin = .bridge n)
    (hn : n < labels.length) (hx : (frameOf labels item).2 = x) : labels[n]? = some x := by
  rw [frameOf_bridge h, List.getD_eq_getElem?_getD, List.getElem?_eq_getElem hn] at hx
  rw [List.getElem?_eq_getElem hn, ← hx, Option.getD_some]

/-- An arriving message moves from the link to the queue. -/
theorem frames_eq (h : Coupled s ms out inst) (hledger : Ledger ms out s.broker.router)
    {msg : Option BridgeMessage} {ack : Option Item} {g : ℕ} (hack : ∀ item ∈ ack, IsAck item)
    (hlabels : s'.labels = s.labels ++ (msg.map fun _ => g).toList)
    (hlink : linkFrames s.link = (msg.map fun m => (m, g)).toList ++ linkFrames s'.link) :
    s.frames = (bridgeOf (s.broker.router.pending ++ additions ms msg ack)).map
      (frameOf s'.labels) ++ linkFrames s'.link := by
  have hold : (bridgeOf s.broker.router.pending).map (frameOf s.labels) =
      (bridgeOf s.broker.router.pending).map (frameOf s'.labels) := by
    refine List.map_congr_left fun item hitem => ?_
    obtain ⟨hmem, hbridge⟩ := List.mem_filter.mp hitem
    obtain ⟨pre, post, hp⟩ := List.append_of_mem hmem
    cases horigin : item.origin with
    | bridge n =>
      have hlen := (hledger.split hp horigin).2.2
      rw [hlabels, frameOf_append horigin (by rw [h.length]; omega)]
    | reader k => simp [horigin] at hbridge
  have hnew : (msg.map fun m => (⟨.bridge ms.length, m⟩ : Item)).toList.map (frameOf s'.labels) =
      (msg.map fun m => (m, g)).toList := by
    cases msg with
    | none => rfl
    | some m => simp [frameOf, hlabels, ← h.length]
  rw [frames, hlink, hold, bridgeOf_append, bridgeOf_additions ms msg hack, List.map_append, hnew,
    List.append_assoc]

theorem history_eq (h : s.labels.length = ms.length) {msg : Option BridgeMessage} {g : ℕ}
    (hlabels : s'.labels = s.labels ++ (msg.map fun _ => g).toList)
    (hlink : linkFrames s.link = (msg.map fun m => (m, g)).toList ++ linkFrames s'.link) :
    s'.history (ms ++ msg.toList) = s.history ms := by
  have hzip : msg.toList.zip (msg.map fun _ => g).toList = (msg.map fun m => (m, g)).toList := by
    cases msg <;> rfl
  rw [history, history, hlabels, List.zip_append h.symm, hzip, hlink, List.append_assoc]

/-- A step of gcdbroker keeps the coupling, unless it refuses an approval. -/
theorem Coupled.broker (h : Coupled s ms out inst) (hledger : Ledger ms out s.broker.router)
    {refused : Prop} {msg : Option BridgeMessage} {ack : Option Item} {out' : List Routed} {g : ℕ}
    (hack : ∀ item ∈ ack, IsAck item)
    (hmove : Move refused s.broker.router s'.broker.router (additions ms msg ack) out')
    (hrefused : ¬refused) (hguard : s'.guard = s.guard) (hsession : s'.session = s.session)
    (hstarted : s'.started = s.started)
    (hlabels : s'.labels = s.labels ++ (msg.map fun _ => g).toList)
    (hlink : linkFrames s.link = (msg.map fun m => (m, g)).toList ++ linkFrames s'.link) :
    ∃ inst', Coupled s' (ms ++ msg.toList) (out ++ out') inst' := by
  have hfollows := h.follows
  rw [frames_eq h hledger hack hlabels hlink] at hfollows
  obtain ⟨inst', hsame, hfollows', hopened, hwrote⟩ :=
    follows_move hmove hrefused hledger (frameOf_fst s'.labels) hfollows
  have hlength : s'.labels.length = (ms ++ msg.toList).length := by
    rw [hlabels, List.length_append, List.length_append, h.length]
    cases msg <;> rfl
  have hhistory := history_eq h.length hlabels hlink
  -- labels of messages that have arrived before
  have hkeep : ∀ {n x : ℕ}, s.labels[n]? = some x → s'.labels[n]? = some x := by
    intro n x hx
    rw [hlabels, List.getElem?_append_left (List.getElem?_eq_some_iff.mp hx).1]
    exact hx
  have hfront : ∀ {item rest n}, s.broker.router.pending = item :: rest →
      item.origin = .bridge n → n < s'.labels.length := by
    intro item rest n hp hn
    have hlen := (hledger.split (l := []) hp hn).2.2
    rw [hlength, List.length_append]
    omega
  refine ⟨inst', hlength, ?_, ?_, ?_, ?_, ?_⟩
  · intro k item n hk hn
    rcases List.mem_append.mp hk with hk | hk
    · rw [hsame k (hledger.numbers k item hk)]
      exact hkeep (h.opened k item n hk hn)
    · exact getElem?_of_frameOf hn (hfront (hmove.opened hk).2.2.1 hn) (hopened k item hk).symm
  · intro k item data n hk hn
    rcases List.mem_append.mp hk with hk | hk
    · obtain ⟨item', hitem'⟩ := hledger.wrote k item data hk
      rw [hsame k (hledger.numbers k item' hitem')]
      exact hkeep (h.wrote k item data n hk hn)
    · exact getElem?_of_frameOf hn (hfront (hmove.wrote hk).2 hn) (hwrote k item data n hk hn)
  · rw [hguard, hsession]
    exact hfollows'
  · rw [hhistory]
    exact h.apart
  · rw [hhistory, hstarted]
    exact h.below

end

/-- The guard relays an APPROVAL of the low side, or gcdbroker refuses an approval. -/
def Disturbs (s : ForwardPath) : Event → Prop
  | .guard e => Guard.ForgedApproval s.guard e
  | .broker e => s.broker.refuses e = true
  | .deliver => False

instance (s : ForwardPath) (e : Event) : Decidable (s.Disturbs e) :=
  match e with
  | .guard e => inferInstanceAs (Decidable (Guard.ForgedApproval s.guard e))
  | .broker e => inferInstanceAs (Decidable (s.broker.refuses e = true))
  | .deliver => inferInstanceAs (Decidable False)

theorem coupled_init : Coupled {} [] [] fun _ => 0 where
  length := rfl
  opened := by simp
  wrote := by simp
  follows c := ⟨trivial, by simp⟩
  apart := List.Pairwise.nil
  below := by simp [history, linkFrames]

theorem ledger_run (es : List Event) :
    Ledger (delivered (brokerEvents es)) (routed (brokerEvents es)) (machine.run es).broker.router := by
  rw [(broker_run es).1]
  exact Gcdbroker.ledger_run _

section

variable {es : List Event} {e : Event} {be : Gcdbroker.Event}

/-- A step of gcdbroker is a move of its router. -/
theorem broker_move (hbe : (machine.run es).brokerEvent e = some be) :
    Move ((machine.run es).broker.refuses be = true) (machine.run es).broker.router
      ((machine.run es).step e).1.broker.router
      (additions (delivered (brokerEvents es)) (arrival be) ((machine.run es).broker.ackOf be))
      (routes ((machine.run es).broker.step be).2) ∧
    ∀ item ∈ (machine.run es).broker.ackOf be, IsAck item := by
  have hmove := move_run (brokerEvents es) be
  have hacking := acking_run (brokerEvents es)
  rw [Machine.run_snoc] at hmove
  rw [← (broker_run es).1] at hmove hacking
  rw [(step_of_brokerEvent hbe).1]
  exact ⟨hmove, fun item hitem => hacking.ackOf hitem⟩

theorem delivered_of_brokerEvent (hbe : (machine.run es).brokerEvent e = some be) :
    delivered (brokerEvents (es ++ [e])) = delivered (brokerEvents es) ++ (arrival be).toList ∧
    routed (brokerEvents (es ++ [e])) = routed (brokerEvents es) ++
      routes ((machine.run es).broker.step be).2 := by
  rw [brokerEvents_snoc, hbe, Option.toList_some, delivered_snoc, routed_snoc, (broker_run es).1]
  exact ⟨rfl, rfl⟩

theorem brokerEvents_of_none (hbe : (machine.run es).brokerEvent e = none) :
    brokerEvents (es ++ [e]) = brokerEvents es := by
  rw [brokerEvents_snoc, hbe, Option.toList_none, List.append_nil]

/-- The next datagram of the link. -/
theorem coupled_deliver {inst : ℕ → ℕ}
    (h : Coupled (machine.run es) (delivered (brokerEvents es)) (routed (brokerEvents es)) inst) :
    ∃ inst, Coupled ((machine.run es).step .deliver).1 (delivered (brokerEvents (es ++ [.deliver])))
      (routed (brokerEvents (es ++ [.deliver]))) inst := by
  cases hlink : (machine.run es).link with
  | nil =>
    rw [brokerEvents_of_none (by simp [brokerEvent, hlink])]
    simp only [step, hlink]
    exact ⟨inst, h⟩
  | cons d rest =>
    obtain ⟨d, g⟩ := d
    have hbe : (machine.run es).brokerEvent .deliver = some (.datagram d) := by
      simp [brokerEvent, hlink]
    obtain ⟨hmove, hack⟩ := broker_move hbe
    obtain ⟨hdelivered, hrouted⟩ := delivered_of_brokerEvent hbe
    rw [hdelivered, hrouted]
    refine h.broker (g := g) (ledger_run es) hack hmove ?_ ?_ ?_ ?_ ?_ ?_
    · simp [refuses]
    · simp [step, hlink]
    · simp [step, hlink]
    · simp [step, hlink]
    · simp [step, hlink, heard]
    · rw [hlink, linkFrames_cons]
      simp [step, hlink, heard]

/-- A step of gcdbroker's own threads. -/
theorem coupled_broker {inst : ℕ → ℕ} {e : Gcdbroker.Event}
    (h : Coupled (machine.run es) (delivered (brokerEvents es)) (routed (brokerEvents es)) inst)
    (hclean : ¬(machine.run es).Disturbs (.broker e)) :
    ∃ inst, Coupled ((machine.run es).step (.broker e)).1
      (delivered (brokerEvents (es ++ [.broker e]))) (routed (brokerEvents (es ++ [.broker e]))) inst := by
  cases hbe : (machine.run es).brokerEvent (.broker e) with
  | none =>
    rw [brokerEvents_of_none hbe]
    simp only [step, hbe]
    exact ⟨inst, h⟩
  | some be =>
    obtain ⟨hmove, hack⟩ := broker_move hbe
    obtain ⟨hdelivered, hrouted⟩ := delivered_of_brokerEvent hbe
    rw [hdelivered, hrouted]
    have harrival : arrival be = none ∧ be = e := by
      cases e <;> simp [brokerEvent] at hbe <;> subst hbe <;> exact ⟨rfl, rfl⟩
    refine h.broker (g := 0) (ledger_run es) hack hmove ?_ ?_ ?_ ?_ ?_ ?_
    · rw [harrival.2]
      exact hclean
    · simp [step, hbe]
    · simp [step, hbe]
    · simp [step, hbe]
    · simp [step, hbe, harrival.1]
    · simp [step, hbe, harrival.1]

end

theorem coupled_run {es : List Event} (h : machine.Always (fun _ s e => ¬s.Disturbs e) es) :
    ∃ inst, Coupled (machine.run es) (delivered (brokerEvents es)) (routed (brokerEvents es)) inst := by
  refine Machine.invariant_of_always (P := fun es s =>
    ∃ inst, Coupled s (delivered (brokerEvents es)) (routed (brokerEvents es)) inst)
    ⟨_, coupled_init⟩ ?_ h
  rintro es e ⟨inst, ih⟩ hclean
  cases e with
  | guard e =>
    rw [brokerEvents_of_none rfl]
    exact ⟨inst, ih.guard hclean⟩
  | deliver => exact coupled_deliver ih
  | broker e => exact coupled_broker ih hclean

theorem mem_routed_insert {es : List Gcdbroker.Event} {k : ℕ} {item : Item} :
    .opened k item ∈ routed es ↔ .insert k item ∈ Gcdbroker.machine.emitted es := by
  rw [routed, routes, List.mem_filterMap]
  constructor
  · rintro ⟨eff, heff, heq⟩
    cases eff <;> simp only [Effect.routed, Option.some.injEq, Routed.opened.injEq, reduceCtorEq]
      at heq
    obtain ⟨rfl, rfl⟩ := heq
    exact heff
  · exact fun h => ⟨_, h, rfl⟩

/-- Connections and parsers belong together. What is written from the bridge to a connection
was sent under the parser that its approval was sent under, and no two connections share a
parser. -/
def OneSession (es : List Event) : Prop :=
  (∀ k n msg data, .write k ⟨.bridge n, msg⟩ data ∈ machine.emitted es →
    ∃ n₀ approval p, .insert k ⟨.bridge n₀, approval⟩ ∈ machine.emitted es ∧
      (machine.run es).labels[n₀]? = some p ∧ (machine.run es).labels[n]? = some p) ∧
  ∀ k k' n n' msg msg', .insert k ⟨.bridge n, msg⟩ ∈ machine.emitted es →
    .insert k' ⟨.bridge n', msg'⟩ ∈ machine.emitted es →
    (machine.run es).labels[n]? = (machine.run es).labels[n']? → k = k'

/-- Approvals were sent under different parsers. -/
theorem Coupled.eq_of_label {s : ForwardPath} {ms : List BridgeMessage} {out : List Routed}
    {inst : ℕ → ℕ} (h : Coupled s ms out inst) {n n' p : ℕ} {msg msg' : BridgeMessage}
    (hn : ms[n]? = some msg) (hn' : ms[n']? = some msg') (happ : Approves msg)
    (happ' : Approves msg') (hp : s.labels[n]? = some p) (hp' : s.labels[n']? = some p) : n = n' := by
  have hzip : ∀ {i m}, ms[i]? = some m → s.labels[i]? = some p →
      ∃ hi : i < (ms.zip s.labels).length, (ms.zip s.labels)[i] = (m, p) := by
    intro i m hm hp
    exact List.getElem?_eq_some_iff.mp (List.getElem?_zip_eq_some.mpr ⟨hm, hp⟩)
  obtain ⟨hi, heq⟩ := hzip hn hp
  obtain ⟨hi', heq'⟩ := hzip hn' hp'
  have hapart := List.pairwise_iff_getElem.mp (List.pairwise_append.mp h.apart).1
  rcases Nat.lt_trichotomy n n' with hlt | rfl | hgt
  · have hne := hapart n n' hi hi' hlt
    rw [heq, heq'] at hne
    exact absurd rfl (hne happ happ')
  · rfl
  · have hne := hapart n' n hi' hi hgt
    rw [heq, heq'] at hne
    exact absurd rfl (hne happ' happ)

/-- In a run without disturbance, every connection has a parser of its own. -/
theorem oneSession_of_clean (es : List Event)
    (h : machine.Always (fun _ s e => ¬s.Disturbs e) es) : OneSession es := by
  obtain ⟨inst, hcoupled⟩ := coupled_run h
  have hledger := ledger_run es
  rw [OneSession, (broker_run es).2]
  refine ⟨?_, ?_⟩
  · intro k n msg data hwrite
    have hwrote : .wrote k ⟨.bridge n, msg⟩ data ∈ routed (brokerEvents es) :=
      List.mem_filterMap.mpr ⟨_, hwrite, rfl⟩
    obtain ⟨⟨origin, approval⟩, hopened⟩ := hledger.wrote k _ data hwrote
    obtain ⟨-, n₀, rfl, -⟩ := hledger.approvals k _ hopened
    exact ⟨n₀, approval, inst k, mem_routed_insert.mp hopened, hcoupled.opened k _ n₀ hopened rfl,
      hcoupled.wrote k _ data n hwrote rfl⟩
  · intro k k' n n' msg msg' hk hk' heq
    have hk := mem_routed_insert.mpr hk
    have hk' := mem_routed_insert.mpr hk'
    obtain ⟨happ, m, hm, hget, -⟩ := hledger.approvals k _ hk
    obtain ⟨happ', m', hm', hget', -⟩ := hledger.approvals k' _ hk'
    cases hm
    cases hm'
    have hlabel := hcoupled.opened k _ n hk rfl
    obtain rfl := hcoupled.eq_of_label hget hget' happ happ' hlabel (heq.symm.trans hlabel)
    exact hledger.single k k' _ _ n hk hk' rfl rfl

/-- A key press on channel 1. -/
def keyPress : BridgeMessage :=
  { channel := 1, action := .none, payload := ascii "3.key,2.97,1.1;" }

/-- The guard receives a message. -/
def arriving (msg : BridgeMessage) : List Event := (Guard.turn [] msg).map .guard

/-- gcdbroker takes a CREATE and an approval off its queue, and dials guacd. -/
def answering (fd : ℕ) : List Event :=
  [.broker .handle, .broker .handle, .broker .handle, .broker (.dial (some fd)), .broker .handle,
    .broker .handle]

/-- gcdbroker writes a payload to guacd. -/
def writing : List Event := [.broker .handle, .broker .handle, .broker (.send 1200)]

/-- Channel 1 is created, approved and used. -/
def plainRun : List Event :=
  arriving Guard.request ++ [.deliver, .deliver] ++ answering 5 ++ arriving keyPress ++
    [.deliver] ++ writing

theorem plainRun_clean : machine.Always (fun _ s e => ¬s.Disturbs e) plainRun := by
  have hall : ∀ i (hi : i < plainRun.length),
      ¬(machine.run (plainRun.take i)).Disturbs plainRun[i] := by decide +kernel
  exact Machine.always_of_getElem hall

/-- The condition holds of a run that writes to guacd. -/
theorem oneSession_plainRun :
    .write 0 ⟨.bridge 2, keyPress⟩ keyPress.payload ∈ machine.emitted plainRun ∧
      OneSession plainRun :=
  ⟨by decide +kernel, oneSession_of_clean plainRun plainRun_clean⟩

/-- While channel 1 is live, a second CREATE arrives for it. -/
def recreatedRun : List Event :=
  arriving Guard.request ++ [.deliver, .deliver] ++ answering 5 ++ arriving Guard.request ++
    arriving keyPress ++ [.deliver, .deliver, .deliver] ++ answering 6 ++ writing

/-- The first connection is sent what the second parser has let pass. -/
theorem not_oneSession_recreatedRun : ¬OneSession recreatedRun := by
  intro h
  obtain ⟨n₀, approval, p, hinsert, hp, hp'⟩ :=
    h.1 0 4 keyPress keyPress.payload (by decide +kernel)
  have hlabels : (machine.run recreatedRun).labels = [0, 0, 1, 1, 1] := by decide +kernel
  have hrouted : routes (machine.emitted recreatedRun) =
      [.opened 0 ⟨.bridge 1, ({} : Guard).approvalFor Guard.request⟩,
        .wrote 0 ⟨.bridge 4, keyPress⟩ keyPress.payload] := by decide +kernel
  have hopened : .opened 0 ⟨.bridge n₀, approval⟩ ∈ routes (machine.emitted recreatedRun) :=
    List.mem_filterMap.mpr ⟨_, hinsert, rfl⟩
  rw [hrouted] at hopened
  obtain rfl : n₀ = 1 := by simpa using (by simpa using hopened : n₀ = 1 ∧ _).1
  rw [hlabels] at hp hp'
  simp at hp hp'
  omega

end ForwardPath

end GuacamoleDiode
