import GuacamoleDiode.Gcdbroker.Router
import Mathlib.Data.List.Infix

/-!
# What has arrived and what has been written

The history of a run of the broker: the messages that have arrived from the bridge, and
what has been done for each connection. `Ledger` relates both to the state of the router.
Messages stay in order, only acks come in between, and a connection is bound once.
-/

namespace GuacamoleDiode

open Wire

namespace Gcdbroker

/-- The messages that have arrived from the bridge, in order. -/
def delivered (es : List Event) : List BridgeMessage := es.filterMap arrival

@[simp] theorem delivered_snoc (es : List Event) (e : Event) :
    delivered (es ++ [e]) = delivered es ++ (arrival e).toList := by
  cases h : arrival e <;> simp [delivered, h]

/-- Everything that has been put on the receive queue, in order. -/
def recvQueued (es : List Event) : List Item := machine.collect queued es

@[simp] theorem recvQueued_snoc (es : List Event) (e : Event) :
    recvQueued (es ++ [e]) = recvQueued es ++ (machine.run es).queued e :=
  machine.collect_snoc queued es e

/-- Messages of the bridge as items of the queue. -/
def numbered (ms : List BridgeMessage) : List Item := ms.zipIdx.map fun m => ⟨.bridge m.2, m.1⟩

theorem numbered_append (ms : List BridgeMessage) (msg : Option BridgeMessage) :
    numbered (ms ++ msg.toList) =
      numbered ms ++ (msg.map fun msg => ⟨.bridge ms.length, msg⟩).toList := by
  cases msg <;> simp [numbered, List.zipIdx_append]

/-- The number of an item is its position. -/
theorem origin_of_numbered {ms : List BridgeMessage} {pre post : List Item} {item : Item}
    (h : numbered ms = pre ++ item :: post) : item.origin = .bridge pre.length := by
  have hget : (numbered ms)[pre.length]? = some item := by simp [h]
  rw [numbered, List.getElem?_map, List.getElem?_zipIdx, Option.map_map,
    Option.map_eq_some_iff] at hget
  obtain ⟨m, -, rfl⟩ := hget
  simp

/-- The items of the bridge among those of a queue. -/
def bridgeOf (items : List Item) : List Item :=
  items.filter fun item => match item.origin with
    | .bridge _ => true
    | .reader _ => false

@[simp] theorem bridgeOf_append (items items' : List Item) :
    bridgeOf (items ++ items') = bridgeOf items ++ bridgeOf items' := by
  simp [bridgeOf]

theorem bridgeOf_cons_bridge {item : Item} {n : ℕ} (h : item.origin = .bridge n)
    (items : List Item) : bridgeOf (item :: items) = item :: bridgeOf items := by
  simp [bridgeOf, h]

theorem bridgeOf_cons_reader {item : Item} {k : ℕ} (h : item.origin = .reader k)
    (items : List Item) : bridgeOf (item :: items) = bridgeOf items := by
  simp [bridgeOf, h]

/-- A message of the bridge is queued once. -/
theorem origin_ne_of_numbered {ms : List BridgeMessage} {pre post : List Item} {item : Item} {n : ℕ}
    (h : bridgeOf (pre ++ item :: post) = numbered ms) (hn : item.origin = .bridge n) :
    ∀ a ∈ pre, a.origin ≠ .bridge n := by
  intro a ha horigin
  obtain ⟨l, l', rfl⟩ := List.append_of_mem ha
  rw [bridgeOf_append, bridgeOf_cons_bridge hn, bridgeOf_append, bridgeOf_cons_bridge horigin] at h
  have hlater := origin_of_numbered h.symm
  rw [List.append_assoc, List.cons_append] at h
  have hfirst := origin_of_numbered h.symm
  rw [hn] at hlater
  rw [horigin] at hfirst
  have hlen := Origin.bridge.inj (hfirst.symm.trans hlater)
  simp at hlen

section

variable {refused : Prop} {r r' : Router} {pushed : List Item} {out : List Routed}

/-- Items leave the queue at its front and enter it at its end. -/
theorem Move.pending_eq (h : Move refused r r' pushed out) :
    ∃ popped, r.pending ++ pushed = popped ++ r'.pending := by
  cases h with
  | push hp => exact ⟨[], hp.symm⟩
  | drop item hp => exact ⟨[item], by simp [hp]⟩
  | bind item k hp => exact ⟨[item], by simp [hp]⟩
  | shut item hp => exact ⟨[item], by simp [hp]⟩
  | write item k data hp => exact ⟨[item], by simp [hp]⟩

theorem Move.next_le (h : Move refused r r' pushed out) : r.next ≤ r'.next := by
  cases h with
  | push _ _ hn => exact hn.ge
  | drop _ _ _ _ _ _ hn => exact hn
  | bind _ _ _ _ _ _ hk hn => omega
  | shut _ _ _ _ hn => exact hn.ge
  | write _ _ _ _ _ _ _ _ _ hn => exact hn.ge

/-- A connection is bound when it is opened. -/
theorem Move.opened (h : Move refused r r' pushed out) {k : ℕ} {item : Item}
    (hk : .opened k item ∈ out) :
    k = r.next ∧ r'.next = k + 1 ∧ r.pending = item :: r'.pending ∧ Approves item.msg ∧
      out = [.opened k item] := by
  cases h with
  | push => simp at hk
  | drop => simp at hk
  | bind item' k' hp happ _ _ hk' hn =>
    simp only [List.mem_singleton, Routed.opened.injEq] at hk
    obtain ⟨rfl, rfl⟩ := hk
    exact ⟨hk', hn, hp, happ, rfl⟩
  | shut => simp at hk
  | write => simp at hk

/-- Only the connection that the channel is bound to is written to. -/
theorem Move.wrote (h : Move refused r r' pushed out) {k : ℕ} {item : Item} {data : Bytes}
    (hk : .wrote k item data ∈ out) :
    r.bound item.msg.channel = some k ∧ r.pending = item :: r'.pending := by
  cases h with
  | push => simp at hk
  | drop => simp at hk
  | bind => simp at hk
  | shut => simp at hk
  | write item' k' data' hp _ hc =>
    simp only [List.mem_singleton, Routed.wrote.injEq] at hk
    obtain ⟨rfl, rfl, rfl⟩ := hk
    exact ⟨hc, hp⟩

/-- A channel is only bound by an approval. -/
theorem Move.bound_eq (h : Move refused r r' pushed out) {c : UInt16} {k : ℕ}
    (hk : r'.bound c = some k) :
    r.bound c = some k ∨ ∃ item, .opened k item ∈ out ∧ item.msg.channel = c := by
  cases h with
  | push _ hb => exact .inl (hb c k hk)
  | drop _ _ _ _ _ hb => exact .inl (hb c k hk)
  | bind item k' _ _ _ hb =>
    rw [hb] at hk
    obtain ⟨rfl, rfl⟩ | ⟨hc, hk⟩ := Table.of_update hk
    · exact .inr ⟨item, by simp, rfl⟩
    · exact .inl hk
  | shut item _ _ hb =>
    rw [hb] at hk
    exact .inl (shrinks_update r.bound item.msg.channel c k hk)
  | write _ _ _ _ _ _ _ _ hb => exact .inl (hb c k hk)

end

/-- The history of a run and the state of the router agree. -/
structure Ledger (ms : List BridgeMessage) (out : List Routed) (r : Router) : Prop where
  /-- the messages that are pending are the last ones that arrived -/
  order : ∃ done, numbered ms = done ++ bridgeOf r.pending
  acks : ∀ item ∈ r.pending, ∀ k, item.origin = .reader k →
    item.msg.action = .none ∧ SyncFaker.Acks item.msg.payload
  numbers : ∀ k item, .opened k item ∈ out → k < r.next
  /-- a connection is opened by an approval that is not pending any more -/
  approvals : ∀ k item, .opened k item ∈ out → Approves item.msg ∧
    ∃ n, item.origin = .bridge n ∧ ms[n]? = some item.msg ∧ n + (bridgeOf r.pending).length < ms.length
  once : ∀ k item item', .opened k item ∈ out → .opened k item' ∈ out → item = item'
  single : ∀ k k' item item' n, .opened k item ∈ out → .opened k' item' ∈ out →
    item.origin = .bridge n → item'.origin = .bridge n → k = k'
  bound : ∀ c k, r.bound c = some k → ∃ item, .opened k item ∈ out ∧ item.msg.channel = c
  wrote : ∀ k item data, .wrote k item data ∈ out → ∃ item', .opened k item' ∈ out

/-- The item that an arrival adds to the queue, and an ack. -/
def additions (ms : List BridgeMessage) (msg : Option BridgeMessage) (ack : Option Item) : List Item :=
  (msg.map fun msg => ⟨.bridge ms.length, msg⟩).toList ++ ack.toList

/-- The item is an ack of a reader. -/
def IsAck (item : Item) : Prop :=
  (∃ k, item.origin = .reader k) ∧ item.msg.action = .none ∧ SyncFaker.Acks item.msg.payload

theorem bridgeOf_additions (ms : List BridgeMessage) (msg : Option BridgeMessage)
    {ack : Option Item} (hack : ∀ item ∈ ack, IsAck item) :
    bridgeOf (additions ms msg ack) =
      (msg.map fun msg => (⟨.bridge ms.length, msg⟩ : Item)).toList := by
  have hnil : bridgeOf ack.toList = [] := by
    cases ack with
    | none => rfl
    | some item =>
      obtain ⟨⟨k, hk⟩, -⟩ := hack item rfl
      exact bridgeOf_cons_reader hk []
  rw [additions, bridgeOf_append, hnil, List.append_nil]
  cases msg <;> rfl

@[simp] theorem length_numbered (ms : List BridgeMessage) : (numbered ms).length = ms.length := by
  simp [numbered]

/-- An item of the queue splits what has arrived. -/
theorem Ledger.split {ms : List BridgeMessage} {out : List Routed} {r : Router} {item : Item}
    {l post : List Item} {n : ℕ} (h : Ledger ms out r) (hp : r.pending = l ++ item :: post)
    (hn : item.origin = .bridge n) :
    ms[n]? = some item.msg ∧ (numbered ms).drop (n + 1) = bridgeOf post ∧
      n + 1 + (bridgeOf post).length = ms.length := by
  obtain ⟨done, hdone⟩ := h.order
  rw [hp, bridgeOf_append, bridgeOf_cons_bridge hn, ← List.append_assoc] at hdone
  have hpos := origin_of_numbered hdone
  rw [hn] at hpos
  obtain rfl := Origin.bridge.inj hpos
  refine ⟨?_, ?_, ?_⟩
  · have hget := congrArg (·[(done ++ bridgeOf l).length]?) hdone
    simp only [numbered, List.getElem?_map, List.getElem?_zipIdx, Option.map_map,
      List.getElem?_append_right le_rfl, Nat.sub_self, List.getElem?_cons_zero,
      Option.map_eq_some_iff] at hget
    obtain ⟨m, hm, rfl⟩ := hget
    exact hm
  · rw [hdone, List.drop_append, List.drop_of_length_le (Nat.le_succ _)]
    simp
  · have hlen := congrArg List.length hdone
    rw [length_numbered, List.length_append, List.length_cons] at hlen
    omega

/-- The approval of a connection has been queued. -/
theorem Ledger.exists_origin {ms : List BridgeMessage} {out : List Routed} {r : Router}
    {item : Item} {items : List Item} {k n : ℕ} (h : Ledger ms out r)
    (hitems : bridgeOf items = numbered ms) (hk : .opened k item ∈ out)
    (hn : item.origin = .bridge n) : ∃ a ∈ items, a.origin = .bridge n := by
  obtain ⟨-, n', hn', hget, -⟩ := h.approvals k item hk
  obtain rfl := Origin.bridge.inj (hn.symm.trans hn')
  have hmem : (⟨.bridge n, item.msg⟩ : Item) ∈ numbered ms :=
    List.mem_map.mpr ⟨(item.msg, n), List.mk_mem_zipIdx_iff_getElem?.mpr hget, rfl⟩
  rw [← hitems] at hmem
  exact ⟨_, List.mem_of_mem_filter hmem, rfl⟩

/-- Only the bridge approves. -/
theorem Ledger.origin_of_approves {ms : List BridgeMessage} {out : List Routed} {r : Router}
    {item : Item} {rest : List Item} (h : Ledger ms out r) (hp : r.pending = item :: rest)
    (happ : Approves item.msg) : ∃ n, item.origin = .bridge n := by
  cases horigin : item.origin with
  | bridge n => exact ⟨n, rfl⟩
  | reader k =>
    have hnone := (h.acks item (by simp [hp]) k horigin).1
    rw [happ.1] at hnone
    cases hnone

section

variable {refused : Prop} {ms : List BridgeMessage} {out out' : List Routed} {r r' : Router}
  {msg : Option BridgeMessage} {ack : Option Item} {k : ℕ} {item : Item}

/-- A step takes at most as many messages of the bridge from the queue as it adds. -/
theorem Move.length_bridgeOf (hmove : Move refused r r' (additions ms msg ack) out')
    (hack : ∀ item ∈ ack, IsAck item) :
    (bridgeOf r'.pending).length ≤ (bridgeOf r.pending).length + msg.toList.length := by
  obtain ⟨popped, hpopped⟩ := hmove.pending_eq
  have hlen := congrArg (fun items => (bridgeOf items).length) hpopped
  simp only [bridgeOf_append, bridgeOf_additions ms msg hack, List.length_append] at hlen
  cases msg with
  | none =>
    simp only [Option.map_none, Option.toList_none, List.length_nil] at hlen ⊢
    omega
  | some m =>
    simp only [Option.map_some, Option.toList_some, List.length_singleton] at hlen ⊢
    omega

/-- A connection that is opened now belongs to a later approval than all before. -/
theorem Ledger.later (h : Ledger ms out r)
    (hmove : Move refused r r' (additions ms msg ack) out') (hk : .opened k item ∈ out') :
    ∃ n, item.origin = .bridge n ∧ ms[n]? = some item.msg ∧
      n + 1 + (bridgeOf r'.pending).length = ms.length ∧
      n + (bridgeOf r.pending).length = ms.length := by
  obtain ⟨-, -, hp, happ, -⟩ := hmove.opened hk
  obtain ⟨n, hn⟩ := h.origin_of_approves hp happ
  obtain ⟨hget, -, hlen⟩ := h.split (l := []) hp hn
  refine ⟨n, hn, hget, hlen, ?_⟩
  rw [hp, bridgeOf_cons_bridge hn, List.length_cons]
  omega

/-- What is still pending has been pending before, or has just been added. -/
theorem Ledger.acks_move (h : Ledger ms out r) (hack : ∀ item ∈ ack, IsAck item)
    (hmove : Move refused r r' (additions ms msg ack) out') (hitem : item ∈ r'.pending)
    (hk : item.origin = .reader k) :
    item.msg.action = .none ∧ SyncFaker.Acks item.msg.payload := by
  obtain ⟨popped, hpopped⟩ := hmove.pending_eq
  have hmem : item ∈ r.pending ++ additions ms msg ack := by
    rw [hpopped]
    exact List.mem_append_right _ hitem
  rcases List.mem_append.mp hmem with hmem | hmem
  · exact h.acks item hmem k hk
  · rcases List.mem_append.mp hmem with hmem | hmem
    · obtain ⟨m, -, rfl⟩ := Option.map_eq_some_iff.mp (Option.mem_toList.mp hmem)
      cases hk
    · exact (hack item (by simpa using hmem)).2

/-- A connection is opened once. -/
theorem Ledger.once_move (h : Ledger ms out r)
    (hmove : Move refused r r' (additions ms msg ack) out') {item' : Item}
    (hk : .opened k item ∈ out ++ out') (hk' : .opened k item' ∈ out ++ out') : item = item' := by
  -- the connections opened before have smaller numbers than one opened now
  have hold : ∀ {a a'}, .opened k a ∈ out → .opened k a' ∈ out' → False := by
    intro a a' ha ha'
    have hlt := h.numbers k a ha
    have heq := (hmove.opened ha').1
    omega
  rcases List.mem_append.mp hk with hk | hk
  · rcases List.mem_append.mp hk' with hk' | hk'
    · exact h.once k item item' hk hk'
    · exact (hold hk hk').elim
  · rcases List.mem_append.mp hk' with hk' | hk'
    · exact (hold hk' hk).elim
    · have hout := (hmove.opened hk).2.2.2.2
      simpa [hout, eq_comm] using hk'

/-- An approval opens one connection at most. -/
theorem Ledger.single_move (h : Ledger ms out r)
    (hmove : Move refused r r' (additions ms msg ack) out') {k' n : ℕ} {item' : Item}
    (hk : .opened k item ∈ out ++ out') (hk' : .opened k' item' ∈ out ++ out')
    (hn : item.origin = .bridge n) (hn' : item'.origin = .bridge n) : k = k' := by
  -- an approval of an earlier connection is older than that of a connection opened now
  have hold : ∀ {j j' a a'}, .opened j a ∈ out → .opened j' a' ∈ out' → a.origin = .bridge n →
      a'.origin = .bridge n → False := by
    intro j j' a a' hj hj' ha ha'
    obtain ⟨-, m, hm, -, hlt⟩ := h.approvals j a hj
    obtain ⟨m', hm', -, -, heq⟩ := h.later hmove hj'
    cases hm.symm.trans ha
    cases hm'.symm.trans ha'
    omega
  rcases List.mem_append.mp hk with hk | hk
  · rcases List.mem_append.mp hk' with hk' | hk'
    · exact h.single k k' item item' n hk hk' hn hn'
    · exact (hold hk hk' hn hn').elim
  · rcases List.mem_append.mp hk' with hk' | hk'
    · exact (hold hk' hk hn' hn).elim
    · rw [(hmove.opened hk).1, (hmove.opened hk').1]

/-- A step of the router keeps the ledger. -/
theorem Ledger.move (h : Ledger ms out r) (hack : ∀ item ∈ ack, IsAck item)
    (hmove : Move refused r r' (additions ms msg ack) out') :
    Ledger (ms ++ msg.toList) (out ++ out') r' := by
  refine ⟨?_, fun item hitem k hk => h.acks_move hack hmove hitem hk, ?_, ?_,
    fun k item item' hk hk' => h.once_move hmove hk hk',
    fun k k' item item' n hk hk' hn hn' => h.single_move hmove hk hk' hn hn', ?_, ?_⟩
  · obtain ⟨done, hdone⟩ := h.order
    obtain ⟨popped, hpopped⟩ := hmove.pending_eq
    refine ⟨done ++ bridgeOf popped, ?_⟩
    rw [numbered_append, hdone, ← bridgeOf_additions ms msg hack, List.append_assoc,
      List.append_assoc, ← bridgeOf_append, ← bridgeOf_append, hpopped]
  · intro k item hk
    rcases List.mem_append.mp hk with hk | hk
    · exact (h.numbers k item hk).trans_le hmove.next_le
    · obtain ⟨-, hn, -⟩ := hmove.opened hk
      omega
  · intro k item hk
    have hlength := hmove.length_bridgeOf hack
    rw [List.length_append]
    rcases List.mem_append.mp hk with hk | hk
    · obtain ⟨happ, n, hn, hget, hlt⟩ := h.approvals k item hk
      refine ⟨happ, n, hn, ?_, by omega⟩
      rw [List.getElem?_append_left (by omega)]
      exact hget
    · obtain ⟨n, hn, hget, hlen, -⟩ := h.later hmove hk
      refine ⟨(hmove.opened hk).2.2.2.1, n, hn, ?_, by omega⟩
      rw [List.getElem?_append_left (by omega)]
      exact hget
  · intro c k hk
    rcases hmove.bound_eq hk with hk | ⟨item, hitem, hc⟩
    · obtain ⟨item, hitem, hc⟩ := h.bound c k hk
      exact ⟨item, List.mem_append_left _ hitem, hc⟩
    · exact ⟨item, List.mem_append_right _ hitem, hc⟩
  · intro k item data hk
    rcases List.mem_append.mp hk with hk | hk
    · obtain ⟨item', hitem'⟩ := h.wrote k item data hk
      exact ⟨item', List.mem_append_left _ hitem'⟩
    · obtain ⟨item', hitem', -⟩ := h.bound _ k (hmove.wrote hk).1
      exact ⟨item', List.mem_append_left _ hitem'⟩

end

/-- What a reader sends back to guacd are acks. -/
def Reader.Acking (r : Reader) : Prop :=
  SyncFaker.Acks r.lastAck ∧ r.syncFaker.Kept SyncFaker.Echoing

theorem acking_new (c : UInt16) (fd : ℕ) : Reader.Acking { channel := c, fd := fd } :=
  ⟨SyncFaker.acks_nil, SyncFaker.kept_fresh⟩

theorem Reader.Acking.keepalive {r : Reader} (h : r.Acking) {due : Bool} {ack : Bytes}
    (hack : r.keepalive due = some ack) : SyncFaker.Acks ack := by
  unfold Reader.keepalive at hack
  split_ifs at hack
  cases hack
  exact h.1

theorem Reader.Acking.feed {r : Reader} (h : r.Acking) (data : Bytes) (due : Bool) :
    (r.feed data due).1.Acking ∧ ∀ ack, (r.feed data due).2 = some ack → SyncFaker.Acks ack := by
  obtain ⟨hacks, hkept⟩ := SyncFaker.feed_spec h.2 data
  unfold Reader.feed
  dsimp only
  split_ifs
  · refine ⟨⟨hacks, hkept⟩, ?_⟩
    intro ack hack
    cases hack
    exact hacks
  · have hr : ({ r with syncFaker := (SyncFaker.feed r.syncFaker data).2, stage := .receiving } :
        Reader).Acking := ⟨h.1, hkept⟩
    exact ⟨hr, fun _ => hr.keepalive⟩

/-- All readers send back acks. -/
def Acking (readers : ℕ → Option Reader) : Prop := ∀ k r, readers k = some r → r.Acking

theorem Acking.update {readers : ℕ → Option Reader} (h : Acking readers) (k : ℕ) {r : Reader}
    (hr : r.Acking) : Acking (Function.update readers k (some r)) := by
  intro k' r' hr'
  obtain ⟨rfl, rfl⟩ | ⟨hk, hr'⟩ := Table.of_update hr'
  · exact hr
  · exact h k' r' hr'

theorem Acking.remove {readers : ℕ → Option Reader} (h : Acking readers) (k : ℕ) :
    Acking (Function.update readers k none) := by
  intro k' r' hr'
  exact h k' r' (Table.of_update_none hr').2

theorem Acking.handle {s : Gcdbroker} (h : Acking s.readers) : Acking s.handle.1.readers := by
  unfold Gcdbroker.handle
  split
  · split <;> exact h
  · unfold Gcdbroker.dispatch
    split
    · exact h
    · split_ifs <;> exact h
    · exact h
    · split <;> exact h
  · unfold Gcdbroker.insert
    split
    · exact h.update _ (acking_new _ _)
    · exact h
  · exact h
  · exact h
  · exact h

theorem Acking.read {s : Gcdbroker} (h : Acking s.readers) {k : ℕ} {r : Reader}
    (hr : s.readers k = some r) : Acking (s.read k r).1.readers := by
  have hack := h k r hr
  unfold Gcdbroker.read
  split
  · exact h
  · next data due _ => exact h.update k (hack.feed data due).1
  · exact h.update k hack
  · exact h.update k hack
  · exact h.remove k

theorem Acking.step {s : Gcdbroker} (h : Acking s.readers) (e : Event) :
    Acking (s.step e).1.readers := by
  unfold Gcdbroker.step
  cases e with
  | datagram data =>
    dsimp only
    split <;> exact h
  | handle => exact h.handle
  | dial fd =>
    dsimp only
    unfold Gcdbroker.dial
    split
    · split_ifs
      · split
        · exact h
        · split_ifs <;> exact h
      · exact h
    · exact h
  | send taken =>
    dsimp only
    unfold Gcdbroker.send
    split
    · split <;> exact h
    · exact h
  | receive k data due =>
    dsimp only
    split
    · exact h
    · next r hr =>
      unfold Gcdbroker.receive
      split_ifs
      · dsimp only
        split_ifs
        · exact h.update k (h k r hr)
        · exact h.update k (h k r hr)
      · exact h
  | timeout k due => exact h
  | read k =>
    dsimp only
    split
    · exact h
    · next hr => exact h.read hr
  | transmit =>
    dsimp only
    split <;> exact h

/-- What a reader queues is an ack. -/
theorem Acking.ackOf {s : Gcdbroker} (h : Acking s.readers) {e : Event} {item : Item}
    (hitem : s.ackOf e = some item) : IsAck item := by
  unfold Gcdbroker.ackOf at hitem
  split at hitem
  · next k due =>
    split at hitem
    · next r hr =>
      split_ifs at hitem
      obtain ⟨ack, hack, rfl⟩ := Option.map_eq_some_iff.mp hitem
      exact ⟨⟨k, rfl⟩, rfl, (h k r hr).keepalive hack⟩
    · cases hitem
  · next k =>
    split at hitem
    · next r hr =>
      split at hitem
      · next data due _ =>
        obtain ⟨ack, hack, rfl⟩ := Option.map_eq_some_iff.mp hitem
        exact ⟨⟨k, rfl⟩, rfl, ((h k r hr).feed data due).2 ack hack⟩
      · cases hitem
    · cases hitem
  · cases hitem

theorem acking_run (es : List Event) : Acking (machine.run es).readers :=
  Machine.invariant (M := machine) (P := fun _ s => Acking s.readers) (by simp [machine, Acking])
    (fun _ e h => h.step e) es

/-- Only the receiver counts messages. -/
theorem arrived_step (s : Gcdbroker) (e : Event) :
    (s.step e).1.arrived = s.arrived + (arrival e).toList.length := by
  cases e with
  | datagram data =>
    simp only [step]
    split
    · next h => simp [h]
    · next h => simp [h]
  | handle =>
    simp only [step, handle, dispatch, insert]
    repeat' split
    all_goals rfl
  | dial fd =>
    simp only [step, dial]
    repeat' split
    all_goals rfl
  | send taken =>
    simp only [step, send]
    repeat' split
    all_goals rfl
  | receive k data due =>
    simp only [step, receive]
    repeat' split
    all_goals rfl
  | timeout k due => rfl
  | read k =>
    simp only [step, read]
    repeat' split
    all_goals rfl
  | transmit =>
    simp only [step]
    split <;> rfl

theorem arrived_run (es : List Event) : (machine.run es).arrived = (delivered es).length :=
  Machine.invariant (M := machine) (P := fun es s => s.arrived = (delivered es).length) rfl
    (fun es e h => by
      rw [delivered_snoc, List.length_append, ← h]
      exact arrived_step _ e) es

/-- A step queues one item at most, a message of the bridge or an ack. -/
theorem queued_eq (s : Gcdbroker) (e : Event) :
    s.queued e = [] ∨
      ∃ item, s.queued e = [item] ∧ ∀ k, item.origin = .reader k → s.ackOf e = some item := by
  cases e with
  | datagram data =>
    have hack : s.ackOf (.datagram data) = none := rfl
    cases harr : arrival (.datagram data) with
    | none => exact .inl (by simp [queued, harr, hack])
    | some msg => exact .inr ⟨⟨.bridge s.arrived, msg⟩, by simp [queued, harr, hack], by simp⟩
  | _ =>
    unfold queued
    dsimp only [arrival]
    cases hack : s.ackOf _ with
    | none => exact .inl rfl
    | some item => exact .inr ⟨item, rfl, fun _ _ => rfl⟩

/-- The messages among what has been queued are those that have arrived. -/
theorem bridgeOf_recvQueued (es : List Event) : bridgeOf (recvQueued es) = numbered (delivered es) := by
  induction es using List.reverseRecOn with
  | nil => rfl
  | append_singleton es e ih =>
    rw [recvQueued_snoc, bridgeOf_append, ih, delivered_snoc, numbered_append, queued, arrived_run]
    exact congrArg _ (bridgeOf_additions _ _ fun _ hack => (acking_run es).ackOf hack)

/-- What has been done for the connections in a run. -/
def routed (es : List Event) : List Routed := routes (machine.emitted es)

@[simp] theorem routed_snoc (es : List Event) (e : Event) :
    routed (es ++ [e]) = routed es ++ routes ((machine.run es).step e).2 := by
  simp only [routed, routes, Machine.emitted_snoc, List.filterMap_append]
  rfl

theorem move_run (es : List Event) (e : Event) :
    Move ((machine.run es).refuses e = true) (machine.run es).router (machine.run (es ++ [e])).router
      (additions (delivered es) (arrival e) ((machine.run es).ackOf e))
      (routes ((machine.run es).step e).2) := by
  have hmove := move (wf_run es) e
  rw [queued, arrived_run] at hmove
  rw [Machine.run_snoc]
  exact hmove

/-- The history of every run agrees with the state that it ends in. -/
theorem ledger_run (es : List Event) : Ledger (delivered es) (routed es) (machine.run es).router := by
  induction es using List.reverseRecOn with
  | nil =>
    refine ⟨⟨[], rfl⟩, ?_, ?_, ?_, ?_, ?_, ?_, ?_⟩ <;>
      simp [routed, routes, machine, router, bound, lookup, SendHandler.held]
  | append_singleton es e ih =>
    rw [delivered_snoc, routed_snoc]
    exact ih.move (fun _ hack => (acking_run es).ackOf hack) (move_run es e)

end Gcdbroker

end GuacamoleDiode
