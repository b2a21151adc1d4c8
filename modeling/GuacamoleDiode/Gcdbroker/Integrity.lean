import GuacamoleDiode.Gcdbroker.Ledger
import GuacamoleDiode.Lib.Shuffle
import Mathlib.Data.List.TakeWhile

/-!
# Forward traffic and faked acks on one connection

The handler writes to a guacd connection what the bridge sends to its channel, and the
acks that the readers queue in between, unmodified and in the order of the queue. The
payloads of the bridge end anywhere, so an ack may land inside an instruction. It does not
if every ack is queued while the payloads that have arrived for the connection end at an
instruction boundary.

## Main definitions

- `queuedFor`: what has been queued for a connection since its approval
- `written`: what has been written to a connection, and by whom
- `Contiguous`: what has been queued is written as it is, every instruction in one piece

## Main results

- `contiguous_of_aligned`
-/

namespace GuacamoleDiode

open Wire

namespace Gcdbroker

-- ════════════════════════════════════════════════════════════════════════
-- What is queued for a connection
-- ════════════════════════════════════════════════════════════════════════

/-- The two kinds of producers of the receive queue. -/
inductive Writer where
  | bridge
  | reader
  deriving DecidableEq, Repr

def Origin.writer : Origin → Writer
  | .bridge _ => .bridge
  | .reader _ => .reader

/-- What has been queued for a channel to be written, and whether the bridge has shut it
down since. -/
structure Lane where
  writes : List (Writer × Bytes) := []
  closed : Bool := false
  deriving DecidableEq, Repr

/-- One more item. A channel that has been shut down is sent nothing more. -/
def Lane.next (c : UInt16) (l : Lane) (item : Item) : Lane :=
  if l.closed = true ∨ item.msg.channel ≠ c then l
  else
    match item.msg.action with
    | .shutdownChannel => { l with closed := true }
    | .none => { l with writes := l.writes ++ [(item.origin.writer, item.msg.payload)] }
    | _ => l

/-- The items behind the message of the bridge with number `n`. -/
def behind (n : ℕ) (items : List Item) : List Item :=
  (items.dropWhile fun item => item.origin ≠ .bridge n).tail

/-- What has been queued for a channel behind the message of the bridge with number `n`. -/
def queuedFor (c : UInt16) (n : ℕ) (items : List Item) : Lane :=
  (behind n items).foldl (Lane.next c) {}

/-- The forward traffic among it. -/
def Lane.forward (l : Lane) : Bytes := (writesOf Writer.bridge l.writes).flatten

section

variable {c : UInt16} {n : ℕ} {l : Lane} {item : Item} {items : List Item}

theorem Lane.next_of_ne (h : item.msg.channel ≠ c) : l.next c item = l := by
  simp [Lane.next, h]

theorem Lane.next_control (h : item.msg.action = .createChannel ∨ item.msg.action = .approval) :
    l.next c item = l := by
  rcases h with h | h <;> simp [Lane.next, h]

theorem Lane.next_none (hopen : l.closed = false) (hc : item.msg.channel = c)
    (hact : item.msg.action = .none) :
    l.next c item = { l with writes := l.writes ++ [(item.origin.writer, item.msg.payload)] } := by
  simp [Lane.next, hopen, hc, hact]

/-- An item adds a write of its own or none. -/
theorem Lane.writes_next (c : UInt16) (l : Lane) (item : Item) :
    (l.next c item).writes = l.writes ∨ l.closed = false ∧ item.msg.channel = c ∧
      (l.next c item).writes = l.writes ++ [(item.origin.writer, item.msg.payload)] := by
  unfold Lane.next
  split_ifs with h
  · exact .inl rfl
  · push Not at h
    split
    · exact .inl rfl
    · exact .inr ⟨by simpa using h.1, h.2, rfl⟩
    · exact .inl rfl

theorem Lane.writes_prefix_foldl : l.writes <+: (items.foldl (Lane.next c) l).writes := by
  induction items generalizing l with
  | nil => exact List.prefix_rfl
  | cons item items ih =>
    refine List.IsPrefix.trans ?_ ih
    rcases Lane.writes_next c l item with h | ⟨-, -, h⟩
    · rw [h]
    · rw [h]
      exact List.prefix_append _ _

/-- The first item with the number is the one that counts. -/
theorem behind_split {front back : List Item} (hfront : ∀ a ∈ front, a.origin ≠ .bridge n)
    (hitem : item.origin = .bridge n) : behind n (front ++ item :: back) = back := by
  rw [behind, List.dropWhile_append_of_pos (by simpa using hfront), List.dropWhile_cons_of_neg]
  · rfl
  · simp [hitem]

theorem behind_of_forall_ne (h : ∀ a ∈ items, a.origin ≠ .bridge n) : behind n items = [] := by
  rw [behind, List.dropWhile_eq_nil_iff.mpr (by simpa using h), List.tail_nil]

/-- Items that come in later stand behind, if the message has arrived. -/
theorem behind_append (h : ∃ a ∈ items, a.origin = .bridge n) (more : List Item) :
    behind n (items ++ more) = behind n items ++ more := by
  have hne : items.dropWhile (fun item => item.origin ≠ .bridge n) ≠ [] := by
    rw [ne_eq, List.dropWhile_eq_nil_iff]
    obtain ⟨a, ha, horigin⟩ := h
    exact fun hall => absurd horigin (by simpa using hall a ha)
  rw [behind, behind, List.dropWhile_append, if_neg (by simpa using hne),
    List.tail_append_of_ne_nil hne]

/-- Before the message arrives, nothing stands behind it. -/
theorem behind_snoc (n : ℕ) (items : List Item) (item : Item) :
    behind n (items ++ [item]) = behind n items ++ [item] ∨ behind n (items ++ [item]) = [] := by
  by_cases h : ∃ a ∈ items, a.origin = .bridge n
  · exact .inl (behind_append h [item])
  · push Not at h
    right
    by_cases hitem : item.origin = .bridge n
    · exact behind_split h hitem
    · refine behind_of_forall_ne fun a ha => ?_
      rcases List.mem_append.mp ha with ha | ha
      · exact h a ha
      · rwa [List.mem_singleton.mp ha]

theorem queuedFor_append (h : ∃ a ∈ items, a.origin = .bridge n) (more : List Item) :
    queuedFor c n (items ++ more) = more.foldl (Lane.next c) (queuedFor c n items) := by
  rw [queuedFor, behind_append h, List.foldl_append, queuedFor]

end

-- ════════════════════════════════════════════════════════════════════════
-- What is written
-- ════════════════════════════════════════════════════════════════════════

/-- What has been written to a connection, and by whom. -/
def written (out : List Routed) (k : ℕ) : List (Writer × Bytes) :=
  out.filterMap fun
    | .wrote k' item data => if k' = k then some (item.origin.writer, data) else none
    | .opened _ _ => none

@[simp] theorem written_append (out out' : List Routed) (k : ℕ) :
    written (out ++ out') k = written out k ++ written out' k := by
  simp [written]

theorem written_opened (k k' : ℕ) (item : Item) : written [.opened k' item] k = [] := rfl

theorem written_wrote (k : ℕ) (item : Item) (data : Bytes) :
    written [.wrote k item data] k = [(item.origin.writer, data)] := by
  simp [written]

theorem written_wrote_of_ne {k k' : ℕ} (h : k' ≠ k) (item : Item) (data : Bytes) :
    written [.wrote k' item data] k = [] := by
  simp [written, h]

/-- A `sync` of a client. -/
def IsSync (w : Bytes) : Prop := ∃ ts, w = (SyncFaker.ack ts).encode

/-- The connection that the message of the bridge with number `n` has opened for a channel
gets what is queued for it, and nothing stands inside an instruction. -/
structure Contiguous {limit : ℕ} (stream : List (Instruction limit)) (c : UInt16) (n k : ℕ)
    (es : List Event) : Prop where
  /-- the bytes are those of the queue, acks included, unmodified and in order -/
  unmodified : labelled (written (routed es) k) <+: labelled (queuedFor c n (recvQueued es)).writes
  /-- while the channel is bound to the connection, all the rest is pending -/
  complete : (machine.run es).router.bound c = some k →
    (machine.run es).router.pending.foldl (Lane.next c) ⟨written (routed es) k, false⟩ =
      queuedFor c n (recvQueued es)
  /-- what is queued are the instructions of the stream, in order, and syncs, each of them in
  one piece -/
  whole : Shuffled Writer.bridge stream IsSync (queuedFor c n (recvQueued es)).writes

-- ════════════════════════════════════════════════════════════════════════
-- Connections get what is queued for them
-- ════════════════════════════════════════════════════════════════════════

section

variable {n k : ℕ} {c : UInt16} {ms : List BridgeMessage} {r r' : Router} {item : Item}
  {queued : Lane} {ws : List (Writer × Bytes)} {items : List Item} {out : List Routed}

/-- What has been written to a connection begins what has been queued for it. While the
channel is bound to it, the pending items continue what has been written. -/
def Served (queued : Lane) (c : UInt16) (r : Router) (k : ℕ) (ws : List (Writer × Bytes)) : Prop :=
  labelled ws <+: labelled queued.writes ∧
    (r.bound c = some k → r.pending.foldl (Lane.next c) ⟨ws, false⟩ = queued)

/-- The pending items are the last ones that have been queued, and every connection that has
been opened is served. -/
structure Serving (items : List Item) (out : List Routed) (r : Router) : Prop where
  order : ∃ done, items = done ++ r.pending
  served : ∀ k item n, .opened k item ∈ out → item.origin = .bridge n →
    Served (queuedFor item.msg.channel n items) item.msg.channel r k (written out k)

/-- An item leaves the queue that the connection does not see. -/
theorem Served.pop (h : Served queued c r k ws) (hp : r.pending = item :: r'.pending)
    (hbound : r'.bound c = some k → r.bound c = some k)
    (hskip : r.bound c = some k → ∀ l : Lane, l.next c item = l) :
    Served queued c r' k ws := by
  refine ⟨h.1, fun hk => ?_⟩
  have hrest := h.2 (hbound hk)
  rwa [hp, List.foldl_cons, hskip (hbound hk)] at hrest

/-- The connection has been replaced or closed. -/
theorem Served.of_unbound (h : Served queued c r k ws) (hbound : r'.bound c ≠ some k) :
    Served queued c r' k ws :=
  ⟨h.1, fun hk => absurd hk hbound⟩

/-- More items are queued. -/
theorem Served.push {pushed : List Item} (h : Served queued c r k ws)
    (hp : r'.pending = r.pending ++ pushed) (hbound : r'.bound c = some k → r.bound c = some k) :
    Served (pushed.foldl (Lane.next c) queued) c r' k ws := by
  refine ⟨h.1.trans (labelled_mono Lane.writes_prefix_foldl), fun hk => ?_⟩
  rw [hp, List.foldl_append, h.2 (hbound hk)]

/-- The front of the queue is written to the connection, all of it or a beginning. -/
theorem Served.write (h : Served queued c r k ws) {data : Bytes}
    (hp : r.pending = item :: r'.pending) (hact : item.msg.action = .none)
    (hc : item.msg.channel = c) (hconn : r.bound c = some k) (hdata : data <+: item.msg.payload)
    (hcomplete : data = item.msg.payload ∨ r'.bound c = none) :
    Served queued c r' k (ws ++ [(item.origin.writer, data)]) := by
  have hrest := h.2 hconn
  rw [hp, List.foldl_cons, Lane.next_none rfl hc hact] at hrest
  dsimp only at hrest
  refine ⟨?_, fun hbound => ?_⟩
  · have hbytes : labelled (ws ++ [(item.origin.writer, data)]) <+:
        labelled (ws ++ [(item.origin.writer, item.msg.payload)]) := by
      simpa using hdata.map (Prod.mk item.origin.writer)
    rw [← hrest]
    exact hbytes.trans (labelled_mono (Lane.writes_prefix_foldl (l := ⟨ws ++ _, false⟩)))
  · obtain rfl := hcomplete.resolve_right (by simp [hbound])
    exact hrest

/-- Before it is opened, nothing is written to a connection. -/
theorem Ledger.written_of_next_le (h : Ledger ms out r) (hk : r.next ≤ k) : written out k = [] := by
  rw [written, List.filterMap_eq_nil_iff]
  rintro (⟨k', item'⟩ | ⟨k', item', data⟩) hmem
  · rfl
  · obtain ⟨a, ha⟩ := h.wrote k' item' data hmem
    have hlt := h.numbers k' a ha
    exact if_neg (by omega)

/-- A new connection has to be sent everything that is pending. -/
theorem served_new (hitems : bridgeOf items = numbered ms) {done : List Item}
    (hdone : items = done ++ item :: r'.pending) (horigin : item.origin = .bridge n) :
    Served (queuedFor c n items) c r' k [] := by
  have hbehind : behind n items = r'.pending := by
    rw [hdone]
    exact behind_split (origin_ne_of_numbered (hdone ▸ hitems) horigin) horigin
  rw [queuedFor, hbehind]
  exact ⟨List.nil_prefix, fun _ => rfl⟩

/-- Every move of the router serves the connections. -/
theorem Serving.move {refused : Prop} {out' : List Routed} {pushed : List Item}
    (h : Serving items out r) (hledger : Ledger ms out r) (hitems : bridgeOf items = numbered ms)
    (hmove : Move refused r r' pushed out') : Serving (items ++ pushed) (out ++ out') r' := by
  obtain ⟨done, hdone⟩ := h.order
  obtain ⟨popped, hpopped⟩ := hmove.pending_eq
  refine ⟨⟨done ++ popped, by rw [hdone, List.append_assoc, hpopped, List.append_assoc]⟩, ?_⟩
  cases hmove with
  | push hp hbound _ =>
    intro k a n ha horigin
    rw [List.append_nil] at ha ⊢
    have harrived := hledger.exists_origin hitems ha horigin
    rw [queuedFor_append harrived]
    exact (h.served k a n ha horigin).push hp (hbound _ k)
  | drop item hp haction hunbound _ hbound _ =>
    intro k a n ha horigin
    rw [List.append_nil] at ha ⊢
    rw [List.append_nil]
    refine (h.served k a n ha horigin).pop hp (hbound _ k) fun hk l => ?_
    by_cases hc : item.msg.channel = a.msg.channel
    · cases hact : item.msg.action with
      | none =>
        have hnone := hunbound hact
        rw [hc, hk] at hnone
        cases hnone
      | createChannel => exact Lane.next_control (.inl hact)
      | shutdownChannel => exact absurd hact haction
      | approval => exact Lane.next_control (.inr hact)
    · exact Lane.next_of_ne hc
  | bind item k₀ hp happ _ hbound hk₀ _ =>
    intro k a n ha horigin
    rw [List.append_nil, written_append, written_opened, List.append_nil]
    rcases List.mem_append.mp ha with ha | ha
    · have hlt := hledger.numbers k a ha
      have hserved := h.served k a n ha horigin
      by_cases hc : item.msg.channel = a.msg.channel
      · refine hserved.of_unbound ?_
        rw [hbound, hc, Function.update_self]
        simp only [ne_eq, Option.some.injEq]
        omega
      · refine hserved.pop hp ?_ fun _ l => Lane.next_of_ne hc
        rw [hbound, Function.update_of_ne (Ne.symm hc)]
        exact id
    · simp only [List.mem_singleton, Routed.opened.injEq] at ha
      obtain ⟨rfl, rfl⟩ := ha
      rw [hledger.written_of_next_le hk₀.ge]
      exact served_new hitems (hp ▸ hdone) horigin
  | shut item hp _ hbound _ =>
    intro k a n ha horigin
    rw [List.append_nil] at ha ⊢
    rw [List.append_nil]
    have hserved := h.served k a n ha horigin
    by_cases hc : item.msg.channel = a.msg.channel
    · exact hserved.of_unbound (by simp [hbound, hc])
    · refine hserved.pop hp ?_ fun _ l => Lane.next_of_ne hc
      rw [hbound, Function.update_of_ne (Ne.symm hc)]
      exact id
  | write item k₀ data hp hact hconn hdata hcomplete hbound _ =>
    intro k a n ha horigin
    rw [List.append_nil, written_append]
    have ha : .opened k a ∈ out := by simpa using ha
    have hserved := h.served k a n ha horigin
    by_cases hk : k₀ = k
    · subst hk
      obtain ⟨a', ha', hc⟩ := hledger.bound _ k₀ hconn
      obtain rfl := hledger.once k₀ a a' ha ha'
      rw [written_wrote]
      rw [← hc] at hconn hcomplete
      exact hserved.write hp hact hc.symm hconn hdata hcomplete
    · rw [written_wrote_of_ne hk, List.append_nil]
      refine hserved.pop hp (hbound _ k) fun hbk l => Lane.next_of_ne ?_
      intro hc
      rw [hc, hbk] at hconn
      exact hk (Option.some.inj hconn).symm

end

theorem serving_run (es : List Event) :
    Serving (recvQueued es) (routed es) (machine.run es).router := by
  induction es using List.reverseRecOn with
  | nil =>
    refine ⟨⟨[], by simp [recvQueued, machine, router, SendHandler.held]⟩, ?_⟩
    simp [routed, routes]
  | append_singleton es e ih =>
    rw [recvQueued_snoc, routed_snoc, Machine.run_snoc]
    exact ih.move (ledger_run es) (bridgeOf_recvQueued es) (move (wf_run es) e)

-- ════════════════════════════════════════════════════════════════════════
-- Acks between instructions
-- ════════════════════════════════════════════════════════════════════════

/-- The bytes are whole instructions. -/
def Aligned (limit : ℕ) (w : Bytes) : Prop := ∃ is : List (Instruction limit), w = wire is

/-- An ack is queued while the forward traffic of a connection ends at a boundary. -/
def InTime (limit n : ℕ) (c : UInt16) (pre : List Event) (ack : Option Item) : Prop :=
  ∀ item ∈ ack, item.msg.channel = c → (queuedFor c n (recvQueued pre)).closed = false →
    Aligned limit (queuedFor c n (recvQueued pre)).forward

section

variable {limit n : ℕ} {c : UInt16} {l : Lane} {item : Item}

/-- One more item, which is an ack at a boundary if it is an ack. -/
theorem atBoundaries_next (h : AtBoundaries Writer.bridge limit IsSync l.writes)
    (hack : ∀ k, item.origin = .reader k → SyncFaker.Acks item.msg.payload)
    (htime : ∀ k, item.origin = .reader k → item.msg.channel = c → l.closed = false →
      Aligned limit l.forward) :
    AtBoundaries Writer.bridge limit IsSync (l.next c item).writes := by
  rcases Lane.writes_next c l item with heq | ⟨hopen, hc, heq⟩
  · rwa [heq]
  · rw [heq]
    refine h.snoc fun hwriter _ => ?_
    cases horigin : item.origin with
    | bridge m => simp [horigin, Origin.writer] at hwriter
    | reader k =>
      -- an ack follows whole instructions
      refine ⟨?_, htime k horigin hc hopen⟩
      obtain ⟨tss, htss⟩ := hack k horigin
      refine ⟨tss.map fun ts => (SyncFaker.ack ts).encode, ?_, ?_⟩
      · rw [htss, wire, List.flatMap_map, List.flatMap_def]
      · intro d hd
        obtain ⟨ts, -, rfl⟩ := List.mem_map.mp hd
        exact ⟨ts, rfl⟩

theorem atBoundaries_run {es : List Event}
    (h : machine.Always (fun pre s e => InTime limit n c pre (s.ackOf e)) es) :
    AtBoundaries Writer.bridge limit IsSync (queuedFor c n (recvQueued es)).writes := by
  refine Machine.invariant_of_always (P := fun es _ =>
    AtBoundaries Writer.bridge limit IsSync (queuedFor c n (recvQueued es)).writes) ?_ ?_ h
  · exact atBoundaries_nil
  · intro es e ih htime
    rw [recvQueued_snoc]
    rcases queued_eq (machine.run es) e with hq | ⟨item, hq, hitem⟩
    · rwa [hq, List.append_nil]
    · rw [hq]
      rcases behind_snoc n (recvQueued es) item with hbehind | hbehind
      · rw [queuedFor, hbehind, List.foldl_append]
        refine atBoundaries_next ih (fun k hk => ?_) fun k hk hc hopen => ?_
        · exact ((acking_run es).ackOf (hitem k hk)).2.2
        · exact htime item (hitem k hk) hc hopen
      · rw [queuedFor, hbehind]
        exact atBoundaries_nil

end

/-- Forward traffic and acks are written as they are queued, and arrive in one piece, if
every ack is queued while what has arrived for the connection ends at an instruction
boundary. -/
theorem contiguous_of_aligned {limit : ℕ} (es : List Event) (k n : ℕ) (msg : BridgeMessage)
    (hopen : .insert k ⟨.bridge n, msg⟩ ∈ machine.emitted es) (stream : List (Instruction limit))
    (hstream : (queuedFor msg.channel n (recvQueued es)).forward <+: wire stream)
    (htime : machine.Always
      (fun pre s e => InTime limit n msg.channel pre (s.ackOf e)) es) :
    Contiguous stream msg.channel n k es := by
  have hopened : .opened k ⟨.bridge n, msg⟩ ∈ routed es :=
    List.mem_filterMap.mpr ⟨_, hopen, rfl⟩
  obtain ⟨hbytes, hrest⟩ := (serving_run es).served k _ n hopened rfl
  exact ⟨hbytes, hrest, shuffled_of_boundary hstream (atBoundaries_run htime)⟩

/-- The approval of channel 1. -/
def approval : BridgeMessage :=
  { channel := 1, action := .approval, payload := ascii "A0123456789ab" }

/-- Payload on channel 1. -/
def payload (data : Bytes) : Event :=
  .datagram (Multiplexer.serialize { channel := 1, action := .none, payload := data })

/-- Channel 1 is approved, and guacd is dialed. -/
def opening : List Event :=
  [.datagram (Multiplexer.serialize approval), .handle, .dial (some 5), .handle, .handle]

/-- guacd sends a sync, which its reader answers. -/
def syncing : List Event := [.receive 0 (ascii "4.sync,2.42;") false, .read 0]

/-- The handler takes an item off the queue and writes it. -/
def writing : List Event := [.handle, .handle, .send 1200]

def keyPress : Instruction maxElementSize :=
  .ofValues [ascii "key", ascii "97", ascii "1"] (by decide) (by decide +kernel)

/-- The sync arrives between two key presses. -/
def syncedRun : List Event :=
  opening ++ [payload keyPress.encode] ++ syncing ++ [payload keyPress.encode] ++ writing ++
    writing ++ writing

theorem ackOf_syncedRun : ∀ i (hi : i < syncedRun.length), i ≠ 7 →
    (machine.run (syncedRun.take i)).ackOf syncedRun[i] = none := by
  decide +kernel

theorem syncedRun_inTime :
    machine.Always (fun pre s e => InTime maxElementSize 0 1 pre (s.ackOf e)) syncedRun := by
  refine Machine.always_of_getElem fun i hi => ?_
  by_cases hread : i = 7
  · subst hread
    intro _ _ _ _
    exact ⟨[keyPress], by decide +kernel⟩
  · rw [ackOf_syncedRun i hi hread]
    simp [InTime]

/-- The condition holds of a run that writes an ack between two instructions. -/
theorem contiguous_syncedRun :
    .insert 0 ⟨.bridge 0, approval⟩ ∈ machine.emitted syncedRun ∧
      written (routed syncedRun) 0 = [(.bridge, keyPress.encode),
        (.reader, ascii "4.sync,2.42;"), (.bridge, keyPress.encode)] ∧
      Contiguous [keyPress, keyPress] 1 0 0 syncedRun := by
  have hopen : .insert 0 ⟨.bridge 0, approval⟩ ∈ machine.emitted syncedRun := by decide +kernel
  refine ⟨hopen, by decide +kernel, ?_⟩
  exact contiguous_of_aligned syncedRun 0 0 approval hopen [keyPress, keyPress] (by decide +kernel)
    syncedRun_inTime

/-- The sync arrives between the two payloads of one key press. -/
def tornRun : List Event :=
  opening ++ [payload (keyPress.encode.take 7)] ++ syncing ++ [payload (keyPress.encode.drop 7)] ++
    writing ++ writing ++ writing

/-- The ack is written into the middle of the key press. -/
theorem not_contiguous_tornRun :
    .insert 0 ⟨.bridge 0, approval⟩ ∈ machine.emitted tornRun ∧
      (queuedFor 1 0 (recvQueued tornRun)).forward = wire [keyPress] ∧
      written (routed tornRun) 0 = (queuedFor 1 0 (recvQueued tornRun)).writes ∧
      ¬Contiguous [keyPress] 1 0 0 tornRun := by
  refine ⟨by decide +kernel, by decide +kernel, by decide +kernel, fun h => ?_⟩
  have hsplit : (queuedFor 1 0 (recvQueued tornRun)).writes = [(.bridge, keyPress.encode.take 7)] ++
      (.reader, ascii "4.sync,2.42;") :: [(.bridge, keyPress.encode.drop 7)] := by
    decide +kernel
  obtain ⟨js, hjs⟩ := boundary_of_shuffled h.whole hsplit (by decide) (by decide)
  rw [writesOf_cons_self, writesOf_nil, List.flatten_singleton] at hjs
  have hread : ((Cursor.start : Cursor maxElementSize).read (keyPress.encode.take 7)).map
      (fun r => r.2.bytes) = some [] := by
    rw [hjs, Cursor.read_wire]
    rfl
  exact absurd hread (by decide +kernel)

end Gcdbroker

end GuacamoleDiode
