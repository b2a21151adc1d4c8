import GuacamoleDiode.Gcdbroker.Ledger
import GuacamoleDiode.Gcdbroker.Turns

/-!
# What the readers take from guacd

Payload on the return path has been taken from guacd by the reader of a connection on the
channel. Everything else that gcdbroker sends back is a verdict or a SHUTDOWN.

## Main definitions

- `payloadsOn`: the payload on a channel among messages
- `Gcdbroker.reads`: what a reader takes from guacd

## Main results

- `reading_step`: who queues payload for the return path
- `opened_of_reader`: a reader serves a connection that has been opened on its channel
- `payload_of_opened`: all the payload on the channel of a connection, if it has no other
-/

namespace GuacamoleDiode

open Wire

/-- The payload on a channel among messages, oldest first. -/
def payloadsOn (c : UInt16) (msgs : List BridgeMessage) : List Bytes :=
  msgs.filterMap fun msg => if msg.channel = c ∧ msg.action = .none then some msg.payload else none

section

variable {c : UInt16} {msgs : List BridgeMessage} {msg : BridgeMessage}

@[simp] theorem payloadsOn_nil : payloadsOn c [] = [] := rfl

theorem payloadsOn_append (c : UInt16) (msgs msgs' : List BridgeMessage) :
    payloadsOn c (msgs ++ msgs') = payloadsOn c msgs ++ payloadsOn c msgs' :=
  List.filterMap_append

theorem payloadsOn_singleton :
    payloadsOn c [msg] = if msg.channel = c ∧ msg.action = .none then [msg.payload] else [] := by
  unfold payloadsOn
  split_ifs with h <;> simp [h]

theorem payloadsOn_eq_nil (h : ∀ msg ∈ msgs, msg.action ≠ .none) : payloadsOn c msgs = [] := by
  rw [payloadsOn, List.filterMap_eq_nil_iff]
  intro msg hmsg
  simp [h msg hmsg]

end

namespace Gcdbroker

/-- What the reader of a connection takes from guacd in a step: as much of what is there as its
buffer holds, unless that is the end of the stream. -/
def reads (k : ℕ) (s : Gcdbroker) (e : Event) : List Bytes :=
  match e, s.readers k with
  | .receive k' data _, some r =>
    if k' = k ∧ r.stage = .receiving ∧ data.take Multiplexer.maxPayloadSize ≠ [] then
      [data.take Multiplexer.maxPayloadSize]
    else []
  | _, _ => []

/-- The message that is about to be relayed, or has been dialed for, carries no payload. -/
def SendHandler.Payloadless : SendHandler → Prop
  | .relaying msg => msg.action ≠ .none
  | .busy item (.dialed _ _) => item.msg.action ≠ .none
  | _ => True

section

variable {s : Gcdbroker} {e : Event} {k : ℕ} {r : Reader} {es : List Event}

theorem payloadless_handle (h : s.handler.Payloadless) : s.handle.1.handler.Payloadless := by
  unfold handle
  split
  · split
    · exact h
    · trivial
  · next item _ =>
    unfold dispatch
    cases haction : item.msg.action with
    | createChannel => trivial
    | approval =>
      dsimp only
      split_ifs
      · exact h
      · simp [SendHandler.Payloadless, haction]
    | shutdownChannel => simp [SendHandler.Payloadless]
    | none =>
      dsimp only
      split <;> trivial
  · next item fd k hh =>
    rw [hh] at h
    unfold insert
    split <;> exact h
  · exact h
  · trivial
  · trivial

theorem payloadless_step (h : s.handler.Payloadless) (e : Event) : (s.step e).1.handler.Payloadless := by
  cases e with
  | handle => exact payloadless_handle h
  | dial fd =>
    simp only [step, dial]
    split
    · split_ifs with happroves
      · cases fd with
        | none => simp [SendHandler.Payloadless, downgrade, happroves.1]
        | some fd =>
          dsimp only
          split_ifs
          · simp [SendHandler.Payloadless, happroves.1]
          · exact h
      · exact h
    · exact h
  | send taken =>
    simp only [step, send]
    repeat' split
    all_goals first
      | exact h
      | trivial
  | _ =>
    simp only [step, receive, read]
    repeat' split
    all_goals exact h

theorem payloadless_run (es : List Event) : (machine.run es).handler.Payloadless :=
  Machine.invariant (M := machine) (P := fun _ s => s.handler.Payloadless) trivial
    (fun _ e h => payloadless_step h e) es

theorem reads_of_ne {k' : ℕ} {data : Bytes} {due : Bool} (h : k' ≠ k) :
    reads k s (.receive k' data due) = [] := by
  unfold reads
  split
  · next heq _ =>
    cases heq
    exact if_neg fun hand => h hand.1
  · rfl

theorem reads_self {data : Bytes} {due : Bool} (hr : s.readers k = some r) :
    reads k s (.receive k data due) =
      if r.stage = .receiving ∧ data.take Multiplexer.maxPayloadSize ≠ [] then
        [data.take Multiplexer.maxPayloadSize]
      else [] := by
  simp only [reads, hr, true_and]

/-- What a step queues for the return path: payload that a reader has just taken from guacd, or no
payload. -/
theorem reading_step (h : s.handler.Payloadless) (e : Event) :
    ((∀ k, reads k s e = []) ∧ ∀ c, payloadsOn c (s.enqueued e) = []) ∨
      ∃ k r data, s.readers k = some r ∧ data.length ≤ Multiplexer.maxPayloadSize ∧
        s.enqueued e = [{ channel := r.channel, action := .none, payload := data }] ∧
        ∀ k', reads k' s e = if k = k' then [data] else [] := by
  cases e with
  | handle =>
    refine .inl ⟨fun _ => rfl, fun c => ?_⟩
    simp only [enqueued]
    split
    · next msg hmsg =>
      rw [hmsg] at h
      rw [payloadsOn_singleton, if_neg fun hnone => h hnone.2]
    · rfl
  | receive k data due =>
    cases hr : s.readers k with
    | none =>
      refine .inl ⟨fun k' => ?_, fun c => by simp [enqueued, hr]⟩
      by_cases hk : k = k'
      · simp [reads, ← hk, hr]
      · exact reads_of_ne hk
    | some r =>
      by_cases htakes : r.stage = .receiving ∧ data.take Multiplexer.maxPayloadSize ≠ []
      · refine .inr ⟨k, r, _, hr, List.length_take_le _ data, ?_, fun k' => ?_⟩
        · simp only [enqueued, hr, if_pos htakes]
        · by_cases hk : k = k'
          · rw [← hk, reads_self hr, if_pos htakes, if_pos rfl]
          · rw [reads_of_ne hk, if_neg hk]
      · have hnil : s.enqueued (.receive k data due) = [] := by simp only [enqueued, hr, if_neg htakes]
        refine .inl ⟨fun k' => ?_, fun c => by rw [hnil, payloadsOn_nil]⟩
        by_cases hk : k = k'
        · rw [← hk, reads_self hr, if_neg htakes]
        · exact reads_of_ne hk
  | read k =>
    refine .inl ⟨fun _ => rfl, fun c => payloadsOn_eq_nil fun msg hmsg => ?_⟩
    simp only [enqueued] at hmsg
    repeat' split at hmsg
    all_goals simp_all
  | _ => exact .inl ⟨fun _ => rfl, fun _ => rfl⟩

/-- A reader that runs has been running before, or its connection is opened now. -/
theorem reader_step (e : Event) (hr : (s.step e).1.readers k = some r) :
    (∃ r₀, s.readers k = some r₀ ∧ r₀.channel = r.channel) ∨
      ∃ item, .opened k item ∈ routes (s.step e).2 ∧ item.msg.channel = r.channel := by
  have hsame : ∀ {k₀ r₀ r₁}, s.readers k₀ = some r₀ → r₁.channel = r₀.channel →
      Function.update s.readers k₀ (some r₁) k = some r →
      ∃ r₀, s.readers k = some r₀ ∧ r₀.channel = r.channel := by
    intro k₀ r₀ r₁ hr₀ hchannel hk
    obtain ⟨rfl, rfl⟩ | ⟨-, hk⟩ := Table.of_update hk
    · exact ⟨r₀, hr₀, hchannel.symm⟩
    · exact ⟨r, hk, rfl⟩
  have hturn := turn s e
  generalize (s.step e).1 = s' at hr hturn
  generalize s.enqueued e = msgs at hturn
  cases hturn with
  | other _ hreaders => exact .inl ⟨r, hreaders ▸ hr, rfl⟩
  | shut _ _ _ _ hreaders => exact .inl ⟨r, hreaders ▸ hr, rfl⟩
  | relay _ _ _ hreaders => exact .inl ⟨r, hreaders ▸ hr, rfl⟩
  | fail _ _ _ _ hreaders => exact .inl ⟨r, hreaders ▸ hr, rfl⟩
  | bind hevent item fd k₀ hhandler hunbound _ hreaders =>
    rw [hreaders] at hr
    obtain ⟨rfl, rfl⟩ | ⟨-, hr⟩ := Table.of_update hr
    · refine .inr ⟨item, ?_, rfl⟩
      subst hevent
      simp [step, handle, hhandler, insert, hunbound, routes, Effect.routed]
    · exact .inl ⟨r, hr, rfl⟩
  | work k₀ r₀ r₁ hreader _ hreaders hchannel =>
    rw [hreaders] at hr
    exact .inl (hsame hreader hchannel.2 hr)
  | leave k₀ r₀ hreader _ _ hreaders =>
    rw [hreaders] at hr
    exact .inl (hsame hreader (by rfl) hr)
  | announce k₀ r₀ hreader _ _ hreaders =>
    rw [hreaders] at hr
    exact .inl (hsame hreader (by rfl) hr)
  | close k₀ _ r₀ hreader _ _ hreaders =>
    rw [hreaders] at hr
    exact .inl ⟨r, (Table.of_update_none hr).2, rfl⟩

theorem opened_of_reader (es : List Event) (hr : (machine.run es).readers k = some r) :
    ∃ item, .opened k item ∈ routed es ∧ item.msg.channel = r.channel := by
  induction es using List.reverseRecOn generalizing r with
  | nil => cases hr
  | append_singleton es e ih =>
    rw [Machine.run_snoc] at hr
    rw [routed_snoc]
    rcases reader_step e hr with ⟨r₀, hr₀, hchannel⟩ | ⟨item, hitem, hchannel⟩
    · obtain ⟨item, hitem, hc⟩ := ih hr₀
      exact ⟨item, List.mem_append_left _ hitem, hc.trans hchannel⟩
    · exact ⟨item, List.mem_append_right _ hitem, hchannel⟩

/-- Payload for the return path comes from connections that have been opened on the channel. -/
theorem opened_of_payload (es : List Event)
    (h : machine.collect (fun s e => payloadsOn c (s.enqueued e)) es ≠ []) :
    ∃ k item, .opened k item ∈ routed es ∧ item.msg.channel = c := by
  induction es using List.reverseRecOn with
  | nil => exact absurd rfl h
  | append_singleton es e ih =>
    rw [Machine.collect_snoc] at h
    rw [routed_snoc]
    by_cases hbefore : machine.collect (fun s e => payloadsOn c (s.enqueued e)) es = []
    · rw [hbefore, List.nil_append] at h
      rcases reading_step (payloadless_run es) e with ⟨-, hnil⟩ | ⟨k, r, data, hr, -, henqueued, -⟩
      · exact absurd (hnil c) h
      · rw [henqueued, payloadsOn_singleton] at h
        obtain ⟨item, hitem, hchannel⟩ := opened_of_reader es hr
        refine ⟨k, item, List.mem_append_left _ hitem, hchannel.trans ?_⟩
        by_contra hc
        exact h (if_neg fun hboth => hc hboth.1)
    · obtain ⟨k, item, hitem, hchannel⟩ := ih hbefore
      exact ⟨k, item, List.mem_append_left _ hitem, hchannel⟩

/-- If one connection is opened on a channel, and on no other, all the payload on the channel is
what its reader takes from guacd. -/
theorem payload_of_opened (es : List Event)
    (hone : ∀ k' item, .opened k' item ∈ routed es → (item.msg.channel = c ↔ k' = k)) :
    machine.collect (fun s e => payloadsOn c (s.enqueued e)) es = machine.collect (reads k) es := by
  induction es using List.reverseRecOn with
  | nil => rfl
  | append_singleton es e ih =>
    have hbefore : ∀ k' item, .opened k' item ∈ routed es → (item.msg.channel = c ↔ k' = k) := by
      intro k' item hitem
      refine hone k' item ?_
      rw [routed_snoc]
      exact List.mem_append_left _ hitem
    rw [Machine.collect_snoc, Machine.collect_snoc, ih hbefore]
    congr 1
    rcases reading_step (payloadless_run es) e with ⟨hreads, hnil⟩ | ⟨k', r, data, hr, -, henqueued, hreads⟩
    · rw [hnil c, hreads k]
    · obtain ⟨item, hitem, hchannel⟩ := opened_of_reader es hr
      have hiff := hbefore k' item hitem
      rw [hchannel] at hiff
      rw [henqueued, payloadsOn_singleton, hreads k]
      simp only [hiff, and_true]

end

end Gcdbroker

end GuacamoleDiode
