import GuacamoleDiode.Guard.Filter
import GuacamoleDiode.Guard.Soundness
import GuacamoleDiode.Parser.DeniedRanges
import GuacamoleDiode.System.Keepers

/-!
# What guacd receives

The payload of one session on its way through the whole system: the reader of the session queues
it, the guard cleanses it with the parser that the request of the session has started, and
gcdbroker writes it to the connection of the session. Nothing is lost in between as long as the
channel stays open, and nothing comes behind a gap.

## Main definitions

- `said`: the payload that the reader of a session queues
- `written`: the payload that gcdbroker writes to a connection
- `Streamed`: how much of the payload has come how far

## Main results

- `receives_said`: a connection receives a beginning of the cleansed payload of its session
- `receives_complying`: what it receives keeps to the policy
- `receives_all`: it receives all of it if the session and its channel are still there
-/

namespace GuacamoleDiode

open Wire

/-- The payload that a step of gmlbroker queues for a session, as far as a datagram holds it. -/
def Gmlbroker.utterance (n : ℕ) (s : Gmlbroker) (e : Gmlbroker.Event) : List Bytes :=
  match s.queued e with
  | some msg =>
    if e = .perform n ∧ msg.action = .none then [msg.payload.take Multiplexer.maxPayloadSize] else []
  | none => []

namespace Diode

open ForwardPath (Frame frameOf frameOf_fst frameOf_append linkFrames heard trim heard_serialize approves_trim)
open Gcdbroker (Approves Routed Ledger Move IsAck bridgeOf numbered)
open GuardOpcodeParser (filter)

/-- The payload that the reader of a session queues in a run. -/
def said (ids : ℕ → ℕ → Bytes) (es : List Event) (n : ℕ) : List Bytes :=
  (Gmlbroker.machine ids).collect (Gmlbroker.utterance n) (gmlEvents ids es)

/-- The payload of a session among messages. -/
def speech (n : ℕ) (fs : List Frame) : List Bytes :=
  fs.filterMap fun f => if f.2 = n ∧ f.1.action = .none then some f.1.payload else none

/-- The messages that the guard has not received, as it will receive them. -/
def Trail.coming (t : Trail) : List Frame := t.asked.map fun f => (trim f.1, f.2)

/-- The messages that the guard has sent. -/
def Trail.sent (t : Trail) (ms : List BridgeMessage) : List Frame :=
  (numbered ms).map (frameOf t.authors) ++ linkFrames t.toGcd

/-- The payload of the bridge that has been written to a connection. -/
def written (k : ℕ) (out : List Routed) : List Bytes :=
  out.filterMap fun
    | .wrote k' ⟨.bridge _, _⟩ data => if k' = k then some data else none
    | _ => none

section

variable {n : ℕ} {f : Frame} {fs fs' : List Frame}

theorem speech_append : speech n (fs ++ fs') = speech n fs ++ speech n fs' := List.filterMap_append

theorem speech_singleton (h : f.1.action = .none) : speech f.2 [f] = [f.1.payload] := by
  simp [speech, h]

theorem speech_of_ne (h : f.2 ≠ n) : speech n [f] = [] := by
  simp [speech, h]

theorem speech_of_action (h : f.1.action ≠ .none) : speech n [f] = [] := by
  simp [speech, h]

/-- Messages without payload say nothing. -/
theorem speech_eq_nil (h : ∀ f ∈ fs, f.1.action ≠ .none) : speech n fs = [] := by
  rw [speech, List.filterMap_eq_nil_iff]
  intro f hf
  simp [h f hf]

theorem mem_of_speech {data : Bytes} (h : data ∈ speech n fs) :
    ∃ f ∈ fs, f.2 = n ∧ f.1.action = .none := by
  obtain ⟨f, hf, heq⟩ := List.mem_filterMap.mp h
  split_ifs at heq with hcond
  exact ⟨f, hf, hcond⟩

end

-- ════════════════════════════════════════════════════════════════════════
-- How far the payload has come
-- ════════════════════════════════════════════════════════════════════════

/-- The guard has cleansed a beginning of what it has heard of a session: all of it, as long as it
serves the session. -/
def Heard (g : Guard) (keeper : UInt16 → Option ℕ) (coming sent said : List Bytes) (n : ℕ) : Prop :=
  ∃ heard passed, said = heard ++ coming ∧ passed <+: heard ∧ sent.flatten = (filter passed).1.flatten ∧
    ∀ c ∈ g.approved, keeper c = some n → passed = heard ∧ (filter heard).2 = g.parsers c

section

variable {g g' : Guard} {keeper keeper' : UInt16 → Option ℕ} {coming sent said pieces : List Bytes} {n : ℕ}

/-- A session of which the guard does not serve anything any more. -/
theorem Heard.drop (h : Heard g keeper (pieces ++ coming) sent said n)
    (hsame : ∀ c ∈ g'.approved, keeper' c = some n →
      pieces = [] ∧ c ∈ g.approved ∧ keeper c = some n ∧ g'.parsers c = g.parsers c) :
    Heard g' keeper' coming sent said n := by
  obtain ⟨heard, passed, hsaid, hpassed, hsent, hlive⟩ := h
  refine ⟨heard ++ pieces, passed, by rw [hsaid, List.append_assoc],
    hpassed.trans (List.prefix_append _ _), hsent, fun c hc hn => ?_⟩
  obtain ⟨rfl, hc', hn', hparsers⟩ := hsame c hc hn
  rw [List.append_nil, hparsers]
  exact hlive c hc' hn'

/-- Nothing of the session arrives. -/
theorem Heard.keep (h : Heard g keeper coming sent said n)
    (hsame : ∀ c ∈ g'.approved, keeper' c = some n →
      c ∈ g.approved ∧ keeper c = some n ∧ g'.parsers c = g.parsers c) :
    Heard g' keeper' coming sent said n := by
  have hnothing : Heard g keeper ([] ++ coming) sent said n := h
  exact hnothing.drop fun c hc hn => ⟨rfl, hsame c hc hn⟩

/-- A session that has not said anything. -/
theorem Heard.silent (h : Heard g keeper coming sent said n) (hsaid : said = []) :
    sent.flatten = [] ∧ coming = [] := by
  obtain ⟨heard, passed, hsplit, hpassed, hsent, -⟩ := h
  rw [hsaid] at hsplit
  obtain ⟨rfl, rfl⟩ := List.append_eq_nil_iff.mp hsplit.symm
  rw [List.prefix_nil.mp hpassed] at hsent
  exact ⟨hsent, rfl⟩

/-- A session that the guard starts to serve. -/
theorem Heard.start (h : Heard g keeper coming sent said n) (hsaid : said = [])
    (hfresh : ∀ c ∈ g'.approved, keeper' c = some n → g'.parsers c = some GuardOpcodeParser.fresh) :
    Heard g' keeper' coming sent said n := by
  obtain ⟨hsent, hcoming⟩ := h.silent hsaid
  refine ⟨[], [], by rw [hsaid, hcoming, List.append_nil], List.prefix_rfl, hsent, fun c hc hn => ?_⟩
  exact ⟨rfl, (hfresh c hc hn).symm⟩

/-- Another piece through the filter. -/
theorem filter_snoc {data payload : Bytes} {p p' : OpcodeParser GuardMembers}
    (h : (filter pieces).2 = some p) (hcleanse : p.cleanse GuardOpcodeParser.hooks data = some (payload, p')) :
    filter (pieces ++ [data]) = ((filter pieces).1 ++ [payload], some p') := by
  rw [filter, OpcodeParser.cleanseAll_append_of_some h, OpcodeParser.cleanseAll_cons_some hcleanse]
  rfl

/-- Payload of the session that the guard serves. -/
theorem Heard.relay {c : UInt16} {data payload : Bytes} {sent' : List Bytes}
    {parser parser' : OpcodeParser GuardMembers} (h : Heard g keeper (data :: coming) sent said n)
    (hc : c ∈ g.approved) (hn : keeper c = some n) (hparser : g.parsers c = some parser)
    (hcleanse : parser.cleanse GuardOpcodeParser.hooks data = some (payload, parser'))
    (hsent : sent'.flatten = sent.flatten ++ payload)
    (hnext : ∀ d ∈ g'.approved, keeper' d = some n → g'.parsers d = some parser') :
    Heard g' keeper' coming sent' said n := by
  obtain ⟨heard, passed, hsaid, -, hflatten, hlive⟩ := h
  obtain ⟨rfl, hstate⟩ := hlive c hc hn
  rw [hparser] at hstate
  have hall := filter_snoc hstate hcleanse
  refine ⟨passed ++ [data], passed ++ [data], by rw [hsaid, List.append_assoc]; rfl, List.prefix_rfl, ?_,
    fun d hd hn' => ⟨rfl, ?_⟩⟩
  · rw [hsent, hflatten, hall]
    simp
  · rw [hall, hnext d hd hn']

/-- The reader of the session goes on. -/
theorem Heard.say (h : Heard g keeper coming sent said n) (pieces : List Bytes) :
    Heard g keeper (coming ++ pieces) sent (said ++ pieces) n := by
  obtain ⟨heard, passed, hsaid, hpassed, hsent, hlive⟩ := h
  exact ⟨heard, passed, by rw [hsaid, List.append_assoc], hpassed, hsent, hlive⟩

/-- The filter only adds to what it has passed on. -/
theorem filter_begins {pieces pieces' : List Bytes} (h : pieces <+: pieces') :
    (filter pieces).1.flatten <+: (filter pieces').1.flatten := by
  obtain ⟨rest, rfl⟩ := h
  cases hstate : (filter pieces).2 with
  | none =>
    have hall : filter (pieces ++ rest) = filter pieces := OpcodeParser.cleanseAll_append_of_none hstate
    rw [hall]
  | some p =>
    have hall : filter (pieces ++ rest) = _ := OpcodeParser.cleanseAll_append_of_some hstate
    rw [hall, List.flatten_append]
    exact List.prefix_append _ _

theorem Heard.begins (h : Heard g keeper coming sent said n) :
    sent.flatten <+: (filter said).1.flatten := by
  obtain ⟨heard, passed, rfl, hpassed, hsent, -⟩ := h
  rw [hsent]
  exact filter_begins (hpassed.trans (List.prefix_append _ _))

/-- What gcdbroker has written to a connection is a beginning of what the guard has sent of its
session. While the connection is bound, the rest is on its way. -/
structure Reaches (bound : Prop) (written sent answered : List Bytes) : Prop where
  begins : written.flatten <+: sent.flatten
  rest : bound → sent.flatten = written.flatten ++ answered.flatten

end

/-- How far the payload of the sessions has come. -/
structure Streamed (s : Diode) (t : Trail) (ms : List BridgeMessage) (out : List Routed) (user : ℕ → ℕ)
    (keeper : UInt16 → Option ℕ) (said : ℕ → List Bytes) : Prop where
  serves : Keeper s t out user keeper
  /-- a session speaks on its channel once it has got its connection -/
  speaks : ∀ n, said n ≠ [] → ∃ c, n ∈ (opens out c).map user
  heard : ∀ n, Heard s.guard keeper (speech n t.coming) (speech n (t.sent ms)) (said n) n
  reaches : ∀ k item, .opened k item ∈ out → Reaches (s.gcd.router.bound item.msg.channel = some k)
    (written k out) (speech (user k) (t.sent ms)) (speech (user k) (t.answered s.gcd))

section

variable {s : Diode} {t : Trail} {ms : List BridgeMessage} {out : List Routed} {user : ℕ → ℕ}
  {reg : List (ℕ × Bytes)} {keeper : UInt16 → Option ℕ} {said : ℕ → List Bytes} {c : UInt16}
  {msg : BridgeMessage} {n m : ℕ}

theorem trim_trim (msg : BridgeMessage) : trim (trim msg) = trim msg := by
  simp [trim, List.take_take]

/-- What is coming to the guard is what was coming before, and what is queued. -/
theorem coming_stepGml (t : Trail) (s : Gmlbroker) (e : Gmlbroker.Event) :
    (t.stepGml s e).coming =
      t.coming ++ (s.queued e).toList.map fun msg => (trim msg, speaker e) := by
  rw [Trail.coming, asked_stepGml, Trail.coming, Trail.asked, ← t.sending_append_unsent e]
  simp only [List.map_append, List.map_map, Function.comp_def, trim_trim, List.append_assoc]

theorem says_eq (n : ℕ) (s : Gmlbroker) (e : Gmlbroker.Event) :
    Gmlbroker.utterance n s e = speech n ((s.queued e).toList.map fun msg => (trim msg, speaker e)) := by
  cases hq : s.queued e with
  | none => simp [Gmlbroker.utterance, hq, speech]
  | some msg =>
    obtain ⟨m, session, pending, rfl, -, -⟩ := Gmlbroker.exists_enqueue_of_queued hq
    by_cases hmn : m = n
    · subst hmn
      by_cases haction : msg.action = .none <;> simp [Gmlbroker.utterance, hq, speech, speaker, trim, haction]
    · simp [Gmlbroker.utterance, hq, speech, speaker, hmn]

theorem Streamed.stepGml (hst : Streamed s t ms out user keeper said) (h : Tenanted s t ms out user reg)
    (hs : Honest s) (hspeaks : ∀ n session, s.gml.sessions n = some session → session.Speaks)
    (ids : ℕ → ℕ → Bytes) (e : Gmlbroker.Event) :
    Streamed (s.stepGml ids e) (t.stepGml s.gml e) ms out user keeper
      fun n => said n ++ Gmlbroker.utterance n s.gml e where
  serves := hst.serves.stepGml hs ids e
  speaks n hn := by
    by_cases hold : said n = []
    · have hnew : Gmlbroker.utterance n s.gml e ≠ [] := by
        intro hnil
        exact hn (by rw [hold, hnil, List.append_nil])
      unfold Gmlbroker.utterance at hnew
      split at hnew
      · next msg hq =>
        split_ifs at hnew with hmine
        · obtain ⟨m, session, pending, he, hm, hpending⟩ := Gmlbroker.exists_enqueue_of_queued hq
          obtain rfl : n = m := Gmlbroker.Event.perform.inj (hmine.1.symm.trans he)
          have happroved := (hspeaks n session hm).payload msg (hpending ▸ List.mem_cons_self) hmine.2
          exact ⟨session.channel, h.approved n session hm happroved⟩
        · exact absurd rfl hnew
      · exact absurd rfl hnew
    · exact hst.speaks n hold
  heard n := by
    rw [coming_stepGml, speech_append, ← says_eq]
    exact (hst.heard n).say _
  reaches := hst.reaches

/-- What the guard receives has been cut by its buffer. -/
theorem trim_received {g : Guard} {e : Guard.Event} (h : g.received e = some msg) : trim msg = msg := by
  cases e with
  | datagram data =>
    simp only [Guard.received] at h
    split_ifs at h
    exact trim_of_length (Multiplexer.serialize_of_tryCast h).2
  | _ => cases h

/-- What the guard receives was the oldest message that was coming. -/
theorem coming_stepGuard (h : Tenanted s t ms out user reg) {e : Guard.Event}
    (happlies : s.applies (.guard e) = true) : t.coming =
      (s.guard.received e).toList.map (fun msg => (msg, t.author e)) ++
        (t.stepGuard s.guard e).coming := by
  rw [Trail.coming, asked_stepGuard h.toGuard happlies, List.map_append, List.map_map]
  cases hreceived : s.guard.received e with
  | none => rfl
  | some msg =>
    rw [Option.toList_some, List.map_singleton, List.map_singleton, Function.comp_apply,
      trim_received hreceived]
    rfl

theorem sent_stepGuard {g : Guard} {e : Guard.Event} {msgs : List BridgeMessage}
    (hout : (g.step e).2 = msgs.map Multiplexer.serialize) : (t.stepGuard g e).sent ms =
      t.sent ms ++ msgs.map fun msg => (trim msg, t.author e) := by
  have hframes := linkFrames_serialized (msgs.map fun m => (m, t.author e))
  simp only [List.map_map, Function.comp_def] at hframes
  simp only [Trail.sent, Trail.stepGuard, linkFrames_append, hout, List.map_map, Function.comp_def,
    hframes, List.append_assoc]

/-- The parser only takes away. -/
theorem length_le_of_cleanse {p p' : OpcodeParser GuardMembers} {data payload : Bytes}
    (h : p.cleanse GuardOpcodeParser.hooks data = some (payload, p')) : payload.length ≤ data.length := by
  by_cases hcorrupted : (p.parse GuardOpcodeParser.hooks data).1 = .streamCorrupted
  · cases (OpcodeParser.cleanse_of_corrupted hcorrupted).symm.trans h
  · by_cases hdenied : (p.parse GuardOpcodeParser.hooks data).1 = .deniedData
    · cases (OpcodeParser.cleanse_of_denied hdenied).symm.trans h
      exact OpcodeParser.length_excised_le _ p data
    · cases (OpcodeParser.cleanse_of_clean hcorrupted hdenied).symm.trans h
      exact le_rfl

theorem speech_controls {msgs : List BridgeMessage} (h : ∀ m ∈ msgs, Controls m) (a : ℕ) :
    speech n (msgs.map fun m => (trim m, a)) = [] := by
  refine speech_eq_nil fun f hf => ?_
  obtain ⟨m, hm, rfl⟩ := List.mem_map.mp hf
  exact (h m hm).1

theorem Reaches.grow {bound : Prop} {written sent answered : List Bytes}
    (h : Reaches bound written sent answered) (pieces : List Bytes) :
    Reaches bound written (sent ++ pieces) (answered ++ pieces) where
  begins := by
    rw [List.flatten_append]
    exact h.begins.trans (List.prefix_append _ _)
  rest hbound := by
    rw [List.flatten_append, List.flatten_append, h.rest hbound, List.append_assoc]

/-- A session has one channel. -/
theorem Keeper.channel_unique (hk : Keeper s t out user keeper) (h : Tenanted s t ms out user reg)
    {d : UInt16} (hn : keeper c = some n) (hknown : n ∈ (t.lease s.gcd out user d).known) : c = d := by
  obtain ⟨session, hs, hc, -⟩ := hk.spent c n hn
  obtain ⟨session', hs', hd, -⟩ := h.spent d n hknown
  cases hs.symm.trans hs'
  exact hc.symm.trans hd

/-- Payload that the guard receives belongs to a session that has got its connection. -/
theorem Tenanted.opened_of_received (h : Tenanted s t ms out user reg) {e : Guard.Event}
    (happlies : s.applies (.guard e) = true) (hreceived : s.guard.received e = some msg)
    (haction : msg.action = .none) : t.author e ∈ (opens out msg.channel).map user := by
  have hasked := asked_stepGuard h.toGuard happlies
  rw [hreceived] at hasked
  refine h.opened_of_payload (f := (msg, t.author e)) (List.mem_append_right _ ?_) haction
  rw [hasked]
  exact List.mem_append_left _ (by simp)

/-- A session that is asking for its channel has not said anything. -/
theorem Streamed.silent_of_request (hst : Streamed s t ms out user keeper said)
    (h : Tenanted s t ms out user reg) (hmem : .request n ∈ (t.lease s.gcd out user c).queue) :
    said n = [] := by
  by_contra hsaid
  obtain ⟨d, hopened⟩ := hst.speaks _ hsaid
  obtain ⟨session, hs, hd, -⟩ := h.channel_of_opened hopened
  obtain ⟨session', hs', hc, -⟩ := h.spent c _ (Lease.mem_known_of_mem_queue hmem)
  cases hs.symm.trans hs'
  obtain rfl : d = c := hd.symm.trans hc
  exact lt_irrefl _ ((h.lease d).opened _ hopened _ hmem)

/-- A CREATE that the guard receives is the request of its author. -/
theorem Tenanted.request_of_received (h : Tenanted s t ms out user reg) {e : Guard.Event}
    (happlies : s.applies (.guard e) = true) (hreceived : s.guard.received e = some msg)
    (hcreates : Creates msg) : .request (t.author e) ∈ (t.lease s.gcd out user msg.channel).queue := by
  have hasked := asked_stepGuard h.toGuard happlies
  rw [hreceived] at hasked
  have haction : msg.action = .createChannel := hcreates
  refine List.mem_append_right _ (List.mem_filterMap.mpr ⟨(msg, t.author e), ?_, ?_⟩)
  · rw [hasked]
    exact List.mem_append_left _ (by simp)
  · exact letter_request rfl (by simp [haction]) hcreates

/-- What the guard has heard of a session, and what it does with it. -/
theorem Streamed.heard_stepGuard (hst : Streamed s t ms out user keeper said)
    (h : Tenanted s t ms out user reg) {e : Guard.Event} (happlies : s.applies (.guard e) = true)
    {msgs : List BridgeMessage} (hout : (s.guard.step e).2 = msgs.map Multiplexer.serialize)
    (hhandled : Handled s.guard e (s.guard.step e).1 msgs) :
    ∃ keeper', Keeper (s.stepGuard e) (t.stepGuard s.guard e) out user keeper' ∧
      ∀ n, Heard (s.guard.step e).1 keeper' (speech n (t.stepGuard s.guard e).coming)
        (speech n (t.sent ms) ++ speech n (msgs.map fun msg => (trim msg, t.author e))) (said n) n := by
  have hheard := hst.heard
  rw [coming_stepGuard h happlies] at hheard
  have hasked := asked_stepGuard h.toGuard happlies
  cases hhandled with
  | idle _ hreceived hcontrols hsame =>
    refine ⟨keeper, hst.serves.keep h happlies hout (fun c hc => (hsame c hc).1) fun c l hl => ?_,
      fun n => ?_⟩
    · rw [letters_controls hcontrols] at hl
      cases hl
    · rw [speech_controls hcontrols, List.append_nil]
      have hn := hheard n
      rw [hreceived, Option.toList_none, List.map_nil, List.nil_append] at hn
      exact hn.keep fun c hc hn' => ⟨(hsame c hc).1, hn', (hsame c hc).2⟩
  | closed _ msg hreceived hcontrols hclosed hsame =>
    refine ⟨keeper, hst.serves.keep h happlies hout (fun c hc => (hsame c hc).1) fun c l hl => ?_,
      fun n => ?_⟩
    · rw [letters_controls hcontrols] at hl
      cases hl
    · rw [speech_controls hcontrols, List.append_nil]
      have hn := hheard n
      rw [hreceived, Option.toList_some, List.map_singleton, speech_append] at hn
      refine hn.drop fun c hc hn' => ⟨?_, (hsame c hc).1, hn', (hsame c hc).2⟩
      -- payload on this channel would be that of the session that the guard has just given up
      by_contra hspeech
      obtain ⟨data, hdata⟩ := List.exists_mem_of_ne_nil _ hspeech
      obtain ⟨f, hf, hauthor, haction⟩ := mem_of_speech hdata
      obtain rfl := List.mem_singleton.mp hf
      obtain rfl : t.author e = n := hauthor
      have hopened := h.opened_of_received happlies hreceived haction
      exact hclosed (hst.serves.channel_unique h hn' (List.mem_append_left _ hopened) ▸ hc)
  | created msg hreceived hcreates hfresh hsame =>
    have hmem := h.request_of_received happlies hreceived hcreates
    have hsilent := hst.silent_of_request h hmem
    have haction : msg.action = .createChannel := hcreates
    refine ⟨Function.update keeper msg.channel (some (t.author e)),
      hst.serves.create h happlies hout hreceived hcreates fun c hc hne => (hsame c hc hne).1,
      fun n => ?_⟩
    have hnil : speech n ([msg, approvalOf msg].map fun m => (trim m, t.author e)) = [] := by
      simp [speech, trim, haction, approvalOf]
    have hn := hheard n
    rw [hreceived, Option.toList_some, List.map_singleton, speech_append,
      speech_of_action (by simp [haction]), List.nil_append] at hn
    rw [hnil, List.append_nil]
    by_cases hauthor : t.author e = n
    · subst hauthor
      refine hn.start hsilent fun c hc hkeeper => ?_
      by_cases hchannel : c = msg.channel
      · rw [hchannel, hfresh]
      · rw [Function.update_of_ne hchannel] at hkeeper
        exact absurd (hst.serves.channel_unique h hkeeper (Lease.mem_known_of_mem_queue hmem)) hchannel
    · refine hn.keep fun c hc hkeeper => ?_
      by_cases hchannel : c = msg.channel
      · rw [hchannel, Function.update_self] at hkeeper
        exact absurd (Option.some.inj hkeeper) hauthor
      · rw [Function.update_of_ne hchannel] at hkeeper
        exact ⟨(hsame c hc hchannel).1, hkeeper, (hsame c hc hchannel).2⟩
  | relayed _ msg payload parser parser' hreceived haction happroved hcleared hbefore hcleanse hparsers
      hsent =>
    have hopened := h.opened_of_received happlies hreceived haction
    have hasked := asked_stepGuard h.toGuard happlies
    rw [hreceived, Option.toList_some, List.map_singleton, List.singleton_append] at hasked
    have hkeeper := hst.serves.of_payload h hasked haction hcleared
    refine ⟨keeper, hst.serves.keep h happlies hout (fun c hc => happroved ▸ hc) fun c l hl => ?_,
      fun n => ?_⟩
    · -- what is passed on is payload of the session that the guard serves
      obtain ⟨f, hf, hletter⟩ := List.mem_filterMap.mp hl
      obtain ⟨m, hm, rfl⟩ := List.mem_map.mp hf
      rcases hsent with rfl | ⟨rfl, -⟩
      · obtain rfl := List.mem_singleton.mp hm
        by_cases hchannel : msg.channel = c
        · rw [letter_payload hchannel haction] at hletter
          obtain rfl := Option.some.inj hletter
          exact ⟨t.author e, hchannel ▸ hkeeper, le_rfl⟩
        · cases (letter_of_ne hchannel).symm.trans hletter
      · cases hm
    · have hn := hheard n
      rw [hreceived, Option.toList_some, List.map_singleton] at hn
      by_cases hauthor : t.author e = n
      · subst hauthor
        rw [speech_append, speech_singleton (f := (msg, t.author e)) haction] at hn
        refine hn.relay hcleared hkeeper hbefore hcleanse ?_ fun d hd hd' => ?_
        · rw [List.flatten_append]
          congr 1
          have hfits : payload.length ≤ Multiplexer.maxPayloadSize := by
            refine (length_le_of_cleanse hcleanse).trans ?_
            rw [← trim_received hreceived]
            exact List.length_take_le _ _
          rcases hsent with rfl | ⟨rfl, rfl⟩
          · simp [speech, trim, haction, List.take_of_length_le hfits]
          · rfl
        · rw [hparsers, hst.serves.channel_unique h hd' (List.mem_append_left _ hopened),
            Function.update_self]
      · rw [speech_append, speech_of_ne hauthor, List.nil_append] at hn
        have hnil : speech n (msgs.map fun m => (trim m, t.author e)) = [] := by
          rw [speech, List.filterMap_eq_nil_iff]
          intro f hf
          obtain ⟨m, -, rfl⟩ := List.mem_map.mp hf
          simp [hauthor]
        rw [hnil, List.append_nil]
        refine hn.keep fun c hc hc' => ⟨happroved ▸ hc, hc', ?_⟩
        rw [hparsers, Function.update_of_ne]
        rintro rfl
        exact hauthor (Option.some.inj (hkeeper.symm.trans hc'))

theorem Streamed.stepGuard (hst : Streamed s t ms out user keeper said)
    (h : Tenanted s t ms out user reg) (hg : Guard.Consistent s.guard) (hs : Honest s) {e : Guard.Event}
    (happlies : s.applies (.guard e) = true) :
    ∃ keeper', Streamed (s.stepGuard e) (t.stepGuard s.guard e) ms out user keeper' said := by
  obtain ⟨msgs, hout, hhandled⟩ := handled_step hg e fun msg hmsg => sound_received hs happlies hmsg
  obtain ⟨keeper', hserves, hheard⟩ := hst.heard_stepGuard h happlies hout hhandled
  refine ⟨keeper', hserves, hst.speaks, fun n => ?_, fun k item hk => ?_⟩
  · rw [sent_stepGuard hout, speech_append]
    exact hheard n
  · have hanswered : (t.stepGuard s.guard e).answered (s.stepGuard e).gcd =
        t.answered s.gcd ++ msgs.map fun m => (trim m, t.author e) := answered_stepGuard hout s.gcd
    rw [sent_stepGuard hout, hanswered, speech_append, speech_append]
    exact (hst.reaches k item hk).grow _

end

-- ════════════════════════════════════════════════════════════════════════
-- gcdbroker moves
-- ════════════════════════════════════════════════════════════════════════

section

variable {refused : Prop} {r r' : Gcdbroker.Router} {ms : List BridgeMessage} {out out' : List Routed}
  {pushed : List Gcdbroker.Item} {item front : Gcdbroker.Item} {rest : List Gcdbroker.Item}
  {F : Gcdbroker.Item → Frame} {sent link written₀ : List Bytes} {bound bound' : Prop} {k n : ℕ}

theorem written_append : written k (out ++ out') = written k out ++ written k out' :=
  List.filterMap_append

theorem written_quiet (h : ∀ k item data, .wrote k item data ∉ out') :
    written k (out ++ out') = written k out := by
  have hnil : written k out' = [] := by
    rw [written, List.filterMap_eq_nil_iff]
    intro routed hmem
    cases routed with
    | opened => rfl
    | wrote k' item data => exact absurd hmem (h k' item data)
  rw [written_append, hnil, List.append_nil]

/-- What the front of the queue says. -/
theorem speech_front : speech n ((bridgeOf (front :: rest)).map F) =
    speech n ((bridgeOf [front]).map F) ++ speech n ((bridgeOf rest).map F) := by
  rw [← speech_append, ← List.map_append, ← Gcdbroker.bridgeOf_append]
  rfl

theorem speech_front_of_action (hF : ∀ item, (F item).1 = item.msg) (h : front.msg.action ≠ .none) :
    speech n ((bridgeOf [front]).map F) = [] := by
  refine speech_eq_nil fun f hf => ?_
  obtain ⟨item, hitem, rfl⟩ := List.mem_map.mp hf
  rw [List.mem_singleton.mp (List.mem_filter.mp hitem).1, hF]
  exact h

/-- The front of the queue is not for the connection. -/
theorem Reaches.skip (h : Reaches bound written₀ sent
      (speech n ((bridgeOf (front :: rest)).map F) ++ link))
    (hbound : bound' → bound) (hfront : bound' → speech n ((bridgeOf [front]).map F) = []) :
    Reaches bound' written₀ sent (speech n ((bridgeOf rest).map F) ++ link) where
  begins := h.begins
  rest hb := by
    rw [h.rest (hbound hb), speech_front, hfront hb, List.nil_append]

/-- What a move of the router does to the payload of a connection. -/
theorem Reaches.move (h : Reaches (r.bound item.msg.channel = some k) (written k out) sent
      (speech n ((bridgeOf (r.pending ++ pushed)).map F) ++ link))
    (hmove : Move refused r r' pushed out') (hF : ∀ item, (F item).1 = item.msg)
    (hledger : Ledger ms out r) (hk : .opened k item ∈ out)
    (hfront : r.bound item.msg.channel = some k → ∀ front rest i, r.pending = front :: rest →
      front.origin = .bridge i → front.msg.action = .none →
        ((F front).2 = n ↔ front.msg.channel = item.msg.channel)) :
    Reaches (r'.bound item.msg.channel = some k) (written k (out ++ out')) sent
      (speech n ((bridgeOf r'.pending).map F) ++ link) := by
  -- payload for other channels is that of other sessions
  have hother : r.bound item.msg.channel = some k → ∀ front rest, r.pending = front :: rest →
      front.msg.channel ≠ item.msg.channel → speech n ((bridgeOf [front]).map F) = [] := by
    intro hbound front rest hp hne
    cases horigin : front.origin with
    | reader j =>
      rw [Gcdbroker.bridgeOf_cons_reader horigin]
      rfl
    | bridge i =>
      by_cases haction : front.msg.action = .none
      · rw [Gcdbroker.bridgeOf_cons_bridge horigin]
        refine speech_of_ne fun hauthor => hne ?_
        exact (hfront hbound front rest i hp horigin haction).mp hauthor
      · exact speech_front_of_action hF haction
  cases hmove with
  | push hpending hshrinks _ =>
    rw [hpending, written_quiet (by simp)]
    exact ⟨h.begins, fun hb => h.rest (hshrinks _ _ hb)⟩
  | drop front hpending _ hunbound _ hshrinks _ =>
    rw [hpending, List.append_nil] at h
    rw [written_quiet (by simp)]
    refine h.skip (hshrinks _ _) fun hb => ?_
    by_cases haction : front.msg.action = .none
    · refine hother (hshrinks _ _ hb) front _ hpending fun hchannel => ?_
      cases (hunbound haction).symm.trans (hchannel ▸ hshrinks _ _ hb)
    · exact speech_front_of_action hF haction
  | bind front k' hpending happroves hunbound hbound hnumber _ =>
    rw [hpending, List.append_nil] at h
    rw [written_quiet (by simp)]
    have hne : k ≠ k' := (hnumber ▸ hledger.numbers k item hk).ne
    refine h.skip (fun hb => ?_) fun _ => speech_front_of_action hF ?_
    · rw [hbound] at hb
      by_cases hchannel : item.msg.channel = front.msg.channel
      · rw [hchannel, Function.update_self] at hb
        exact absurd (Option.some.inj hb).symm hne
      · rwa [Function.update_of_ne hchannel] at hb
    · rw [happroves.1]
      exact nofun
  | shut front hpending haction hbound _ =>
    rw [hpending, List.append_nil] at h
    rw [written_quiet (by simp)]
    refine h.skip (fun hb => ?_) fun _ => speech_front_of_action hF (by simp [haction])
    rw [hbound] at hb
    exact (Table.of_update_none hb).2
  | write front k' data hpending haction hconnected hbeginning hcomplete hshrinks _ =>
    rw [hpending, List.append_nil] at h
    rw [written_append]
    have hmine : k' = k → front.msg.channel = item.msg.channel := by
      rintro rfl
      obtain ⟨item', hitem', hchannel⟩ := hledger.bound _ _ hconnected
      rw [← hchannel, hledger.once _ _ _ hitem' hk]
    cases horigin : front.origin with
    | reader j =>
      have hnil : written k [.wrote k' front data] = [] := by
        obtain ⟨origin, msg⟩ := front
        cases horigin
        rfl
      rw [hnil, List.append_nil]
      refine h.skip (hshrinks _ _) fun _ => ?_
      rw [Gcdbroker.bridgeOf_cons_reader horigin]
      rfl
    | bridge i =>
      have hwritten : written k [.wrote k' front data] = if k' = k then [data] else [] := by
        obtain ⟨origin, msg⟩ := front
        cases horigin
        by_cases hkk : k' = k <;> simp [written, hkk]
      rw [hwritten]
      by_cases hkk : k' = k
      · subst hkk
        have hbound : r.bound item.msg.channel = some k' := hmine rfl ▸ hconnected
        have hauthor := (hfront hbound front _ i hpending horigin haction).mpr (hmine rfl)
        have hrest := h.rest hbound
        have hsays : speech n ((bridgeOf [front]).map F) = [front.msg.payload] := by
          rw [Gcdbroker.bridgeOf_cons_bridge horigin, ← hauthor, ← hF front]
          exact speech_singleton (by rw [hF, haction])
        rw [speech_front, hsays, List.append_assoc, List.flatten_append] at hrest
        rw [if_pos rfl]
        refine ⟨?_, fun hb => ?_⟩
        · obtain ⟨more, hmore⟩ := hbeginning
          rw [hrest, ← hmore]
          simp
        · rcases hcomplete with rfl | hclosed
          · rw [hrest]
            simp
          · cases hclosed.symm.trans (hmine rfl ▸ hb)
      · rw [if_neg hkk, List.append_nil]
        refine h.skip (hshrinks _ _) fun hb => ?_
        have hbound := hshrinks _ _ hb
        refine hother hbound front _ hpending fun hchannel => hkk ?_
        exact Option.some.inj ((hchannel ▸ hconnected).symm.trans hbound)

end

section

variable {s : Diode} {t : Trail} {ms : List BridgeMessage} {out : List Routed} {user user' : ℕ → ℕ}
  {reg : List (ℕ × Bytes)} {keeper : UInt16 → Option ℕ} {said : ℕ → List Bytes} {e : Gcdbroker.Event}
  {refused : Prop} {ack : Option Gcdbroker.Item}

/-- What gcdbroker has not dealt with is the end of what the guard has sent. -/
theorem sent_eq (t : Trail) (hledger : Ledger ms out s.gcd.router) : ∃ done, t.sent ms = done ++ t.answered s.gcd := by
  obtain ⟨done, hdone⟩ := hledger.order
  refine ⟨done.map (frameOf t.authors), ?_⟩
  rw [Trail.sent, hdone, Trail.answered, List.map_append, List.append_assoc]

/-- A message that arrives has been sent before. -/
theorem sent_stepGcd (h : Tenanted s t ms out user reg) (happlies : s.applies (.gcd e) = true) :
    (t.stepGcd e).sent (ms ++ (Gcdbroker.arrival e).toList) = t.sent ms := by
  obtain ⟨g, hlink, hauthors, -⟩ := stepGcd_eq h.toGcd happlies
  have hold : (numbered ms).map (frameOf (t.stepGcd e).authors) = (numbered ms).map (frameOf t.authors) := by
    refine List.map_congr_left fun item hitem => ?_
    obtain ⟨m, hm, rfl⟩ := List.mem_map.mp hitem
    have hlt := (List.mem_zipIdx hm).2.1
    rw [hauthors, frameOf_append rfl]
    rw [h.length]
    omega
  have hnew : ((Gcdbroker.arrival e).map fun m => (⟨.bridge ms.length, m⟩ : Gcdbroker.Item)).toList.map
      (frameOf (t.stepGcd e).authors) = ((Gcdbroker.arrival e).map fun m => (m, g)).toList := by
    cases harrival : Gcdbroker.arrival e with
    | none => rfl
    | some m => simp [frameOf, hauthors, harrival, ← h.length]
  rw [Trail.sent, Gcdbroker.numbered_append, List.map_append, hold, hnew, List.append_assoc, ← hlink,
    Trail.sent]

/-- The session of a connection stays the same. -/
theorem Tenanted.user_stepGcd (h : Tenanted s t ms out user reg) (hledger : Ledger ms out s.gcd.router)
    (happlies : s.applies (.gcd e) = true)
    (h' : Tenanted (s.stepGcd e) (t.stepGcd e) (ms ++ (Gcdbroker.arrival e).toList)
      (out ++ Gcdbroker.routes (s.gcd.step e).2) user' reg)
    {k : ℕ} {item : Gcdbroker.Item} (hk : .opened k item ∈ out) : user' k = user k := by
  obtain ⟨g, -, hauthors, -⟩ := stepGcd_eq h.toGcd happlies
  obtain ⟨-, n, horigin, -⟩ := hledger.approvals k item hk
  have hbefore := h.opened k item n hk horigin
  have hafter := h'.opened k item n (List.mem_append_left _ hk) horigin
  rw [hauthors, List.getElem?_append_left (List.getElem?_eq_some_iff.mp hbefore).1] at hafter
  exact Option.some.inj (hafter.symm.trans hbefore)

/-- What a step of gcdbroker does to the messages that it has not dealt with. -/
structure Taken (s : Diode) (t : Trail) (ms : List BridgeMessage) (e : Gcdbroker.Event)
    (pushed : List Gcdbroker.Item) : Prop where
  asked : (t.stepGcd e).asked = t.asked
  answered : t.answered s.gcd =
    (bridgeOf (s.gcd.router.pending ++ pushed)).map (frameOf (t.stepGcd e).authors) ++
      linkFrames (t.stepGcd e).toGcd

theorem taken_stepGcd (h : Tenanted s t ms out user reg) (hledger : Ledger ms out s.gcd.router)
    (happlies : s.applies (.gcd e) = true) (hack : ∀ item ∈ ack, IsAck item) :
    Taken s t ms e (Gcdbroker.additions ms (Gcdbroker.arrival e) ack) := by
  obtain ⟨g, hlink, hauthors, hqueue, htoGuard, -⟩ := stepGcd_eq h.toGcd happlies
  have hanswered := answered_arrive hledger h.length hack hlink
  rw [← hauthors] at hanswered
  exact ⟨by rw [Trail.asked, Trail.asked, hqueue, htoGuard], hanswered⟩

/-- Nothing that was not there before is left. -/
theorem Taken.subset {pushed : List Gcdbroker.Item} (h : Taken s t ms e pushed)
    (hmove : Move refused s.gcd.router (s.gcd.step e).1.router pushed
      (Gcdbroker.routes (s.gcd.step e).2)) :
    (t.stepGcd e).answered (s.stepGcd e).gcd ⊆ t.answered s.gcd := by
  intro f hf
  rw [h.answered]
  rcases List.mem_append.mp hf with hf | hf
  · obtain ⟨popped, hpopped⟩ := hmove.pending_eq
    rw [hpopped, Gcdbroker.bridgeOf_append, List.map_append]
    exact List.mem_append_left _ (List.mem_append_right _ hf)
  · exact List.mem_append_right _ hf

/-- A connection that is opened belongs to the session of its approval. -/
theorem Taken.opened {pushed : List Gcdbroker.Item} (h : Taken s t ms e pushed)
    (hledger : Ledger ms out s.gcd.router)
    (hmove : Move refused s.gcd.router (s.gcd.step e).1.router pushed
      (Gcdbroker.routes (s.gcd.step e).2))
    (h' : Tenanted (s.stepGcd e) (t.stepGcd e) (ms ++ (Gcdbroker.arrival e).toList)
      (out ++ Gcdbroker.routes (s.gcd.step e).2) user' reg)
    {k : ℕ} {item : Gcdbroker.Item} (hk : .opened k item ∈ Gcdbroker.routes (s.gcd.step e).2) :
    Approves item.msg ∧ (item.msg, user' k) ∈ t.answered s.gcd := by
  obtain ⟨-, -, hp, happroves, -⟩ := hmove.opened hk
  obtain ⟨n, horigin⟩ := hledger.origin_of_approves hp happroves
  have hauthor := h'.opened k item n (List.mem_append_right _ hk) horigin
  have hframe : frameOf (t.stepGcd e).authors item = (item.msg, user' k) := by
    refine Prod.ext (frameOf_fst _ item) ?_
    rw [ForwardPath.frameOf_bridge horigin, List.getD_eq_getElem?_getD, hauthor, Option.getD_some]
  refine ⟨happroves, ?_⟩
  rw [h.answered, hp, List.cons_append, Gcdbroker.bridgeOf_cons_bridge horigin, List.map_cons, hframe]
  exact List.mem_cons_self

theorem Keeper.stepGcd (hk : Keeper s t out user keeper) {pushed : List Gcdbroker.Item}
    (htaken : Taken s t ms e pushed) (hledger : Ledger ms out s.gcd.router)
    (hmove : Move refused s.gcd.router (s.gcd.step e).1.router pushed
      (Gcdbroker.routes (s.gcd.step e).2))
    (h' : Tenanted (s.stepGcd e) (t.stepGcd e) (ms ++ (Gcdbroker.arrival e).toList)
      (out ++ Gcdbroker.routes (s.gcd.step e).2) user' reg)
    (hsame : ∀ k item, .opened k item ∈ out → user' k = user k) :
    Keeper (s.stepGcd e) (t.stepGcd e) (out ++ Gcdbroker.routes (s.gcd.step e).2) user' keeper where
  approved := hk.approved
  ahead := by
    rw [htaken.asked]
    exact hk.ahead
  behind c m hm := by
    have hletter : ∀ f ∈ t.answered s.gcd, ∀ l, letter Approves c f = some l →
        ∃ n, keeper c = some n ∧ l.who ≤ n := by
      intro f hf l hl
      refine hk.behind c l.who (List.mem_append_right _ (List.mem_map_of_mem ?_))
      exact List.mem_filterMap.mpr ⟨f, hf, hl⟩
    rcases List.mem_append.mp hm with hm | hm
    · obtain ⟨k, hopened, rfl⟩ := List.mem_map.mp hm
      obtain ⟨item, hitem, hc⟩ := mem_opens.mp hopened
      rcases List.mem_append.mp hitem with hitem | hitem
      · rw [hsame k item hitem]
        exact hk.behind c _ (List.mem_append_left _ (List.mem_map_of_mem (mem_opens.mpr ⟨item, hitem, hc⟩)))
      · obtain ⟨happroves, hframe⟩ := htaken.opened hledger hmove h' hitem
        refine hletter _ hframe (.request (user' k)) ?_
        exact letter_request hc (by simp [happroves.1]) happroves
    · obtain ⟨l, hl, rfl⟩ := List.mem_map.mp hm
      obtain ⟨f, hf, hl⟩ := List.mem_filterMap.mp hl
      exact hletter f (htaken.subset hmove hf) l hl
  holder := hk.holder
  spent := hk.spent

/-- Payload in front of the queue is for the session of the connection if it is for its channel. -/
theorem Tenanted.front_iff (h : Tenanted s t ms out user reg) {pushed : List Gcdbroker.Item}
    (htaken : Taken s t ms e pushed) {k : ℕ} {item : Gcdbroker.Item} (hk : .opened k item ∈ out)
    (hbound : s.gcd.router.bound item.msg.channel = some k) (front : Gcdbroker.Item)
    (rest : List Gcdbroker.Item) (i : ℕ) (hp : s.gcd.router.pending = front :: rest)
    (horigin : front.origin = .bridge i) (haction : front.msg.action = .none) :
    (frameOf (t.stepGcd e).authors front).2 = user k ↔ front.msg.channel = item.msg.channel := by
  have hchannel : (frameOf (t.stepGcd e).authors front).1.channel = front.msg.channel := by
    rw [frameOf_fst]
  have haction' : (frameOf (t.stepGcd e).authors front).1.action = .none := by rw [frameOf_fst, haction]
  have hanswered : ∃ more, t.answered s.gcd = frameOf (t.stepGcd e).authors front :: more := by
    rw [htaken.answered, hp, List.cons_append, Gcdbroker.bridgeOf_cons_bridge horigin]
    exact ⟨_, rfl⟩
  obtain ⟨more, hmore⟩ := hanswered
  constructor
  · intro hauthor
    have hopened := h.opened_of_payload (f := frameOf (t.stepGcd e).authors front)
      (List.mem_append_left _ (hmore ▸ List.mem_cons_self)) haction'
    rw [hauthor, hchannel] at hopened
    exact h.channel_unique hopened (List.mem_map_of_mem (mem_opens.mpr ⟨item, hk, rfl⟩))
  · intro hc
    have hlease := h.lease item.msg.channel
    have hletter : letter Approves item.msg.channel (frameOf (t.stepGcd e).authors front) =
        some (.payload (frameOf (t.stepGcd e).authors front).2) :=
      letter_payload (hchannel.trans hc) haction'
    have hhead : (t.lease s.gcd out user item.msg.channel).queue =
        .payload (frameOf (t.stepGcd e).authors front).2 ::
          (letters Approves item.msg.channel more ++ letters Creates item.msg.channel t.asked) := by
      simp only [Trail.lease, hmore, letters_cons, hletter, Option.toList_some, List.cons_append,
        List.nil_append]
    exact (hlease.served hhead (by simp [Trail.lease, hbound])).symm

theorem Streamed.stepGcd (hst : Streamed s t ms out user keeper said)
    (h : Tenanted s t ms out user reg) (hledger : Ledger ms out s.gcd.router)
    (happlies : s.applies (.gcd e) = true) (hack : ∀ item ∈ ack, IsAck item)
    (hmove : Move refused s.gcd.router (s.gcd.step e).1.router
      (Gcdbroker.additions ms (Gcdbroker.arrival e) ack) (Gcdbroker.routes (s.gcd.step e).2))
    (h' : Tenanted (s.stepGcd e) (t.stepGcd e) (ms ++ (Gcdbroker.arrival e).toList)
      (out ++ Gcdbroker.routes (s.gcd.step e).2) user' reg) :
    Streamed (s.stepGcd e) (t.stepGcd e) (ms ++ (Gcdbroker.arrival e).toList)
      (out ++ Gcdbroker.routes (s.gcd.step e).2) user' keeper said := by
  have htaken := taken_stepGcd h hledger happlies hack
  have hsame : ∀ k item, .opened k item ∈ out → user' k = user k := fun k item hk =>
    h.user_stepGcd hledger happlies h' hk
  refine ⟨hst.serves.stepGcd htaken hledger hmove h' hsame, fun n hn => ?_, fun n => ?_,
    fun k item hk => ?_⟩
  · obtain ⟨c, hopened⟩ := hst.speaks n hn
    obtain ⟨k, hk, rfl⟩ := List.mem_map.mp hopened
    obtain ⟨item, hitem, hc⟩ := mem_opens.mp hk
    rw [← hsame k item hitem]
    exact ⟨c, List.mem_map_of_mem (mem_opens.mpr ⟨item, List.mem_append_left _ hitem, hc⟩)⟩
  · have hcoming : (t.stepGcd e).coming = t.coming := by rw [Trail.coming, htaken.asked, Trail.coming]
    rw [sent_stepGcd h happlies, hcoming]
    exact hst.heard n
  · rw [sent_stepGcd h happlies, Trail.answered, speech_append]
    rcases List.mem_append.mp hk with hk | hk
    · have hreaches := hst.reaches k item hk
      rw [htaken.answered, speech_append] at hreaches
      rw [hsame k item hk]
      exact hreaches.move hmove (frameOf_fst _) hledger hk (h.front_iff htaken hk)
    · -- a connection that is opened now: nobody has said anything for it
      obtain ⟨happroves, hframe⟩ := htaken.opened hledger hmove h' hk
      obtain ⟨hnumber, -, -, -, hroutes⟩ := hmove.opened hk
      have hmem : .request (user' k) ∈ (t.lease s.gcd out user item.msg.channel).queue := by
        refine List.mem_append_left _ (List.mem_filterMap.mpr ⟨_, hframe, ?_⟩)
        exact letter_request rfl (by simp [happroves.1]) happroves
      obtain ⟨hsent, -⟩ := (hst.heard (user' k)).silent (hst.silent_of_request h hmem)
      have hwritten : written k (out ++ Gcdbroker.routes (s.gcd.step e).2) = [] := by
        rw [written_quiet (by simp [hroutes]), written, List.filterMap_eq_nil_iff]
        intro routed hrouted
        cases routed with
        | opened => rfl
        | wrote k' item' data =>
          obtain ⟨item'', hopened⟩ := hledger.wrote _ _ _ hrouted
          have hne : k' ≠ k := ((hnumber ▸ hledger.numbers _ _ hopened : k' < k)).ne
          obtain ⟨origin, msg⟩ := item'
          cases origin <;> simp [hne]
      have hanswered : (speech (user' k) ((bridgeOf (s.stepGcd e).gcd.router.pending).map
            (frameOf (t.stepGcd e).authors)) ++
          speech (user' k) (linkFrames (t.stepGcd e).toGcd)).flatten = [] := by
        obtain ⟨done, hdone⟩ := sent_eq t hledger
        obtain ⟨popped, hpopped⟩ := hmove.pending_eq
        rw [hdone, htaken.answered, hpopped] at hsent
        simp only [Gcdbroker.bridgeOf_append, List.map_append, speech_append, List.flatten_append,
          List.append_eq_nil_iff] at hsent ⊢
        exact ⟨hsent.2.1.2, hsent.2.2⟩
      refine ⟨?_, fun _ => ?_⟩
      · rw [hwritten]
        exact List.nil_prefix
      · rw [hsent, hwritten, hanswered]
        rfl

end

-- ════════════════════════════════════════════════════════════════════════
-- Whole runs
-- ════════════════════════════════════════════════════════════════════════

section

variable {ids : ℕ → ℕ → Bytes} {es : List Event}

theorem said_snoc (ids : ℕ → ℕ → Bytes) (es : List Event) (e : Event) (n : ℕ) :
    said ids (es ++ [e]) n = said ids es n ++
      (((machine ids).run es).gmlEvent e).toList.flatMap (Gmlbroker.utterance n ((machine ids).run es).gml) := by
  rw [said, gmlEvents_snoc, Machine.collect_append_toList, ← gml_run]
  rfl

theorem streamed_init : Streamed {} {} [] [] (fun _ => 0) (fun _ => none) (fun _ => []) := by
  refine ⟨⟨by simp, by simp, ?_, by simp, by simp⟩, by simp, fun n => ?_, by simp⟩
  · intro c m hm
    simp [Trail.answered, letters, linkFrames, opens, Gcdbroker.router, Gcdbroker.SendHandler.held,
      Gcdbroker.bridgeOf] at hm
  · refine ⟨[], [], ?_, List.prefix_rfl, ?_, by simp⟩
    · simp [speech, Trail.coming, Trail.asked, linkFrames]
    · simp [speech, Trail.sent, linkFrames, Gcdbroker.numbered, filter, OpcodeParser.cleanseAll]

/-- What is said is said in the steps of gmlbroker. -/
theorem said_of_gml {e : Gmlbroker.Event} (happlies : ((machine ids).run es).applies (.gml e) = true) :
    said ids (es ++ [.gml e]) = fun n => said ids es n ++ Gmlbroker.utterance n ((machine ids).run es).gml e := by
  funext n
  rw [said_snoc, gmlEvent, if_pos happlies, Option.toList_some, List.flatMap_singleton]

theorem said_of_other {e : Event} (h : ((machine ids).run es).gmlEvent e = none) :
    said ids (es ++ [e]) = said ids es := by
  funext n
  rw [said_snoc, h, Option.toList_none, List.flatMap_nil, List.append_nil]

/-- How far the payload has come in a run. -/
def StreamedRun (ids : ℕ → ℕ → Bytes) (es : List Event) (user : ℕ → ℕ) : Prop :=
  ∃ keeper, Streamed ((machine ids).run es) (trail ids es) (Gcdbroker.delivered (gcdEvents ids es))
    (Gcdbroker.routed (gcdEvents ids es)) user keeper (said ids es)

theorem streamed_gcd {e : Gcdbroker.Event} {user user' : ℕ → ℕ}
    (happlies : ((machine ids).run es).applies (.gcd e) = true) (h : TenantedRun ids es user)
    (h' : TenantedRun ids (es ++ [.gcd e]) user') (hst : StreamedRun ids es user) :
    StreamedRun ids (es ++ [.gcd e]) user' := by
  obtain ⟨keeper, hst⟩ := hst
  obtain ⟨hrun, htrail, hevents⟩ := run_gcd happlies
  obtain ⟨hledger, hack, hmove⟩ := move_gcd ids es e
  have hsaid : said ids (es ++ [.gcd e]) = said ids es := said_of_other (by simp [gmlEvent])
  rw [TenantedRun, hrun, htrail, hevents, Gcdbroker.delivered_snoc, Gcdbroker.routed_snoc, ← gcd_run] at h'
  refine ⟨keeper, ?_⟩
  rw [hrun, htrail, hevents, hsaid, Gcdbroker.delivered_snoc, Gcdbroker.routed_snoc, ← gcd_run]
  exact hst.stepGcd (Tenanted.mono h (registered_subset ids es (.gcd e))) hledger happlies hack hmove h'

theorem streamed_run (ids : ℕ → ℕ → Bytes) {es : List Event} (hdistinct : Distinct (registered ids es)) :
    ∃ user, TenantedRun ids es user ∧ StreamedRun ids es user := by
  refine tenanted_rule (P := StreamedRun ids) ⟨fun _ => none, streamed_init⟩ ?_ ?_ ?_ ?_ hdistinct
  · rintro es e user happlies h ⟨keeper, hst⟩
    obtain ⟨hrun, htrail, hevents⟩ := run_gml happlies
    have hspeaks := Gmlbroker.speaks_run ids (gmlEvents ids es)
    rw [← gml_run] at hspeaks
    refine ⟨keeper, ?_⟩
    rw [hrun, htrail, hevents, said_of_gml happlies]
    exact hst.stepGml h (honest_run ids es) hspeaks ids e
  · rintro es e user happlies h ⟨keeper, hst⟩
    obtain ⟨hrun, htrail, hevents⟩ := run_guard happlies
    have hg := Guard.consistent_run (guardEvents ids es)
    rw [← guard_run] at hg
    obtain ⟨keeper', hst'⟩ := hst.stepGuard h hg (honest_run ids es) happlies
    have hsaid : said ids (es ++ [.guard e]) = said ids es := said_of_other (by simp [gmlEvent])
    refine ⟨keeper', ?_⟩
    rw [hrun, htrail, hevents, hsaid]
    exact hst'
  · exact fun es e user user' happlies h h' hst => streamed_gcd happlies h h' hst
  · rintro es e user happlies ⟨keeper, hst⟩
    obtain ⟨hrun, htrail, hevents⟩ := run_idle happlies
    refine ⟨keeper, ?_⟩
    rw [hrun, htrail, hevents, said_of_other (by simp [gmlEvent, happlies])]
    exact hst

end

/-- In every run in which no two sessions register the same request id, each connection belongs
to the session whose request has opened it, and what gcdbroker has written to it from the bridge
is the beginning of what the filter of the guard makes of the payload of this session. -/
theorem receives_said (ids : ℕ → ℕ → Bytes) (es : List Event) (hdistinct : Distinct (registered ids es)) :
    ∃ user : ℕ → ℕ,
      (∀ k item n, .insert k item ∈ Gcdbroker.machine.emitted (gcdEvents ids es) →
        item.origin = .bridge n → (trail ids es).authors[n]? = some (user k)) ∧
      ∀ k item, .insert k item ∈ Gcdbroker.machine.emitted (gcdEvents ids es) →
        (written k (Gcdbroker.routed (gcdEvents ids es))).flatten <+:
          (filter (said ids es (user k))).1.flatten := by
  obtain ⟨user, h, keeper, hst⟩ := streamed_run ids hdistinct
  refine ⟨user, ?_, ?_⟩
  · intro k item n hk hn
    exact h.opened k item n (ForwardPath.mem_routed_insert.mpr hk) hn
  · intro k item hk
    have hopened := ForwardPath.mem_routed_insert.mpr hk
    exact (hst.reaches k item hopened).begins.trans (hst.heard (user k)).begins

/-- A beginning of what keeps to the policy keeps to it as well. -/
theorem complies_of_begins {w w' : Bytes} (h : Policy.Complies w) (hw : w' <+: w) : Policy.Complies w' := by
  obtain ⟨is, cur, rfl, hwhole, hopen⟩ := h
  obtain ⟨v, hv⟩ := hw
  have hread := Cursor.read_wire_append_bytes is cur
  rw [← hv] at hread
  obtain ⟨⟨js, cur'⟩, hbegun⟩ := Cursor.exists_read_of_read_append hread
  rw [Cursor.read_append_of_eq_some hbegun, Option.map_eq_some_iff] at hread
  obtain ⟨⟨ks, cur''⟩, hrest, heq⟩ := hread
  cases heq
  refine ⟨js, cur', Cursor.read_start_eq_some_iff.mp hbegun, fun before i rest hjs => ?_, ?_⟩
  · exact hwhole before i (rest ++ ks) (by rw [hjs, List.append_assoc, List.cons_append])
  · -- the elements of the instruction in progress are the first ones of an instruction that is read
    by_contra hviolates
    rw [Bool.not_eq_false] at hviolates
    rcases Cursor.closed_read hrest with ⟨rfl, more, hmore⟩ | ⟨i, hi, more, hmore⟩
    · have hlater := Policy.violates_append hviolates (more.map Element.value)
      rw [Cursor.values, ← List.map_append, hmore] at hlater
      rw [List.append_nil] at hopen
      exact Bool.noConfusion (hopen.symm.trans hlater)
    · obtain ⟨rest, rfl⟩ := List.head?_eq_some_iff.mp hi
      have hlater := Policy.violates_append hviolates (more.map Element.value)
      rw [Cursor.values, ← List.map_append, hmore] at hlater
      exact Bool.noConfusion ((hwhole js i rest rfl).symm.trans hlater)

/-- Whatever the filter makes of a stream keeps to the policy. -/
theorem complies_filter (pieces : List Bytes) : Policy.Complies (filter pieces).1.flatten ∧
    ∀ p, (filter pieces).2 = some p → Guard.Coupled (filter pieces).1.flatten p := by
  induction pieces using List.reverseRecOn with
  | nil =>
    refine ⟨Guard.coupled_fresh.complies, fun p hp => ?_⟩
    cases hp
    exact Guard.coupled_fresh
  | append_singleton pieces data ih =>
    obtain ⟨hcomplies, hcoupled⟩ := ih
    cases hstate : (filter pieces).2 with
    | none =>
      have hall : filter (pieces ++ [data]) = filter pieces := OpcodeParser.cleanseAll_append_of_none hstate
      rw [hall]
      exact ⟨hcomplies, hcoupled⟩
    | some p =>
      cases hcleanse : p.cleanse GuardOpcodeParser.hooks data with
      | none =>
        have hall : filter (pieces ++ [data]) = _ := OpcodeParser.cleanseAll_append_of_some hstate
        rw [OpcodeParser.cleanseAll_cons_none hcleanse, List.append_nil] at hall
        rw [hall]
        exact ⟨hcomplies, nofun⟩
      | some r =>
        obtain ⟨payload, p'⟩ := r
        obtain ⟨hnext, -⟩ := (hcoupled p hstate).cleanse hcleanse
        have hflatten : ((filter pieces).1 ++ [payload]).flatten = (filter pieces).1.flatten ++ payload := by
          simp
        rw [filter_snoc hstate hcleanse, hflatten]
        refine ⟨hnext.complies, fun q hq => ?_⟩
        cases hq
        exact hnext

/-- In every run in which no two sessions register the same request id, what each connection of
gcdbroker has received from the bridge is the beginning of a sequence of instructions that keep to
the policy of the guard. -/
theorem receives_complying (ids : ℕ → ℕ → Bytes) (es : List Event)
    (hdistinct : Distinct (registered ids es)) {k : ℕ} {item : Gcdbroker.Item}
    (hk : .insert k item ∈ Gcdbroker.machine.emitted (gcdEvents ids es)) :
    Policy.Complies (written k (Gcdbroker.routed (gcdEvents ids es))).flatten := by
  obtain ⟨user, -, keeper, hst⟩ := streamed_run ids hdistinct
  have hreaches := hst.reaches k item (ForwardPath.mem_routed_insert.mpr hk)
  refine complies_of_begins (complies_filter (said ids es (user k))).1 ?_
  exact hreaches.begins.trans (hst.heard (user k)).begins

/-- The connection of the second session. -/
theorem receives_complying_servedRun :
    .insert 0 ⟨.bridge 1, approvalOf secondRequest⟩ ∈
        Gcdbroker.machine.emitted (gcdEvents (fun _ _ => []) servedRun) ∧
      Policy.Complies (written 0 (Gcdbroker.routed (gcdEvents (fun _ _ => []) servedRun))).flatten := by
  have hinsert : .insert 0 ⟨.bridge 1, approvalOf secondRequest⟩ ∈
      Gcdbroker.machine.emitted (gcdEvents (fun _ _ => []) servedRun) := by decide +kernel
  exact ⟨hinsert, receives_complying (fun _ _ => []) servedRun distinct_servedRun hinsert⟩

/-- The connection of the second session has received a beginning of its payload. -/
theorem receives_said_servedRun : ∃ user : ℕ → ℕ, user 0 = 1 ∧
    (written 0 (Gcdbroker.routed (gcdEvents (fun _ _ => []) servedRun))).flatten <+:
      (filter (said (fun _ _ => []) servedRun (user 0))).1.flatten := by
  have hinsert : .insert 0 ⟨.bridge 1, approvalOf secondRequest⟩ ∈
      Gcdbroker.machine.emitted (gcdEvents (fun _ _ => []) servedRun) := by decide +kernel
  have hauthors : (trail (fun _ _ => []) servedRun).authors = [1, 1, 1] := by decide +kernel
  obtain ⟨user, hopened, hreceived⟩ := receives_said (fun _ _ => []) servedRun distinct_servedRun
  have huser := hopened 0 _ 1 hinsert rfl
  rw [hauthors] at huser
  exact ⟨user, (Option.some.inj huser).symm, hreceived 0 _ hinsert⟩

/-- Nothing is on its way from gmlbroker to guacd. -/
structure Drained (s : Diode) : Prop where
  queue : s.gml.sendQueue = []
  toGuard : s.toGuard = []
  toGcd : s.toGcd = []
  pending : s.gcd.router.pending = []

instance (s : Diode) : Decidable (Drained s) :=
  decidable_of_iff (s.gml.sendQueue = [] ∧ s.toGuard = [] ∧ s.toGcd = [] ∧ s.gcd.router.pending = [])
    ⟨fun ⟨hq, hguard, hgcd, hp⟩ => ⟨hq, hguard, hgcd, hp⟩, fun h => ⟨h.queue, h.toGuard, h.toGcd, h.pending⟩⟩

theorem Drained.coming {s : Diode} {t : Trail} {ms : List BridgeMessage} {out : List Routed}
    {user : ℕ → ℕ} {reg : List (ℕ × Bytes)} (hd : Drained s) (h : Tenanted s t ms out user reg) :
    t.coming = [] ∧ t.answered s.gcd = [] := by
  have hqueue : t.queue = [] := List.map_eq_nil_iff.mp (h.queue.trans hd.queue)
  have htoGuard : t.toGuard = [] := List.map_eq_nil_iff.mp (h.toGuard.trans hd.toGuard)
  have htoGcd : t.toGcd = [] := List.map_eq_nil_iff.mp (h.toGcd.trans hd.toGcd)
  simp [Trail.coming, Trail.asked, Trail.answered, hqueue, htoGuard, htoGcd, hd.pending, linkFrames,
    Gcdbroker.bridgeOf]

/-- Nothing is lost: a session that has been approved and holds its channel has been heard
completely by the connection of the channel, as soon as nothing is on its way any more, unless
the guard or gcdbroker has closed the channel. -/
theorem receives_all (ids : ℕ → ℕ → Bytes) (es : List Event) (hdistinct : Distinct (registered ids es))
    {n k : ℕ} {session : Gmlbroker.Session}
    (hn : ((machine ids).run es).gml.sessions n = some session) (happroved : session.reader.approved = true)
    (hholds : ((machine ids).run es).gml.table session.channel = some n)
    (hopen : session.channel ∈ ((machine ids).run es).guard.approved)
    (hbound : ((machine ids).run es).gcd.router.bound session.channel = some k)
    (hdrained : Drained ((machine ids).run es)) :
    (written k (Gcdbroker.routed (gcdEvents ids es))).flatten = (filter (said ids es n)).1.flatten := by
  obtain ⟨user, h, keeper, hst⟩ := streamed_run ids hdistinct
  obtain ⟨hcoming, hanswered⟩ := hdrained.coming h
  have hledger := Gcdbroker.ledger_run (gcdEvents ids es)
  rw [← gcd_run] at hledger
  obtain ⟨item, hopened, hchannel⟩ := hledger.bound _ k hbound
  -- the session is the one that the guard serves, and that of the connection
  have hmine := h.approved n session hn happroved
  obtain ⟨m, hm, hnm⟩ := hst.serves.behind session.channel n (List.mem_append_left _ hmine)
  obtain rfl : m = n := le_antisymm (hst.serves.holder _ n m hholds hm) hnm
  have hlast := (h.lease session.channel).bound (user k) (by simp [Trail.lease, hbound])
  have huser : user k = m := by
    refine le_antisymm ?_ (hlast.2 m hmine)
    exact h.holder _ m hholds _ (List.mem_append_left _ hlast.1)
  obtain ⟨heard, passed, hsaid, -, hsent, hlive⟩ := hst.heard m
  obtain ⟨rfl, -⟩ := hlive session.channel hopen hm
  have hreaches := (hst.reaches k item hopened).rest (hchannel ▸ hbound)
  rw [hcoming] at hsaid
  rw [huser, hanswered, hsent] at hreaches
  simp only [speech, List.filterMap_nil, List.append_nil, List.flatten_nil] at hsaid hreaches
  rw [hsaid, hreaches]

/-- The second session has been heard completely. -/
theorem receives_all_servedRun :
    said (fun _ _ => []) servedRun 1 = [secondHandshake.payload] ∧
      (written 0 (Gcdbroker.routed (gcdEvents (fun _ _ => []) servedRun))).flatten =
        (filter (said (fun _ _ => []) servedRun 1)).1.flatten := by
  obtain ⟨session, hsession⟩ := Option.isSome_iff_exists.mp
    (show (((machine fun _ _ => []).run servedRun).gml.sessions 1).isSome = true by decide +kernel)
  have hstate : ((machine fun _ _ => []).run servedRun).gml.sessions 1 |>.any fun session =>
      session.reader.approved && session.channel == 1 := by decide +kernel
  rw [hsession, Option.any_some, Bool.and_eq_true, beq_iff_eq] at hstate
  refine ⟨by decide +kernel, receives_all (fun _ _ => []) servedRun distinct_servedRun hsession hstate.1
    ?_ ?_ ?_ (by decide +kernel)⟩
  all_goals
    rw [hstate.2]
    decide +kernel

end Diode

end GuacamoleDiode
