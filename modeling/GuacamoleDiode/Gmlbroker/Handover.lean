import GuacamoleDiode.Gmlbroker.Requests

/-!
# From one session of a channel to the next

A channel that is free again may be given away at once, so the teardown of one session and
the start of the next one touch the same entries of the channel table, the approval registry
and the mailboxes. A reader takes only its own entries away, and the flag and the mailbox
that it looks up under its channel are those of its own session.

The broker takes for granted that a reader uses its own flag and mailbox. `Threads` does
not: the readers look them up under their channels, one after the other, and use what
they have found.

## Main definitions

- `Spares`: a step takes the entries of a session away only where its own reader does
- `Live`: the session has been given a channel and has not given it back
- `Threads`: the broker, with what its readers have looked up
-/

namespace GuacamoleDiode

open Wire

namespace Gmlbroker

/-- A step takes the entries of a session away only where its own reader does. -/
structure Spares (s s' : Gmlbroker) (effects : List Effect) : Prop where
  approval : ∀ c n, s.entries c = some n → s'.entries c = some n ∨
    .performed n .removeApproval ∈ effects
  mailbox : ∀ c n, s.mailboxes c = some n → s'.mailboxes c = some n ∨
    .performed n .removeMailbox ∈ effects
  channel : ∀ c n, s.table c = some n → s'.table c = some n ∨
    .performed n .removeChannel ∈ effects

/-- The session has been given a channel and has not given it back. -/
def Live (log : List Effect) (n : ℕ) (c : UInt16) : Prop :=
  .accepted n c ∈ log ∧ .performed n .removeChannel ∉ log

section

variable {ids : ℕ → ℕ → Bytes} {s : Gmlbroker} {n m : ℕ} {c : UInt16} {session session' : Session}
  {e : Event} {effect : ReadHandler.Effect}

/-- What a step of a reader shows. -/
theorem step_perform_snd (ids : ℕ → ℕ → Bytes) (hn : s.sessions n = some session)
    {pending : List ReadHandler.Effect} (hpending : session.pending = effect :: pending) :
    (s.step ids (.perform n)).2 = [.performed n effect] := by
  simp only [step, hn, hpending]

/-- An entry is kept until it is given up. -/
theorem keeps_of_evolves (effect : ReadHandler.Effect) (hbehind : effect.Behind)
    (h : Evolves ids s e n session session') (hn : s.sessions n = some session)
    (hkeeps : session.holder.Keeps effect) :
    session'.channel = session.channel ∧ (session.started = true → session'.started = true) ∧
      (session'.holder.Keeps effect ∨ .performed n effect ∈ (s.step ids e).2) := by
  cases h with
  | same => exact ⟨rfl, id, .inl hkeeps⟩
  | started => exact ⟨rfl, fun _ => rfl, .inl hkeeps⟩
  | approved => exact ⟨rfl, id, .inl hkeeps⟩
  | mailed item mail mails => exact ⟨rfl, id, .inl hkeeps⟩
  | turned wake hevent hready =>
    have hopen : session.reader.closed = false := by
      refine hkeeps.resolve_right fun hmem => ?_
      have hnil : session.holder.pending = [] := hready.2
      rw [hnil] at hmem
      exact absurd hmem List.not_mem_nil
    exact ⟨rfl, id, .inl (keeps_turn ids n hopen hbehind wake)⟩
  | performed effect' pending hevent hpending =>
    refine ⟨rfl, id, ?_⟩
    rcases hkeeps with hopen | hmem
    · exact .inl (.inl hopen)
    · have hmem' : effect ∈ session.pending := hmem
      rw [hpending, List.mem_cons] at hmem'
      rcases hmem' with rfl | hmem'
      · right
        rw [hevent, step_perform_snd ids hn hpending]
        exact List.mem_singleton_self _
      · exact .inl (.inr hmem')

/-- The accept thread stays with a session until its reader runs. -/
theorem created_step (ids : ℕ → ℕ → Bytes) (hwf : Wf s) (e : Event)
    (h : s.acceptor = .created n c) :
    (s.step ids e).1.acceptor = .created n c ∨
      ∃ session', (s.step ids e).1.sessions n = some session' ∧ session'.started = true := by
  cases e with
  | accept =>
    left
    simp [step, accept, h]
  | register =>
    right
    obtain ⟨holder, hn, -⟩ := hwf.registering n c (.inr h)
    obtain ⟨session, hsession, -⟩ := Option.map_eq_some_iff.mp hn
    simp [step, register, h, start, hsession]
  | perform m =>
    left
    dsimp only [step]
    repeat' split
    · exact h
    · exact h
    · next effect _ _ =>
      cases effect <;> exact h
  | _ =>
    left
    dsimp only [step, handle, dispatch]
    repeat' split
    all_goals exact h

/-- The three registries, which all say that a session is listed until it gives the entry up. -/
theorem spares_step (ids : ℕ → ℕ → Bytes) (hwf : Wf s) (e : Event) :
    Spares s (s.step ids e).1 (s.step ids e).2 := by
  have hwf' := hwf.step ids e
  have hkept : ∀ (effect : ReadHandler.Effect) {h : Holder} {n}, effect.Behind →
      s.holders n = some h → h.Keeps effect → .performed n effect ∉ (s.step ids e).2 →
      ∃ h', (s.step ids e).1.holders n = some h' ∧ h'.channel = h.channel ∧
        (h.started = true → h'.started = true) ∧ h'.Keeps effect := by
    intro effect h n hbehind hn hkeeps hnot
    obtain ⟨session, hsession, rfl⟩ := Option.map_eq_some_iff.mp hn
    obtain ⟨session', hsession', hevolves⟩ := evolves_step ids hwf hsession e
    obtain ⟨hchannel, hstarted, hkeeps'⟩ := keeps_of_evolves effect hbehind hevolves hsession hkeeps
    exact ⟨session'.holder, holders_eq hsession', hchannel, hstarted, hkeeps'.resolve_right hnot⟩
  refine ⟨fun c n hc => ?_, fun c n hc => ?_, fun c n hc => ?_⟩
  · refine or_iff_not_imp_right.mpr fun hnot => ?_
    obtain ⟨h, hn, rfl, hcreated, hkeeps⟩ := (hwf.approval c n).mp hc
    obtain ⟨h', hn', hchannel, hstarted, hkeeps'⟩ := hkept .removeApproval trivial hn hkeeps hnot
    refine (hwf'.approval _ n).mpr ⟨h', hn', hchannel, ?_, hkeeps'⟩
    rcases hcreated with hs | hacc
    · exact .inl (hstarted hs)
    · rcases created_step ids hwf e hacc with hacc' | ⟨session', hsession', hs⟩
      · exact .inr (hchannel ▸ hacc')
      · cases hn'.symm.trans (holders_eq hsession')
        exact .inl hs
  · refine or_iff_not_imp_right.mpr fun hnot => ?_
    obtain ⟨h, hn, rfl, hs, hkeeps⟩ := (hwf.mailbox c n).mp hc
    obtain ⟨h', hn', hchannel, hstarted, hkeeps'⟩ := hkept .removeMailbox trivial hn hkeeps hnot
    exact (hwf'.mailbox _ n).mpr ⟨h', hn', hchannel, hstarted hs, hkeeps'⟩
  · refine or_iff_not_imp_right.mpr fun hnot => ?_
    obtain ⟨h, hn, rfl, hkeeps⟩ := (hwf.bound c n).mp hc
    obtain ⟨h', hn', hchannel, -, hkeeps'⟩ := hkept .removeChannel trivial hn hkeeps hnot
    exact (hwf'.bound _ n).mpr ⟨h', hn', hchannel, hkeeps'⟩

/-- A session that is accepted in a step. -/
theorem sessions_of_accepted (h : .accepted n c ∈ (s.step ids e).2) :
    (s.step ids e).1.sessions n = some { channel := c } := by
  cases e with
  | accept =>
    simp only [step, accept] at h ⊢
    split_ifs at h ⊢
    · split at h
      · simp at h
      · next channel hallocate =>
        obtain ⟨rfl, rfl⟩ : n = s.accepted ∧ c = channel := by simpa using h
        simp
    · simp at h
  | register =>
    simp only [step, register] at h
    split at h <;> simp at h
  | _ =>
    simp only [step, handle, dispatch] at h
    repeat' split at h
    all_goals simp at h

/-- A live session keeps its channel. -/
theorem keeps_of_live (es : List Event) (h : Live ((machine ids).emitted es) n c) :
    ∃ session, ((machine ids).run es).sessions n = some session ∧ session.channel = c ∧
      session.holder.Keeps .removeChannel := by
  induction es using List.reverseRecOn with
  | nil => exact absurd h.1 List.not_mem_nil
  | append_singleton es e ih =>
    obtain ⟨haccepted, hnot⟩ := h
    rw [Machine.emitted_snoc] at haccepted hnot
    rw [Machine.run_snoc]
    rw [List.mem_append, not_or] at hnot
    rcases List.mem_append.mp haccepted with haccepted | haccepted
    · obtain ⟨session, hn, rfl, hkeeps⟩ := ih ⟨haccepted, hnot.1⟩
      obtain ⟨session', hn', hevolves⟩ := evolves_step ids (wf_run ids es) hn e
      obtain ⟨hchannel, -, hkeeps'⟩ := keeps_of_evolves .removeChannel trivial hevolves hn hkeeps
      exact ⟨session', hn', hchannel, hkeeps'.resolve_right hnot.2⟩
    · exact ⟨_, sessions_of_accepted haccepted, rfl, .inl rfl⟩

/-- Two live sessions never share a channel. -/
theorem live_unique (es : List Event) (hn : Live ((machine ids).emitted es) n c)
    (hm : Live ((machine ids).emitted es) m c) : n = m := by
  obtain ⟨session, hsession, hc, hkeeps⟩ := keeps_of_live es hn
  obtain ⟨session', hsession', hc', hkeeps'⟩ := keeps_of_live es hm
  exact (wf_run ids es).bound.unique (holders_eq hsession) (holders_eq hsession')
    (hc.trans hc'.symm) hkeeps hkeeps'

end

-- ════════════════════════════════════════════════════════════════════════
-- What the readers look up
-- ════════════════════════════════════════════════════════════════════════

/-- The pointers of a reader: whether it has looked them up, and the session whose flag and
whose mailbox it has found. -/
structure Locals where
  approved : Option (Option ℕ) := none
  mailbox : Option (Option ℕ) := none

/-- The broker, with what its readers have looked up. -/
structure Threads where
  broker : Gmlbroker := {}
  locals : ℕ → Locals := fun _ => {}

namespace Threads

inductive Event where
  /-- `ApprovalRegistry::Flag` of a reader returns -/
  | flag (n : ℕ)
  /-- `MailboxRegistry::Get` of a reader returns -/
  | get (n : ℕ)
  | broker (e : Gmlbroker.Event)

/-- The flag behind a pointer. Without one the session counts as not approved. -/
def load (s : Threads) (p : Option ℕ) : Bool :=
  (p.bind s.broker.sessions).any fun session => session.reader.approved

/-- The mailbox behind a pointer. Without one there is nothing to drain. -/
def mailbox (s : Threads) (p : Option ℕ) : Mailbox :=
  ((p.bind s.broker.sessions).map Session.mailbox).getD {}

/-- A turn of the loop of a reader, with the flag and the mailbox that it has found. -/
def turn (ids : ℕ → ℕ → Bytes) (s : Threads) (n : ℕ) (session : Session) (wake : Wake) :
    ℕ → Option Session :=
  let found := (s.locals n).mailbox.join
  let r := Gmlbroker.turn ids n
    { session with
      reader := { session.reader with approved := s.load (s.locals n).approved.join }
      mailbox := s.mailbox found } wake
  -- the flag and the mailbox of the session itself, which may be others
  let sessions := Function.update s.broker.sessions n (some
    { r with
      reader := { r.reader with approved := session.reader.approved }
      mailbox := session.mailbox })
  match found with
  | none => sessions
  | some m =>
    Function.update sessions m ((sessions m).map fun other => { other with mailbox := r.mailbox })

/-- A reader looks up its flag and its mailbox before its first turn. -/
def step (ids : ℕ → ℕ → Bytes) (s : Threads) : Event → Threads × List Effect
  | .flag n =>
    match s.broker.sessions n with
    | none => (s, [])
    | some session =>
      if session.started = true ∧ (s.locals n).approved = none then
        ({ s with
            locals := Function.update s.locals n
              { s.locals n with approved := some (s.broker.entries session.channel) } }, [])
      else (s, [])
  | .get n =>
    match s.broker.sessions n with
    | none => (s, [])
    | some session =>
      if (s.locals n).approved ≠ none ∧ (s.locals n).mailbox = none then
        ({ s with
            locals := Function.update s.locals n
              { s.locals n with mailbox := some (s.broker.mailboxes session.channel) } }, [])
      else (s, [])
  | .broker (.wake n wake) =>
    match s.broker.sessions n with
    | none => (s, [])
    | some session =>
      if (session.started = true ∧ session.pending = []) ∧ (s.locals n).mailbox ≠ none then
        ({ s with broker := { s.broker with sessions := s.turn ids n session wake } }, [])
      else (s, [])
  | .broker e => ({ s with broker := (s.broker.step ids e).1 }, (s.broker.step ids e).2)

def machine (ids : ℕ → ℕ → Bytes) : Machine Threads Event Effect where
  init := {}
  step := step ids

/-- What a reader has looked up belongs to its own session, and it does nothing before. -/
structure Owns (s : Gmlbroker) (n : ℕ) (locals : Locals) : Prop where
  approved : ∀ p, locals.approved = some p → p = some n
  mailbox : ∀ p, locals.mailbox = some p → locals.approved ≠ none ∧ p = some n
  /-- the flag is looked up when the reader has been started -/
  started : locals.approved ≠ none → ∃ session, s.sessions n = some session ∧ session.started = true
  idle : ∀ session, locals.mailbox = none → s.sessions n = some session →
    session.reader.closed = false ∧ session.pending = []

/-- Every reader has found what is its own. -/
def Own (s : Threads) : Prop := ∀ n, Owns s.broker n (s.locals n)

section

variable {ids : ℕ → ℕ → Bytes} {s : Threads} {n : ℕ} {session : Session}

/-- A reader that has found its own flag and mailbox takes the turn of the broker. -/
theorem turn_own (hn : s.broker.sessions n = some session)
    (happroved : (s.locals n).approved = some (some n))
    (hmailbox : (s.locals n).mailbox = some (some n)) (wake : Wake) :
    s.turn ids n session wake =
      Function.update s.broker.sessions n (some (Gmlbroker.turn ids n session wake)) := by
  have hfound : { session with
      reader := { session.reader with approved := s.load (some n) }
      mailbox := s.mailbox (some n) } = session := by
    simp [load, Threads.mailbox, hn]
  -- the reader leaves its flag alone
  have hflag : (Gmlbroker.turn ids n session wake).reader.approved = session.reader.approved := by
    simp only [Gmlbroker.turn, ReadHandler.step]
    split_ifs
    · rfl
    · exact ReadHandler.approved_turn _
  simp only [turn, happroved, hmailbox, Option.join_some, hfound, Function.update_self,
    Option.map_some, Function.update_idem]
  rw [← hflag]

/-- The entries of a session whose reader runs are its own. -/
theorem found_own (hwf : Wf s.broker) (hn : s.broker.sessions n = some session)
    (hstarted : session.started = true) (hopen : session.reader.closed = false) :
    s.broker.entries session.channel = some n ∧ s.broker.mailboxes session.channel = some n := by
  constructor
  · exact (hwf.approval _ n).mpr ⟨_, holders_eq hn, rfl, .inl hstarted, .inl hopen⟩
  · exact (hwf.mailbox _ n).mpr ⟨_, holders_eq hn, rfl, hstarted, .inl hopen⟩

/-- A reader has nothing to do before its first turn. -/
theorem idle_step {s : Gmlbroker} (hwf : Wf s) {e : Gmlbroker.Event} {session' : Session}
    (hidle : ∀ session, s.sessions n = some session →
      session.reader.closed = false ∧ session.pending = [])
    (hne : ∀ wake, e ≠ .wake n wake) (hn' : (s.step ids e).1.sessions n = some session') :
    session'.reader.closed = false ∧ session'.pending = [] := by
  cases hn : s.sessions n with
  | none =>
    obtain ⟨channel, rfl⟩ := sessions_of_new hn hn'
    exact ⟨rfl, rfl⟩
  | some session =>
    obtain ⟨session₁, hn₁, hevolves⟩ := evolves_step ids hwf hn e
    obtain rfl := Option.some.inj (hn'.symm.trans hn₁)
    have hsession := hidle session hn
    cases hevolves with
    | turned wake hevent => exact absurd hevent (hne wake)
    | performed effect pending hevent hpending => cases hsession.2.symm.trans hpending
    | _ => exact hsession

/-- A step of the broker leaves alone what the readers have looked up. -/
theorem Own.broker (h : Own s) (ids : ℕ → ℕ → Bytes) (hwf : Wf s.broker) (e : Gmlbroker.Event)
    (hwake : ∀ n wake, e = .wake n wake → (s.locals n).mailbox ≠ none) :
    Own { s with broker := (s.broker.step ids e).1 } := by
  refine fun n => ⟨(h n).approved, (h n).mailbox, fun hn => ?_, fun session hn hsession => ?_⟩
  · obtain ⟨session, hsession, hs⟩ := (h n).started hn
    obtain ⟨session', hsession', hevolves⟩ := evolves_step ids hwf hsession e
    refine ⟨session', hsession', ?_⟩
    cases hevolves with
    | started => rfl
    | _ => exact hs
  · refine idle_step hwf (fun session => (h n).idle session hn) ?_ hsession
    rintro wake rfl
    exact hwake n wake rfl hn

/-- A reader looks something up. -/
theorem Own.update {locals : Locals} (h : Own s) (hn : Owns s.broker n locals) :
    Own { s with locals := Function.update s.locals n locals } :=
  (Function.forall_update_iff s.locals fun m locals => Owns s.broker m locals).mpr
    ⟨hn, fun m _ => h m⟩

theorem Own.flag (h : Own s) (hwf : Wf s.broker) (hn : s.broker.sessions n = some session)
    (hready : session.started = true ∧ (s.locals n).approved = none) :
    Own { s with
      locals := Function.update s.locals n
        { s.locals n with approved := some (s.broker.entries session.channel) } } := by
  have hnone : (s.locals n).mailbox = none := by
    by_contra hsome
    obtain ⟨p, hp⟩ := Option.ne_none_iff_exists'.mp hsome
    exact ((h n).mailbox p hp).1 hready.2
  have hopen := ((h n).idle session hnone hn).1
  obtain ⟨hentry, -⟩ := found_own hwf hn hready.1 hopen
  refine h.update ⟨fun p hp => ?_, fun p hp => ?_, fun _ => ⟨session, hn, hready.1⟩, (h n).idle⟩
  · exact (Option.some.inj hp).symm.trans hentry
  · cases hnone.symm.trans hp

theorem Own.get (h : Own s) (hwf : Wf s.broker) (hn : s.broker.sessions n = some session)
    (hready : (s.locals n).approved ≠ none ∧ (s.locals n).mailbox = none) :
    Own { s with
      locals := Function.update s.locals n
        { s.locals n with mailbox := some (s.broker.mailboxes session.channel) } } := by
  have hopen := ((h n).idle session hready.2 hn).1
  obtain ⟨session', hn', hstarted⟩ := (h n).started hready.1
  obtain rfl := Option.some.inj (hn.symm.trans hn')
  obtain ⟨-, hmailbox⟩ := found_own hwf hn hstarted hopen
  refine h.update ⟨(h n).approved, fun p hp => ⟨hready.1, ?_⟩, (h n).started, fun _ hp => ?_⟩
  · exact (Option.some.inj hp).symm.trans hmailbox
  · cases hp

theorem own_init : Own {} := by
  refine fun n => ⟨fun p hp => ?_, fun p hp => ?_, fun h => absurd rfl h, fun session _ hn => ?_⟩
  · cases hp
  · cases hp
  · cases hn

/-- A step leaves the broker alone or is one of its own. -/
theorem own_step (h : Own s) (ids : ℕ → ℕ → Bytes) (hwf : Wf s.broker) (e : Event) :
    Own (step ids s e).1 ∧ ∃ e' : Option Gmlbroker.Event,
      ((step ids s e).1.broker, (step ids s e).2) =
        e'.elim (s.broker, []) (Gmlbroker.step ids s.broker) := by
  cases e with
  | flag n =>
    dsimp only [step]
    split
    · exact ⟨h, none, rfl⟩
    · next session hn =>
      split_ifs with hready
      · exact ⟨h.flag hwf hn hready, none, rfl⟩
      · exact ⟨h, none, rfl⟩
  | get n =>
    dsimp only [step]
    split
    · exact ⟨h, none, rfl⟩
    · next session hn =>
      split_ifs with hready
      · exact ⟨h.get hwf hn hready, none, rfl⟩
      · exact ⟨h, none, rfl⟩
  | broker e =>
    by_cases hwake : ∃ n wake, e = .wake n wake
    · obtain ⟨n, wake, rfl⟩ := hwake
      dsimp only [step]
      split
      · exact ⟨h, none, rfl⟩
      · next session hn =>
        split_ifs with hready
        · obtain ⟨p, hp⟩ := Option.ne_none_iff_exists'.mp hready.2
          obtain ⟨hfetched, rfl⟩ := (h n).mailbox p hp
          obtain ⟨q, hq⟩ := Option.ne_none_iff_exists'.mp hfetched
          obtain rfl := (h n).approved q hq
          have hturn : ({ s.broker with sessions := s.turn ids n session wake }, []) =
              s.broker.step ids (.wake n wake) := by
            simp only [Gmlbroker.step, hn, if_pos hready.1, turn_own hn hq hp]
          have hown := h.broker ids hwf (.wake n wake) (by
            rintro _ _ heq
            cases heq
            exact hready.2)
          rw [← hturn] at hown
          exact ⟨hown, some (.wake n wake), hturn⟩
        · exact ⟨h, none, rfl⟩
    · have hstep : step ids s (.broker e) =
          ({ s with broker := (s.broker.step ids e).1 }, (s.broker.step ids e).2) := by
        cases e with
        | wake n wake => exact absurd ⟨n, wake, rfl⟩ hwake
        | _ => rfl
      rw [hstep]
      exact ⟨h.broker ids hwf e fun n wake heq => absurd ⟨n, wake, heq⟩ hwake, some e, rfl⟩

/-- The broker goes through a run of its own, and the readers have found what is theirs. -/
theorem own_run (ids : ℕ → ℕ → Bytes) (es : List Event) :
    Own ((machine ids).run es) ∧ ∃ es', ((machine ids).run es).broker = (Gmlbroker.machine ids).run es' ∧
      (machine ids).emitted es = (Gmlbroker.machine ids).emitted es' := by
  refine Machine.refines (M := machine ids) (N := Gmlbroker.machine ids) Threads.broker (P := Own)
    rfl own_init ?_ es
  rintro s e ⟨es', hrun⟩ h
  exact own_step h ids (hrun ▸ wf_run ids es') e

end

/-- In every run, a step takes an entry of a session out of the approval registry, the mailboxes
or the channel table only where the reader of that session removes it; the flag and the mailbox
that a reader has found are those of its own session; and two live sessions never share a
channel. -/
theorem handover (ids : ℕ → ℕ → Bytes) (es : List Event) :
    let s := (machine ids).run es
    let log := (machine ids).emitted es
    (∀ e, Spares s.broker (step ids s e).1.broker (step ids s e).2) ∧
      (∀ n p, (s.locals n).approved = some p → p = some n) ∧
      (∀ n p, (s.locals n).mailbox = some p → p = some n) ∧
      ∀ n m c, Live log n c → Live log m c → n = m := by
  intro s log
  obtain ⟨hown, es', hrun, hlog⟩ := own_run ids es
  have hwf : Wf s.broker := by
    show Wf ((machine ids).run es).broker
    rw [hrun]
    exact wf_run ids es'
  refine ⟨fun e => ?_, fun n => (hown n).approved, fun n p hp => ((hown n).mailbox p hp).2,
    fun n m c hn hm => ?_⟩
  · obtain ⟨-, e', he'⟩ := own_step hown ids hwf e
    obtain ⟨hbroker, hout⟩ := Prod.mk.inj he'
    cases e' with
    | none =>
      have hsame : (step ids s e).1.broker = s.broker := hbroker
      rw [hsame]
      exact ⟨fun _ _ h => .inl h, fun _ _ h => .inl h, fun _ _ h => .inl h⟩
    | some e' =>
      have hstep : (step ids s e).1.broker = (s.broker.step ids e').1 := hbroker
      have hemit : (step ids s e).2 = (s.broker.step ids e').2 := hout
      rw [hstep, hemit]
      exact spares_step ids hwf e'
  · have hlog' : log = (Gmlbroker.machine ids).emitted es' := hlog
    rw [hlog'] at hn hm
    exact live_unique es' hn hm

end Threads

end Gmlbroker

end GuacamoleDiode
