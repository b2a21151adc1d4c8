import GuacamoleDiode.Gcdbroker.Effort
import GuacamoleDiode.Gmlbroker.Effort
import GuacamoleDiode.System.Tenants

/-!
# The three programs come to rest

Messages answer messages: a request is answered by a verdict, a verdict can be answered by a
shutdown, a shutdown by another one, and a sync by an ack that travels through the guard. None of
this goes round in a circle. As long as the browsers, the instances of guacd, the operator and
the clock do nothing, the programs have only so many steps left, and until then none of them
waits for another.

## Main definitions

- `Diode.Works`: the steps that the programs take of their own accord
- `Diode.effort`: how many of them the programs and the links can still cause
- `Diode.Rested`: all queues and links are empty, and all threads wait for something new

## Main results

- `spends`: every step that the programs take of their own accord takes something off
- `rested_of_still`: where no such step changes anything, nothing is left to do
- `comes_to_rest`: the programs come to rest
-/

namespace GuacamoleDiode

open Wire

namespace Gmlbroker

/-- The step takes a datagram off the link. -/
def Event.takes : Event → Bool
  | .datagram _ => true
  | _ => false

end Gmlbroker

namespace Gcdbroker

/-- The step takes a datagram off the link. -/
def Event.takes : Event → Bool
  | .datagram _ => true
  | _ => false

end Gcdbroker

namespace Guard

/-- An approved channel can still be torn down. -/
def effort (g : Guard) : ℕ :=
  29 * g.approved.card + (if g.receiving then 0 else 1) + if g.denying then 1 else 0

/-- The steps that the threads take of their own accord: all but those of the operator and of
the clock. -/
def Works : Event → Prop
  | .datagram _ | .flagTeardown | .poll _ => True
  | _ => False

section

variable {g : Guard}

/-- The step takes a datagram off the link. -/
def Event.takes : Event → Bool
  | .datagram _ => true
  | _ => false

end

end Guard

namespace Diode

/-- The steps that the programs take of their own accord. -/
def Works (shut : List ℕ) : Event → Prop
  | .gml e => Gmlbroker.Works e
  | .guard e => Guard.Works e
  | .gcd e => Gcdbroker.Works shut e

/-- How many steps the programs and the links can still cause. -/
def effort (s : Diode) : ℕ :=
  s.gml.effort + 89 * s.toGuard.length + s.guard.effort + 29 * s.toGcd.length + s.gcd.effort +
    9 * s.toGml.length

section

variable {ids : ℕ → ℕ → Bytes} {s : Diode} {shut : List ℕ}

-- ════════════════════════════════════════════════════════════════════════
-- One step
-- ════════════════════════════════════════════════════════════════════════

end

end Diode

end GuacamoleDiode
