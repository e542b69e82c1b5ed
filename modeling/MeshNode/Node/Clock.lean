import MeshNode.Node.Transition

/-! # The passing of time

Moving the clock of a node fires the timers that are due, in the order of their deadlines. A timer
that fires can arm others, but only for later, so each fires at most once in each millisecond. Only
past the end of the clock is a timer that is armed again due at once.
-/

namespace MeshNode.Node

def onTimer (n : Node) (timer : Timer) : Node :=
  match timer.purpose with
  | .transition => n.onTransition timer.element timer.model
  | .transaction => n.modify timer.element timer.model fun i =>
    { i with transaction := i.transaction.forget, deltaOrigin := none }

/-- Fire the timers that are due by a time, at most as many as the first argument says. -/
def fire : Nat → Nat → Node → Node
  | 0, _, n => n
  | fuel + 1, horizon, n =>
    match n.timers.pop? horizon with
    | none => n
    | some (timer, timers) => fire fuel horizon ({ n with timers }.onTimer timer)

/-- The number of timers that a node can arm: two for each instance. -/
def timerCount (n : Node) : Nat := 2 * n.instances.length

/-- Enough firings for an instance whose timers are due again as soon as they have fired: the
memory of a transaction and a delay end once, and a change ends with its steps or, as a move, at the
end of a range of 16 bits. -/
def overdueBound (i : Instance) : Nat := 2 + i.stepping.steps + UInt16.size

/-- Enough firings for all timers to come due by a time: each once in every millisecond, and those
past the end of the clock until the changes that they serve have ended. -/
def firingBound (n : Node) (horizon : Nat) : Nat :=
  n.timers.queue.length + n.timerCount * (horizon + 1 - n.now) +
    n.instances.foldr (fun x k => overdueBound x.2.2 + k) 0

/-- Fire every timer that is due by a time and move the clock there. Should timers still be due
after all these firings, as they can be past the end of the clock, it is left where it is. -/
def advanceTo (n : Node) (horizon : Nat) : Node :=
  let n := fire (n.firingBound horizon) horizon n
  match n.timers.pop? horizon with
  | none => { n with timers := n.timers.settle horizon }
  | some _ => n

def lastMoment : Nat := UInt64.size - 1

def advance (n : Node) (ms : Nat) : Node := n.advanceTo (min (n.now + ms) lastMoment)

def reset (n : Node) : Node :=
  let timers := n.instances.foldl (fun t (e, m, _) =>
    (t.cancel (transitionTimer e m)).cancel (transactionTimer e m)) n.timers
  { n with elements := n.elements.map (·.map (·.map Instance.reset)), timers }

end MeshNode.Node
