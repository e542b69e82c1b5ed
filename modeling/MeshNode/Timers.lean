import MeshNode.Model

/-! # Timers

One-shot timers on a clock that is moved by hand. The armed timers are kept in the order in which
they fire: by deadline, and of equal deadlines the one armed earlier first. Arming a timer again
replaces its deadline, so a stale one never fires. The clock counts in words of 64 bits: a deadline
past its end comes out behind the clock, and the timer is due at once.
-/

namespace MeshNode

inductive Purpose where
  | transition
  | transaction
  deriving DecidableEq

/-- The identity of a timer: one for each purpose of each model instance. -/
structure Timer where
  element : UInt8
  model : Model
  purpose : Purpose
  deriving DecidableEq

structure Alarm where
  timer : Timer
  deadline : Nat
  deriving DecidableEq

/-- A clock in milliseconds, the armed timers in firing order, and every arming so far, latest
first, with the time that was asked for. -/
structure Timers where
  now : Nat
  queue : List Alarm
  armings : List Alarm
  deriving DecidableEq

namespace Timers

def startingAt (now : Nat) : Timers := ⟨now, [], []⟩

/-- How often a timer was armed. -/
def sequence (t : Timers) : Nat := t.armings.length

/-- What the clock shows at a time. -/
def onClock (time : Nat) : Nat := time % UInt64.size

/-- Put an alarm behind all that fire no later. -/
def enqueue (a : Alarm) : List Alarm → List Alarm
  | [] => [a]
  | b :: rest => if b.deadline ≤ a.deadline then b :: enqueue a rest else a :: b :: rest

def isArmed (t : Timers) (timer : Timer) : Bool := t.queue.any (·.timer = timer)

def remaining? (t : Timers) (timer : Timer) : Option Nat :=
  (t.queue.find? (·.timer = timer)).map (·.deadline - t.now)

def cancel (t : Timers) (timer : Timer) : Timers :=
  { t with queue := t.queue.filter (·.timer ≠ timer) }

/-- Arm a timer to fire `after` milliseconds from now, whatever it was armed for before. -/
def arm (t : Timers) (timer : Timer) (after : Nat) : Timers :=
  { t with
    queue := enqueue ⟨timer, onClock (t.now + after)⟩ (t.cancel timer).queue
    armings := ⟨timer, t.now + after⟩ :: t.armings }

def nextDeadline? (t : Timers) : Option Nat := t.queue.head?.map Alarm.deadline

/-- Take out the next timer if it is due by `horizon`, with the clock moved to its deadline. -/
def pop? (t : Timers) (horizon : Nat) : Option (Timer × Timers) :=
  match t.queue with
  | [] => none
  | a :: rest =>
    if a.deadline ≤ horizon then
      some (a.timer, { t with now := max t.now a.deadline, queue := rest })
    else none

def settle (t : Timers) (now : Nat) : Timers := { t with now := max t.now now }

end Timers

end MeshNode
