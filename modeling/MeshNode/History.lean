import MeshNode.Value

/-! # Histories

An instance keeps the latest changes of its present value, up to a limit. Recording a change drops
the oldest ones that no longer fit.
-/

namespace MeshNode

structure Change where
  before : Value
  after : Value
  /-- When the change happened, in milliseconds of the clock. -/
  time : UInt64
  source : Source
  deriving DecidableEq

def Change.isChange (c : Change) : Bool := c.before ≠ c.after

/-- The latest changes, oldest first, and how many are kept. -/
structure History where
  changes : List Change
  limit : UInt64
  deriving DecidableEq

namespace History

def empty (limit : UInt64) : History := ⟨[], limit⟩

/-- The history with one more change, less the oldest ones beyond the limit. -/
def record (h : History) (c : Change) : History :=
  if h.limit = 0 then h
  else { h with changes := h.changes.drop (h.changes.length + 1 - h.limit.toNat) ++ [c] }

def path (h : History) : List Value :=
  (h.changes.head?.map Change.before).toList ++ h.changes.map Change.after

def last? (h : History) : Option Change := h.changes.getLast?

def span? (h : History) : Option Nat := do
  let first ← h.changes.head?
  let last ← h.changes.getLast?
  return last.time.toNat - first.time.toNat

end History

end MeshNode
