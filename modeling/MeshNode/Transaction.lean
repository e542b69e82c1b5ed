import MeshNode.Timers

/-! # Remembered transactions

Clients repeat their requests. An instance remembers the source and the number of the last
transaction that it accepted, and recognises a repeat of it until a timer makes it forget.
-/

namespace MeshNode

def unassigned : UInt16 := 0

/-- The last accepted transaction. Source `unassigned` stands for none. -/
structure Transaction where
  source : UInt16
  tid : UInt8
  deriving DecidableEq

inductive Verdict where
  | accept
  | reject
  deriving DecidableEq

namespace Transaction

def none : Transaction := ⟨unassigned, 0⟩

def isRepeat (t : Transaction) (source : UInt16) (tid : UInt8) : Bool :=
  t.source ≠ unassigned && t.source = source && t.tid = tid

def forget (t : Transaction) : Transaction := { t with source := unassigned }

def pair? (t : Transaction) : Option (UInt16 × UInt8) :=
  if t.source = unassigned then .none else some (t.source, t.tid)

/-- Whether to accept a transaction: anything but a repeat. -/
def verdict (t : Transaction) (source : UInt16) (tid : UInt8) : Verdict :=
  if t.isRepeat source tid then .reject else .accept

/-- Accept anything but a repeat: remember it, and arm the timer after which it is forgotten. -/
def check (t : Transaction) (timers : Timers) (timer : Timer) (timeout : Nat) (source : UInt16)
    (tid : UInt8) : Verdict × Transaction × Timers :=
  match t.verdict source tid with
  | .reject => (.reject, t, timers)
  | .accept => (.accept, ⟨source, tid⟩, timers.arm timer timeout)

end Transaction

end MeshNode
