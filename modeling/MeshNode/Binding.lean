import MeshNode.Model

/-! # Binding tables

A binding links a state on one element to a state on another and holds a rule for carrying a
change across. A table keeps its bindings in the order in which they were registered, each link at
most once, and never more than its capacity.
-/

namespace MeshNode

/-- Which state follows which, on which elements. -/
structure Link where
  sourceState : BoundState
  targetState : BoundState
  source : UInt8
  target : UInt8
  deriving DecidableEq

structure Binding (α : Type) where
  link : Link
  rule : α

inductive Registration where
  | added
  | alreadyPresent
  | tableFull
  deriving DecidableEq

def Registration.name : Registration → String
  | added => "Added"
  | alreadyPresent => "AlreadyPresent"
  | tableFull => "TableFull"

structure BindingTable (α : Type) where
  bindings : List (Binding α)
  capacity : Nat

namespace BindingTable

variable {α σ : Type}

def maxCapacity : Nat := 30

def withCapacity (capacity : Nat) : BindingTable α := ⟨[], min capacity maxCapacity⟩

def links (t : BindingTable α) : List Link := t.bindings.map Binding.link

/-- Add a binding, unless its link is there already or the table is full. -/
def register (t : BindingTable α) (link : Link) (rule : α) : BindingTable α × Registration :=
  if link ∈ t.links then (t, .alreadyPresent)
  else if t.capacity ≤ t.bindings.length then (t, .tableFull)
  else ({ t with bindings := t.bindings ++ [⟨link, rule⟩] }, .added)

def matching (t : BindingTable α) (source : UInt8) (state : BoundState) : List (Binding α) :=
  t.bindings.filter fun b => b.link.source = source && b.link.sourceState = state

/-- Run an action for each binding that follows a state of an element, in the order of
registration, and count them. -/
def resolve (t : BindingTable α) (source : UInt8) (state : BoundState)
    (act : σ → Binding α → σ) (s : σ) : σ × Nat :=
  t.bindings.foldl (fun (s, count) b =>
    if b.link.source = source && b.link.sourceState = state then (act s b, count + 1)
    else (s, count)) (s, 0)

end BindingTable

end MeshNode
