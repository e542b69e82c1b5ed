import MeshNode.Model

/-! # Families over the models

A value for each of the models.
-/

namespace MeshNode

structure PerModel (α : Type) where
  onOff : α
  level : α
  defaultTransition : α
  powerOnOff : α
  lightness : α
  deriving DecidableEq

namespace PerModel

variable {α β : Type}

def replicate (a : α) : PerModel α := ⟨a, a, a, a, a⟩

def get (p : PerModel α) : Model → α
  | .onOff => p.onOff
  | .level => p.level
  | .defaultTransition => p.defaultTransition
  | .powerOnOff => p.powerOnOff
  | .lightness => p.lightness

def set (p : PerModel α) (m : Model) (a : α) : PerModel α :=
  match m with
  | .onOff => { p with onOff := a }
  | .level => { p with level := a }
  | .defaultTransition => { p with defaultTransition := a }
  | .powerOnOff => { p with powerOnOff := a }
  | .lightness => { p with lightness := a }

def map (f : α → β) (p : PerModel α) : PerModel β :=
  ⟨f p.onOff, f p.level, f p.defaultTransition, f p.powerOnOff, f p.lightness⟩

@[simp] theorem get_replicate (a : α) (m : Model) : (replicate a).get m = a := by cases m <;> rfl

@[simp] theorem get_set_self (p : PerModel α) (m : Model) (a : α) : (p.set m a).get m = a := by
  cases m <;> rfl

theorem get_set (p : PerModel α) (m m' : Model) (a : α) :
    (p.set m a).get m' = if m' = m then a else p.get m' := by
  cases m <;> cases m' <;> rfl

@[simp] theorem get_map (f : α → β) (p : PerModel α) (m : Model) :
    (p.map f).get m = f (p.get m) := by cases m <;> rfl

end PerModel

end MeshNode
