import MeshNode.Node.Rules
import MeshNode.Proofs.Node.StateChanges

/-! # What the rules of the helpers ask for

The helpers register bindings of six kinds. Whatever a rule of theirs asks for is asked at once and
in the name of a binding, of an instance that the binding reaches.
-/

namespace MeshNode

def Link.StartsAt (l : Link) (e : UInt8) (m : Model) : Prop :=
  l.source = e ∧ m.boundState? = some l.sourceState

/-- The instance has the state that the binding is to change, or it is a level that goes along with
a lightness at power-up. -/
def Link.Reaches (l : Link) (e : UInt8) (m : Model) : Prop :=
  l.target = e ∧ (m.boundState? = some l.targetState ∨
    l.sourceState = .onPowerUp ∧ l.targetState = .lightnessActual ∧ m = .level)

instance (l : Link) (e : UInt8) (m : Model) : Decidable (l.StartsAt e m) :=
  inferInstanceAs (Decidable (_ ∧ _))

instance (l : Link) (e : UInt8) (m : Model) : Decidable (l.Reaches e m) :=
  inferInstanceAs (Decidable (_ ∧ _))

/-- The helpers register the binding. -/
inductive Binding.IsHelper : Binding Rule → Prop where
  | lightnessToLevel (a b : UInt8) :
    IsHelper ⟨⟨.lightnessActual, .level, a, b⟩, Rule.lightnessToLevel⟩
  | levelToLightness (a b : UInt8) :
    IsHelper ⟨⟨.level, .lightnessActual, a, b⟩, Rule.levelToLightness⟩
  | lightnessToOnOff (a b : UInt8) :
    IsHelper ⟨⟨.lightnessActual, .onOff, a, b⟩, Rule.lightnessToOnOff⟩
  | onOffToLightness (a b : UInt8) :
    IsHelper ⟨⟨.onOff, .lightnessActual, a, b⟩, Rule.onOffToLightness⟩
  | onPowerUpToOnOff (a b : UInt8) :
    IsHelper ⟨⟨.onPowerUp, .onOff, a, b⟩, Rule.onPowerUpToOnOff⟩
  | onPowerUpToLightness (a b : UInt8) :
    IsHelper ⟨⟨.onPowerUp, .lightnessActual, a, b⟩, Rule.onPowerUpToLightness⟩

variable {elements : List Element} {b : Binding Rule} {l : Link} {target : UInt8} {v w : Value}
  {r : Request}

/-- The request is one of a binding, of an instance that the binding reaches if the elements host
values of their models. -/
def Link.Asks (l : Link) (elements : List Element) (target : UInt8) (r : Request) : Prop :=
  ∃ w, r = .bound target w ∧
    ((∀ e m i, instance? elements e m = some i → i.Typed m) → l.Reaches l.target w.model)

theorem Link.asks_bound (hw : w.model.boundState? = some l.targetState)
    (hr : r ∈ [Request.bound target w]) : l.Asks elements target r :=
  ⟨w, List.mem_singleton.mp hr, fun _ => ⟨rfl, .inl hw⟩⟩

theorem Binding.IsHelper.asks (hb : b.IsHelper) (hr : r ∈ b.rule elements target v) :
    b.link.Asks elements target r := by
  cases hb with
  | lightnessToLevel =>
    simp only [Rule.lightnessToLevel] at hr
    split at hr
    · exact Link.asks_bound rfl hr
    · cases hr
  | levelToLightness =>
    simp only [Rule.levelToLightness] at hr
    split at hr
    · exact Link.asks_bound rfl hr
    · cases hr
  | lightnessToOnOff =>
    simp only [Rule.lightnessToOnOff] at hr
    split at hr
    · exact Link.asks_bound rfl hr
    · cases hr
  | onOffToLightness =>
    simp only [Rule.onOffToLightness] at hr
    split at hr
    · exact Link.asks_bound rfl hr
    · exact Link.asks_bound rfl hr
    · cases hr
  | onPowerUpToOnOff =>
    simp only [Rule.onPowerUpToOnOff] at hr
    split at hr
    · exact Link.asks_bound rfl hr
    · exact Link.asks_bound rfl hr
    · split at hr
      next i hi =>
        refine ⟨i.target, List.mem_singleton.mp hr, fun ht => ⟨rfl, .inl ?_⟩⟩
        rw [(ht target .onOff i hi).target]
        rfl
      next => cases hr
    · cases hr
  | onPowerUpToLightness =>
    simp only [Rule.onPowerUpToLightness] at hr
    split at hr
    · split at hr
      · rcases List.mem_cons.mp hr with hr | hr
        · exact Link.asks_bound rfl (List.mem_singleton.mpr hr)
        · split at hr
          · exact ⟨_, List.mem_singleton.mp hr, fun _ => ⟨rfl, .inr ⟨rfl, rfl, rfl⟩⟩⟩
          · cases hr
      · cases hr
    · cases hr

end MeshNode
