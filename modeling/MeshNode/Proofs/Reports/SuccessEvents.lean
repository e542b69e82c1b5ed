import MeshNode.Proofs.Node.Refusals
import MeshNode.Proofs.Node.WellFormedInstances

/-! # What events say

A successful update gives the state of an instance at the moment at which it is told. Announcements
read it off the instance and a stored value is reported right after it was shown, so both are true.
The report of a light setting takes the lamp for idle, which it need not be; what it says of the
lamp's present value is true even then.
-/

namespace MeshNode

/-- What a successful update says of an instance is so. -/
def Event.IsTrue (n : Node) : Event → Prop
  | .stateUpdate .success e m _ v target phase =>
    ∃ i, n.get? e m = some i ∧ v = i.present ∧ phase = i.phase ∧
      target = if i.phase = .idle then none else some i.target
  | _ => True

namespace Moment

variable {n : Node} {j : Job} {js : List Job}

/-- From one moment to another a listener hears an event. -/
def Hears (c c' : Moment) (l : String) (ev : Event) : Prop :=
  ∃ new, c'.node.log = new ++ c.node.log ∧ .heard l ev ∈ new

/-- Only what is reported may fail to be so at another time. -/
theorem InOrder.head (h : InOrder ⟨n, j :: js⟩) : j.Proper ∨ n.ReportsTruly j := by
  obtain ⟨-, ks, rest, hagenda, hks, hrest⟩ := h
  cases hks with
  | nothing =>
    obtain rfl : j :: js = rest := hagenda
    exact .inl (Job.allProper_cons.mp hrest).1
  | stored s _ hv _ =>
    obtain ⟨rfl, -⟩ := List.cons.inj hagenda
    exact .inl ⟨rfl, hv⟩
  | saved =>
    obtain ⟨rfl, -⟩ := List.cons.inj hagenda
    exact .inl trivial
  | due hk =>
    obtain ⟨rfl, -⟩ := List.cons.inj hagenda
    exact .inr hk

end Moment

namespace Node

variable {n : Node} {j : Job} {js : List Job} {e : UInt8} {m : Model} {s : Source} {v : Value}
  {target : Option Value} {phase : Phase} {P : Node → Call → Prop} {c c' : Moment}

/-- The moment at which the report of a light setting takes a busy lamp for idle. -/
structure TakenForIdle (e : UInt8) (m : Model) (target : Option Value) (phase : Phase)
    (c : Moment) : Prop where
  report : c.agenda.head? = some (.reportLight e .success)
  model : m = .lightness
  busy : ∃ i, c.node.get? e m = some i ∧ i.phase ≠ .idle
  phase : phase = .idle
  target : target = none

theorem phase_eq_idle_of_model (h : n.Regular) {i : Instance} (hi : n.get? e m = some i)
    (hm : m.isTransitional = false) : i.phase = .idle := by
  obtain ⟨hr, hd⟩ := (h.instances e m i hi).idle hm
  exact Instance.phase_eq_idle_iff.mpr (by omega)

/-- A job that tells of a success tells the truth of the present value, and of the rest unless it
takes a busy lamp for idle. -/
theorem event_isTrue (h : Moment.InOrder ⟨n, j :: js⟩)
    (hj : j.event? n = some (.stateUpdate .success e m s v target phase)) :
    n.present? e m = some v ∧ ((Event.stateUpdate .success e m s v target phase).IsTrue n ∨
      TakenForIdle e m target phase ⟨n, j :: js⟩) := by
  cases j with
  | announce e m =>
    obtain ⟨i, hi, heq⟩ := Option.map_eq_some_iff.mp hj
    obtain ⟨-, rfl, rfl, rfl, rfl, rfl, rfl⟩ := Event.stateUpdate.injEq .. ▸ heq
    refine ⟨by rw [present?, hi]; rfl, .inl ⟨i, hi, rfl, rfl, ?_⟩⟩
    simp [Instance.isIdle]
  | reportLight e status =>
    obtain ⟨rfl, rfl, rfl, -, rfl, rfl, rfl⟩ := Event.stateUpdate.injEq .. ▸ Option.some.inj hj
    rcases h.head with hproper | hhosts
    · exact absurd rfl hproper
    · obtain ⟨i, hi⟩ := hosts_iff.mp hhosts
      have hv : n.present? e .lightness = some i.present := by rw [present?, hi]; rfl
      rw [hv]
      refine ⟨rfl, ?_⟩
      -- The report always says idle and gives no target.
      by_cases hidle : i.phase = .idle
      · exact .inl ⟨i, hi, rfl, hidle.symm, (if_pos hidle).symm⟩
      · exact .inr ⟨rfl, rfl, ⟨i, hi, hidle⟩, rfl, rfl⟩
  | reportStored e v =>
    obtain ⟨-, rfl, rfl, -, rfl, rfl, rfl⟩ := Event.stateUpdate.injEq .. ▸ Option.some.inj hj
    rcases h.head with hproper | ⟨hm, hv⟩
    · exact hproper.elim
    · obtain ⟨i, hi, hpresent⟩ := Option.map_eq_some_iff.mp hv
      have hidle := phase_eq_idle_of_model h.node hi hm
      exact ⟨hv, .inl ⟨i, hi, hpresent.symm, hidle.symm, (if_pos hidle).symm⟩⟩
  | carryOut r =>
    simp only [Job.event?] at hj
    split at hj
    next => cases hj
    next hfail =>
      obtain ⟨hsuccess, -⟩ := Event.stateUpdate.injEq .. ▸ Option.some.inj hj
      exact absurd hsuccess hfail
  | call x => cases x <;> cases hj
  | _ => cases hj

theorem log_next (hc : Moment.Next P c c') :
    ∃ new, c'.node.log = new ++ c.node.log ∧ ∀ l ev, .heard l ev ∈ new →
      c'.node.elements = c.node.elements ∧
        ∃ j js, c = ⟨c.node, j :: js⟩ ∧ j.event? c.node = some ev := by
  cases hc with
  | work n j js =>
    cases hj : j.event? n with
    | none =>
      obtain ⟨xs, hlog, hxs⟩ := mute_begin hj
      exact ⟨xs, hlog, fun l ev hmem => absurd hmem (hxs l ev)⟩
    | some ev =>
      rw [begin_of_event hj, emit_eq]
      refine ⟨_, rfl, fun l ev' hmem => ⟨rfl, j, js, rfl, ?_⟩⟩
      obtain ⟨name, -, heq⟩ := Option.map_eq_some_iff.mp (Option.mem_toList.mp hmem)
      rw [hj, (Effect.heard.inj heq).2]
  | call | expiry | passage => exact ⟨[], rfl, by simp⟩

theorem hears_of_mem {c₀ : Moment} {l : String} {ev : Event} (hc : Moment.Later P c₀ c)
    (h : .heard l ev ∈ c.node.log) : .heard l ev ∈ c₀.node.log ∨
      ∃ c₁ c₂, Moment.Later P c₀ c₁ ∧ Moment.Next P c₁ c₂ ∧ Moment.Later P c₂ c ∧
        Moment.Hears c₁ c₂ l ev := by
  induction hc with
  | refl => exact .inl h
  | @tail c c' hlater hnext ih =>
    obtain ⟨new, hlog, -⟩ := log_next hnext
    rcases List.mem_append.mp (hlog ▸ h) with hmem | hmem
    · exact .inr ⟨c, c', hlater, hnext, .refl, new, hlog, hmem⟩
    · refine (ih hmem).imp_right ?_
      rintro ⟨c₁, c₂, hlater₁, hnext₁, hlater₂, hhears⟩
      exact ⟨c₁, c₂, hlater₁, hnext₁, hlater₂.tail hnext, hhears⟩

/-- All that the application hears in a run it hears at some moment of the run. If it hears of a
success at any moment, whatever bindings the node has, the update gives the present value of the
instance as it is, and its phase and its target as well, except for the report of a light setting
while the lamp is busy. -/
theorem success_told (hn : n.IsBuilt) :
    (∀ ops l ev, .heard l ev ∈ (n.run ops).log →
      ∃ c c', Moment.Later (fun _ _ => True) ⟨n, []⟩ c ∧ Moment.Next (fun _ _ => True) c c' ∧
        Moment.Later (fun _ _ => True) c' ⟨n.run ops, []⟩ ∧ Moment.Hears c c' l ev) ∧
    ∀ c c' l e m s v target phase, Moment.Later (fun _ _ => True) ⟨n, []⟩ c →
      Moment.Next (fun _ _ => True) c c' →
      Moment.Hears c c' l (.stateUpdate .success e m s v target phase) →
      c'.node.elements = c.node.elements ∧ c.node.present? e m = some v ∧
        ((Event.stateUpdate .success e m s v target phase).IsTrue c.node ∨
          TakenForIdle e m target phase c) := by
  constructor
  · intro ops l ev hmem
    refine (hears_of_mem (later_of_run _ ops) hmem).resolve_left fun hbefore => ?_
    simp [hn.log] at hbefore
  · rintro c c' l e m s v target phase hc hnext ⟨new, hlog, hmem⟩
    obtain ⟨new', hlog', hnew⟩ := log_next hnext
    obtain rfl : new = new' := List.append_cancel_right (hlog.symm.trans hlog')
    obtain ⟨helements, j, js, heq, hj⟩ := hnew l _ hmem
    have horder := hn.inOrder hc
    rw [heq] at horder
    exact ⟨helements, heq ▸ event_isTrue horder hj⟩

def defaulted (n : Node) (e : UInt8) (default : Lightness) : Node :=
  (n.modify e .lightness fun i => { i with light := { i.light with default } }).save e .lightness

theorem later_defaulted (hh : n.hosts e .lightness) (l : Lightness) :
    Moment.Later (fun _ _ => True) ⟨n, []⟩ ⟨n.defaulted e l, [.reportLight e .success]⟩ := by
  have hbegin : n.begin (.call (.setLightDefault e l)) =
      ⟨n.modify e .lightness fun i => { i with light := { i.light with default := l } },
        [.save e .lightness, .reportLight e .success]⟩ :=
    if_pos hh
  refine .tail (.tail (.single (.call (.setLightDefault e l) trivial)) (.work _ _ _)) ?_
  rw [hbegin]
  exact .work _ (.save e .lightness) _

def risingLamp : Node :=
  lamp.run [.call (.listen .lightness "lamps"),
    .call (.request (.application 0 (.lightness 20000) 4000 0))]

theorem later_risingLamp : Moment.Later (fun _ _ => True) ⟨lamp, []⟩
    ⟨risingLamp.defaulted 0 100, [.reportLight 0 .success]⟩ :=
  (later_of_run _ _).trans (later_defaulted (by decide +kernel) 100)

/-- Its default lightness is set, and the application hears that it is idle, and of no target. -/
theorem hears_risingLamp :
    let c : Moment := ⟨risingLamp.defaulted 0 100, [.reportLight 0 .success]⟩
    Moment.Hears c ⟨(c.node.begin (.reportLight 0 .success)).node, []⟩ "lamps"
      (.stateUpdate .success 0 .lightness .application (.lightness 0) none .idle) :=
  ⟨[_], by decide +kernel, List.mem_singleton_self _⟩

theorem not_isTrue_risingLamp : ¬ (Event.stateUpdate .success 0 .lightness .application
    (.lightness 0) none .idle).IsTrue (risingLamp.defaulted 0 100) := by
  rintro ⟨i, hi, -, hidle, -⟩
  have hphase : ((risingLamp.defaulted 0 100).get? 0 .lightness).map Instance.phase =
      some .transitioning := by decide +kernel
  rw [hi] at hphase
  cases hidle.trans (Option.some.inj hphase)

theorem success_told_lamp :
    let c : Moment := ⟨risingLamp.defaulted 0 100, [.reportLight 0 .success]⟩
    let c' : Moment := ⟨(c.node.begin (.reportLight 0 .success)).node, []⟩
    lamp.IsBuilt ∧ Moment.Later (fun _ _ => True) ⟨lamp, []⟩ c ∧
      Moment.Next (fun _ _ => True) c c' ∧
      Moment.Hears c c' "lamps"
        (.stateUpdate .success 0 .lightness .application (.lightness 0) none .idle) ∧
      c'.node.elements = c.node.elements ∧ c.node.present? 0 .lightness = some (.lightness 0) ∧
      TakenForIdle 0 .lightness none .idle c := by
  intro c c'
  have hnext : Moment.Next (fun _ _ => True) c c' := .work _ _ _
  obtain ⟨helements, hv, htold⟩ := (success_told isBuilt_lamp).2 c c' _ _ _ _ _ _ _
    later_risingLamp hnext hears_risingLamp
  refine ⟨isBuilt_lamp, later_risingLamp, hnext, hears_risingLamp, helements, hv, ?_⟩
  exact htold.resolve_left not_isTrue_risingLamp

/-- The application hears that the lamp is idle, and of no target. -/
theorem untrue_lamp : ¬ ∀ (n : Node) (c c' : Moment) (l : String) (ev : Event), n.IsBuilt →
    Moment.Later (fun _ _ => True) ⟨n, []⟩ c → Moment.Next (fun _ _ => True) c c' →
    Moment.Hears c c' l ev → ev.IsTrue c.node :=
  fun h => not_isTrue_risingLamp
    (h lamp _ _ _ _ isBuilt_lamp later_risingLamp (.work _ _ []) hears_risingLamp)

end Node

end MeshNode
