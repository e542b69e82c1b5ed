import Mathlib.Data.List.Induction
import MeshNode.Node.Transition

/-! # Binding tables keep the first registrations

A table is what came of its registrations. It holds the links that were registered first, as far as
its capacity goes, each with the rule that it was first registered with, and a change of a state
runs through the entries for that state once each, in the order of registration.
-/

namespace MeshNode

namespace BindingTable

variable {α σ : Type} {t : BindingTable α} {b : Binding α} {calls : List (Binding α)}
  {capacity : Nat}

/-- A table of some capacity after some registrations, with the answers to them. -/
def enrol (capacity : Nat) (calls : List (Binding α)) : BindingTable α × List Registration :=
  calls.foldl (fun (t, answers) b =>
    ((t.register b.link b.rule).1, answers ++ [(t.register b.link b.rule).2]))
    (withCapacity capacity, [])

/-- The distinct links of some registrations in the order of their first occurrence, as many as a
table of some capacity can hold. -/
def firstLinks (capacity : Nat) (calls : List (Binding α)) : List Link :=
  (calls.map Binding.link).eraseDups.take (min capacity maxCapacity)

/-- What is answered to the registration of a link after some others. -/
def answerTo (capacity : Nat) (calls : List (Binding α)) (link : Link) : Registration :=
  if link ∈ firstLinks capacity calls then .alreadyPresent
  else if (firstLinks capacity calls).length = min capacity maxCapacity then .tableFull
  else .added

/-! ## First occurrences -/

theorem firstLinks_nil : firstLinks capacity ([] : List (Binding α)) = [] := by
  simp [firstLinks]

theorem length_firstLinks_le : (firstLinks capacity calls).length ≤ min capacity maxCapacity :=
  List.length_take_le ..

theorem eraseDups_concat {links : List Link} {link : Link} :
    (links ++ [link]).eraseDups =
      if link ∈ links then links.eraseDups else links.eraseDups ++ [link] := by
  rw [List.eraseDups_append]
  split
  next h => simp [List.removeAll, h]
  next h => simp [List.removeAll, h, List.eraseDups_cons]

theorem answerTo_eq_added_iff {link : Link} : answerTo capacity calls link = .added ↔
    link ∉ calls.map Binding.link ∧
      (calls.map Binding.link).eraseDups.length < min capacity maxCapacity := by
  rw [← List.mem_eraseDups, answerTo, firstLinks, List.length_take]
  generalize (calls.map Binding.link).eraseDups = distinct
  generalize min capacity maxCapacity = cap
  rcases Nat.lt_or_ge distinct.length cap with hlt | hge
  · rw [List.take_of_length_le (Nat.le_of_lt hlt), Nat.min_eq_right (Nat.le_of_lt hlt),
      if_neg (Nat.ne_of_lt hlt)]
    split <;> simp [*]
  · rw [Nat.min_eq_left hge, if_pos rfl]
    split <;> simp [hge]

/-- A registration extends the first links exactly if it is answered so. -/
theorem firstLinks_concat : firstLinks capacity (calls ++ [b]) =
    if answerTo capacity calls b.link = .added then firstLinks capacity calls ++ [b.link]
    else firstLinks capacity calls := by
  rw [firstLinks, List.map_append, List.map_singleton, eraseDups_concat]
  simp only [answerTo_eq_added_iff, firstLinks]
  by_cases hmem : b.link ∈ calls.map Binding.link
  · simp only [hmem, if_true, not_true_eq_false, false_and, if_false]
  simp only [hmem, if_false, not_false_eq_true, true_and]
  split
  next hlt =>
    rw [List.take_of_length_le (Nat.le_of_lt hlt)]
    exact List.take_of_length_le (by rw [List.length_append]; exact hlt)
  next hfull => exact List.take_append_of_le_length (Nat.not_lt.mp hfull)

/-! ## What the registrations leave -/

@[simp] theorem length_links : t.links.length = t.bindings.length := List.length_map _

theorem capacity_register (link : Link) (rule : α) :
    (t.register link rule).1.capacity = t.capacity := by
  unfold register
  split
  · rfl
  · split <;> rfl

theorem register_answer (link : Link) (rule : α) : (t.register link rule).2 =
    if link ∈ t.links then .alreadyPresent
    else if t.capacity ≤ t.bindings.length then .tableFull else .added := by
  unfold register
  split
  · rfl
  · split <;> rfl

theorem bindings_register (link : Link) (rule : α) : (t.register link rule).1.bindings =
    if (t.register link rule).2 = .added then t.bindings ++ [⟨link, rule⟩] else t.bindings := by
  unfold register
  split
  · rfl
  · split <;> rfl

theorem enrol_concat : enrol capacity (calls ++ [b]) =
    (((enrol capacity calls).1.register b.link b.rule).1,
      (enrol capacity calls).2 ++ [((enrol capacity calls).1.register b.link b.rule).2]) := by
  simp [enrol]

theorem length_answers : (enrol capacity calls).2.length = calls.length := by
  induction calls using List.reverseRecOn with
  | nil => rfl
  | append_singleton calls b ih => simp [enrol_concat, ih]

theorem capacity_enrol : (enrol capacity calls).1.capacity = min capacity maxCapacity := by
  induction calls using List.reverseRecOn with
  | nil => rfl
  | append_singleton calls b ih => rw [enrol_concat, capacity_register, ih]

theorem answer_next (h : (enrol capacity calls).1.links = firstLinks capacity calls) :
    ((enrol capacity calls).1.register b.link b.rule).2 = answerTo capacity calls b.link := by
  have hle : (firstLinks capacity calls).length ≤ min capacity maxCapacity := length_firstLinks_le
  have hfull : min capacity maxCapacity ≤ (firstLinks capacity calls).length ↔
      (firstLinks capacity calls).length = min capacity maxCapacity := by omega
  rw [register_answer, answerTo, ← length_links, capacity_enrol, h]
  simp only [hfull]

theorem links_enrol : (enrol capacity calls).1.links = firstLinks capacity calls := by
  induction calls using List.reverseRecOn with
  | nil => exact firstLinks_nil.symm
  | append_singleton calls b ih =>
    rw [firstLinks_concat, enrol_concat, links, bindings_register, answer_next ih, ← ih]
    split <;> simp [links]

theorem answers_concat : (enrol capacity (calls ++ [b])).2 =
    (enrol capacity calls).2 ++ [answerTo capacity calls b.link] := by
  rw [enrol_concat, answer_next links_enrol]

theorem bindings_enrol : (enrol capacity calls).1.bindings =
    ((calls.zip (enrol capacity calls).2).filter (·.2 = .added)).map Prod.fst := by
  induction calls using List.reverseRecOn with
  | nil => rfl
  | append_singleton calls b ih =>
    rw [enrol_concat, bindings_register, ih, List.zip_append length_answers.symm]
    split <;> simp [*]

theorem find?_of_mem_enrol (hb : b ∈ (enrol capacity calls).1.bindings) :
    calls.find? (·.link = b.link) = some b := by
  induction calls using List.reverseRecOn with
  | nil => simp [enrol, withCapacity] at hb
  | append_singleton calls b' ih =>
    rw [List.find?_append]
    rw [enrol_concat, bindings_register, answer_next links_enrol] at hb
    split at hb
    next hadded =>
      rcases List.mem_append.mp hb with hb | hb
      · rw [ih hb, Option.some_or]
      · obtain rfl : b = b' := by simpa using hb
        have hnone : calls.find? (·.link = b.link) = none := by
          simpa [List.find?_eq_none] using (answerTo_eq_added_iff.mp hadded).1
        simp [hnone]
    · rw [ih hb, Option.some_or]

/-! ## Running through the entries -/

/-- Running a table for a state is running through the bindings that follow it, one after
another. -/
theorem resolve_eq (t : BindingTable α) (source : UInt8) (state : BoundState)
    (act : σ → Binding α → σ) (s : σ) :
    t.resolve source state act s =
      ((t.matching source state).foldl act s, (t.matching source state).length) := by
  suffices h : ∀ (bindings : List (Binding α)) (s : σ) (count : Nat),
      bindings.foldl (fun done b =>
        if b.link.source = source && b.link.sourceState = state then (act done.1 b, done.2 + 1)
        else done) (s, count) =
      ((bindings.filter fun b => b.link.source = source && b.link.sourceState = state).foldl act s,
        count + (bindings.filter fun b =>
          b.link.source = source && b.link.sourceState = state).length) by
    rw [matching, ← Nat.zero_add (List.length _)]
    exact h t.bindings s 0
  intro bindings
  induction bindings with
  | nil => simp
  | cons b rest ih =>
    intro s count
    by_cases hb : (b.link.source = source && b.link.sourceState = state) = true
    · simp only [List.foldl_cons, List.filter_cons, hb, if_true, List.length_cons]
      rw [ih, Nat.add_assoc, Nat.add_comm 1]
    · simp only [List.foldl_cons, List.filter_cons, hb]
      exact ih s count

/-- A table holds the links that were registered first, in order and as far as its capacity goes,
each with the rule of the registration that was answered as added, which is the first of its link.
What is answered depends only on the links so far, and a change runs through the entries for its
state, in order and once each. -/
theorem enrol_keeps_first (capacity : Nat) (calls : List (Binding α)) (source : UInt8)
    (state : BoundState) (act : σ → Binding α → σ) (s : σ) :
    let table := (enrol capacity calls).1
    let answers := (enrol capacity calls).2
    let due := table.bindings.filter fun b =>
      b.link.source = source ∧ b.link.sourceState = state
    table.links = (calls.map Binding.link).eraseDups.take (min capacity 30) ∧
    table.bindings = ((calls.zip answers).filter (·.2 = .added)).map Prod.fst ∧
    (∀ b ∈ table.bindings, calls.find? (·.link = b.link) = some b) ∧
    (∀ b, (enrol capacity (calls ++ [b])).2 = answers ++
      [if b.link ∈ table.links then .alreadyPresent
        else if table.bindings.length = min capacity 30 then .tableFull else .added]) ∧
    table.resolve source state act s = (due.foldl act s, due.length) ∧
    table.resolve source state act s =
      ((table.matching source state).foldl act s, (table.matching source state).length) := by
  intro table answers due
  have hdue : table.matching source state = due := by
    simp only [matching, due, Bool.decide_and]
  refine ⟨links_enrol, bindings_enrol, fun b hb => find?_of_mem_enrol hb, fun b => ?_,
    hdue ▸ resolve_eq table source state act s, resolve_eq table source state act s⟩
  rw [answers_concat, answerTo, ← links_enrol, length_links]
  rfl

end BindingTable

/-- The bindings that follow a value within a node are run as its table runs them, one level
deeper. -/
theorem Node.followBindings_eq_resolve {n : Node} {room : Nat} {e : UInt8} {m : Model} {v : Value}
    {state : BoundState} (hstate : m.boundState? = some state)
    (hroom : n.depth < n.config.maxBindDepth.toNat) (hne : n.bindings.matching e state ≠ []) :
    followBindings (room + 1) n e m v =
      let deeper := (n.bindings.resolve e state (obey (followBindings room) v)
        { n with depth := n.depth + 1 }).1
      { deeper with depth := deeper.depth - 1 } := by
  simp only [followBindings, hstate, hne, false_or, Nat.not_le.mpr hroom, if_false,
    BindingTable.resolve_eq]

end MeshNode
