import GraphMarshal.Proofs.Ancestry

/-!
# Searching for an ancestor

Whether a type extends another one can be told by a search that stops as soon as it meets the other
one. `Seeks` is this search without a budget. It shares what it has met between the parents of all
types, so it does not look below a type twice, and that a path to the goal is not overlooked this way
has to be shown: a search that comes back has met what the whole walk enters, and this is closed
under parents. So the search always ends, its answer is that of the lineage, and extending is
reachability by steps to declared parents.
-/

namespace GraphMarshal.Schema

variable {s : Schema} {goal ty : TypeName} {tys met met' : List TypeName} {l l' : Lineage}
  {o o' : Option (List TypeName)}

/-- The search for a type among types and below them, depth first and without a budget. It has met
`met` so far. It gives what it has met in the end, or nothing once it has found the type. -/
inductive Seeks (s : Schema) (goal : TypeName) :
    List TypeName → List TypeName → Option (List TypeName) → Prop
  | done {met : List TypeName} : Seeks s goal [] met (some met)
  | found {tys met : List TypeName} : Seeks s goal (goal :: tys) met none
  | skip {ty : TypeName} {tys met : List TypeName} {o : Option (List TypeName)} : ty ≠ goal →
    ty ∈ met → Seeks s goal tys met o → Seeks s goal (ty :: tys) met o
  | within {ty : TypeName} {tys met : List TypeName} : ty ≠ goal → ty ∉ met →
    Seeks s goal (s.parents ty) (met ++ [ty]) none → Seeks s goal (ty :: tys) met none
  | past {ty : TypeName} {tys met met' : List TypeName} {o : Option (List TypeName)} : ty ≠ goal →
    ty ∉ met → Seeks s goal (s.parents ty) (met ++ [ty]) (some met') → Seeks s goal tys met' o →
    Seeks s goal (ty :: tys) met o

theorem Seeks.unique (h : s.Seeks goal tys met o) (h' : s.Seeks goal tys met o') : o = o' := by
  induction h generalizing o' with
  | done => cases h'; rfl
  | found =>
    cases h' with
    | found => rfl
    | skip hne _ _ => exact absurd rfl hne
    | within _ _ _ => rfl
    | past hne _ _ _ => exact absurd rfl hne
  | skip hne hold _ ih =>
    cases h' with
    | found => exact absurd rfl hne
    | skip _ _ h' => exact ih h'
    | within _ hnew _ => exact absurd hold hnew
    | past _ hnew _ _ => exact absurd hold hnew
  | within hne hnew _ ih =>
    cases h' with
    | found => rfl
    | skip _ hold _ => exact absurd hold hnew
    | within _ _ _ => rfl
    | past _ _ hp _ => cases ih hp
  | past hne hnew _ _ ihp ih =>
    cases h' with
    | found => exact absurd rfl hne
    | skip _ hold _ => exact absurd hold hnew
    | within _ _ hp => cases ihp hp
    | past _ _ hp h' => cases ihp hp; exact ih h'

/-- The search beside a walk: while it has not found its goal it has met what the walk has entered,
and it finds its goal if the walk enters it. -/
theorem Visits.seeks (h : s.Visits tys l l') (hgoal : goal ∉ l.entered) :
    s.Seeks goal tys l.entered (if goal ∈ l'.entered then none else some l'.entered) := by
  induction h with
  | done =>
    rw [if_neg hgoal]
    exact .done
  | skip hold _ ih =>
    have hne := ne_of_mem_of_not_mem hold hgoal
    exact .skip hne hold (ih hgoal)
  | @enter ty tys l l₁ l' hnew hp h ihp ih =>
    have hty : ty ∈ l₁.entered := hp.entered (List.mem_append_right _ (List.mem_singleton_self ty))
    by_cases hne : ty = goal
    · subst hne
      rw [if_pos (h.entered hty)]
      exact .found
    have hstart : goal ∉ l.entered ++ [ty] := by simp [hgoal, Ne.symm hne]
    have hparents := ihp hstart
    by_cases hin : goal ∈ l₁.entered
    · rw [if_pos hin] at hparents
      rw [if_pos (h.entered hin)]
      exact .within hne hnew hparents
    · rw [if_neg hin] at hparents
      exact .past hne hnew hparents (ih hin)

theorem isA_seeks (s : Schema) (ty goal : TypeName) : s.Seeks goal [ty] []
    (if s.isA ty goal then none else some (s.lineage ty).entered) := by
  have hseeks : s.Seeks goal [ty] [] (if goal ∈ (s.lineage ty).entered then none
      else some (s.lineage ty).entered) := (s.lineage_visits ty).seeks List.not_mem_nil
  unfold isA
  simpa only [decide_eq_true_eq] using hseeks

/-- **Extending is reachability.** In every hierarchy, with parents that are shared, repeated or
cyclic, the search from a type for another one ends, in one way, and finds it exactly if the type
extends it; that is so if the other one is the type itself or can be reached from it by finitely many
steps to declared parents. So extending is reflexive and transitive. -/
theorem isA_reaches (s : Schema) :
    (∀ ty goal, ∃ o, s.Seeks goal [ty] [] o ∧ (∀ o', s.Seeks goal [ty] [] o' → o' = o) ∧
      (s.isA ty goal ↔ o = none)) ∧
    (∀ ty goal, s.isA ty goal ↔
      Relation.ReflTransGen (fun t parent => parent ∈ s.parents t) ty goal) ∧
    (∀ ty, s.isA ty ty) ∧ ∀ a b c, s.isA a b → s.isA b c → s.isA a c := by
  refine ⟨fun ty goal => ?_, fun ty goal => isA_iff, s.isA_refl, fun a b c => isA_trans⟩
  have hseeks := s.isA_seeks ty goal
  refine ⟨_, hseeks, fun o' h' => h'.unique hseeks, ?_⟩
  cases s.isA ty goal <;> simp

/-- In a diamond with a cycle a type that is met twice hides no path from the other side. -/
example :
    let declared (name : TypeName) (parents : List TypeName) : TypeDecl :=
      { name, descriptor := { parents } }
    let s : Schema := ⟨[declared "Pupil" ["Person", "Member", "Person"],
      declared "Person" ["Agent"], declared "Member" ["Person", "Club"],
      declared "Agent" ["Pupil"], declared "Club" ["Member"]]⟩
    s.isA "Person" "Club" ∧ s.isA "Club" "Agent" ∧ ¬s.isA "Club" "Thing" := by
  decide

end GraphMarshal.Schema
