import GraphMarshal.Binding
import GraphMarshal.Proofs.Ancestry
import Mathlib.Data.List.Induction

/-!
# Declarations that count

The members of a type are collected from its ancestors in the order in which the walk over the
hierarchy left them, and from the type itself after these. Every declaration drops the earlier ones
of its name, so the last one counts: that of the type itself, or that of an ancestor that no other
ancestor with a declaration comes after. Where there is no cycle, none of the others extends it.
-/

namespace GraphMarshal

variable {ms : List Member} {m : Member} {name : String}

/-- The last declaration of a name. -/
def lastOf? (ms : List Member) (name : String) : Option Member :=
  ms.reverse.find? fun m => m.name = name

theorem lastOf?_append (ms ms' : List Member) (name : String) :
    lastOf? (ms ++ ms') name = (lastOf? ms' name).or (lastOf? ms name) := by
  unfold lastOf?
  rw [List.reverse_append, List.find?_append]

theorem lastOf?_flatMap (f : TypeName → List Member) (tys : List TypeName) (name : String) :
    lastOf? (tys.flatMap f) name = tys.reverse.findSome? fun ty => lastOf? (f ty) name := by
  unfold lastOf?
  rw [List.reverse_flatMap, List.find?_flatMap]
  rfl

theorem mem_of_lastOf? (h : lastOf? ms name = some m) : m ∈ ms ∧ m.name = name :=
  ⟨List.mem_reverse.1 (List.mem_of_find?_eq_some h), by simpa using List.find?_some h⟩

theorem lastOf?_eq_none : lastOf? ms name = none ↔ ∀ m ∈ ms, m.name ≠ name := by
  simp [lastOf?]

theorem mem_override {e : Member} : m ∈ override ms e ↔ (m ∈ ms ∧ m.name ≠ e.name) ∨ m = e := by
  simp [override]

theorem mem_foldl_override : m ∈ ms.foldl override [] ↔ lastOf? ms m.name = some m := by
  induction ms using List.reverseRecOn with
  | nil => simp [lastOf?]
  | append_singleton ms e ih =>
    have hlast : lastOf? [e] m.name = if e.name = m.name then some e else none := by
      by_cases h : e.name = m.name <;> simp [lastOf?, h]
    rw [List.foldl_concat, mem_override, ih, lastOf?_append, hlast]
    by_cases hname : e.name = m.name
    · rw [if_pos hname]
      constructor
      · rintro (⟨-, hne⟩ | rfl)
        · exact absurd hname.symm hne
        · rfl
      · exact fun h => .inr (Option.some.inj h).symm
    · rw [if_neg hname]
      constructor
      · rintro (⟨h, -⟩ | rfl)
        · exact h
        · exact absurd rfl hname
      · exact fun h => .inl ⟨h, fun heq => hname heq.symm⟩

namespace Schema

variable {s : Schema} {ty : TypeName}

/-! ## Ancestors -/

theorem mem_inherited {a : TypeName} : a ∈ s.inherited ty ↔
    (s.descriptor ty).inherits ∧ a ≠ ty ∧ s.Extends ty a := by
  have hperm := (s.lineage_left ty).2
  unfold inherited ancestors
  split
  · next hinherits => simp [hinherits, hperm.mem_iff, mem_entered, and_comm]
  · next hinherits => simp [hinherits]

theorem inherited_sublist (s : Schema) (ty : TypeName) :
    (s.inherited ty).Sublist (s.lineage ty).left := by
  unfold inherited
  split
  · exact List.filter_sublist
  · exact List.nil_sublist _

theorem nodup_inherited (s : Schema) (ty : TypeName) : (s.inherited ty).Nodup := by
  obtain ⟨hnodup, hperm⟩ := s.lineage_left ty
  exact (s.inherited_sublist ty).nodup (hperm.nodup_iff.2 hnodup)

/-! ## Members -/

/-- The declaration of a name that counts for a type. -/
def effective? (s : Schema) (ty : TypeName) (name : String) : Option Member :=
  (lastOf? (s.descriptor ty).members name).or
    ((s.inherited ty).reverse.findSome? fun a => lastOf? (s.descriptor a).members name)

theorem name_of_effective? (h : s.effective? ty name = some m) : m.name = name := by
  unfold effective? at h
  rcases Option.or_eq_some_iff.1 h with hown | ⟨-, hfound⟩
  · exact (mem_of_lastOf? hown).2
  · obtain ⟨a, -, hlast⟩ := List.exists_of_findSome?_eq_some hfound
    exact (mem_of_lastOf? hlast).2

theorem mem_effectiveMembers_iff :
    m ∈ s.effectiveMembers ty ↔ s.effective? ty m.name = some m := by
  unfold effectiveMembers effective?
  rw [mem_foldl_override, lastOf?_append, lastOf?_flatMap]

theorem mem_effectiveMembers (hm : m ∈ s.effectiveMembers ty) :
    ∃ a ∈ ty :: s.inherited ty, m ∈ (s.descriptor a).members := by
  have hcounts := mem_effectiveMembers_iff.1 hm
  unfold effective? at hcounts
  rcases Option.or_eq_some_iff.1 hcounts with hown | ⟨-, hfound⟩
  · exact ⟨ty, List.mem_cons_self, (mem_of_lastOf? hown).1⟩
  · obtain ⟨a, ha, hlast⟩ := List.exists_of_findSome?_eq_some hfound
    exact ⟨a, List.mem_cons_of_mem ty (List.mem_reverse.1 ha), (mem_of_lastOf? hlast).1⟩

/-- A declaration of a name counts for a type: the last one of the type itself, else the last one of
a type that it inherits from. Where there is no cycle, no other type with a declaration extends that
one. None counts only where nobody declares the name. -/
structure Effective (s : Schema) (ty : TypeName) (name : String) (o : Option Member) : Prop where
  own : ∀ m, lastOf? (s.descriptor ty).members name = some m → o = some m
  inherited : lastOf? (s.descriptor ty).members name = none → ∀ m, o = some m →
    ∃ x ∈ s.inherited ty, lastOf? (s.descriptor x).members name = some m ∧
      (s.AcyclicOn (s.Extends ty) → ∀ y ∈ s.inherited ty, y ≠ x →
        lastOf? (s.descriptor y).members name ≠ none → ¬s.Extends y x)
  undeclared : o = none → ∀ x ∈ ty :: s.inherited ty, lastOf? (s.descriptor x).members name = none

/-- **Descendants override their ancestors**, also where these are inherited on several ways. -/
theorem effective_effective? (s : Schema) (ty : TypeName) (name : String) :
    s.Effective ty name (s.effective? ty name) := by
  unfold effective?
  refine ⟨fun m hm => ?_, fun hnone m hm => ?_, fun hnone => ?_⟩
  · rw [hm, Option.some_or]
  · rw [hnone, Option.none_or] at hm
    obtain ⟨after, x, before, hrev, hx, hafter⟩ := List.findSome?_eq_some_iff.1 hm
    have hsplit : s.inherited ty = before.reverse ++ x :: after.reverse := by
      rw [← List.reverse_reverse (s.inherited ty), hrev]
      simp
    refine ⟨x, by simp [hsplit], hx, fun hacyclic y hy hne hdeclares => ?_⟩
    have hsorted : (s.inherited ty).Pairwise fun a b => ¬s.Extends a b :=
      (lineage_sorted hacyclic).sublist (s.inherited_sublist ty)
    rw [hsplit] at hy hsorted
    -- No type after this one has a declaration, and none before it extends it.
    rcases List.mem_append.1 hy with hy | hy
    · exact (List.pairwise_append.1 hsorted).2.2 y hy x List.mem_cons_self
    · rcases List.mem_cons.1 hy with rfl | hy
      · exact absurd rfl hne
      · exact absurd (hafter y (List.mem_reverse.1 hy)) hdeclares
  · obtain ⟨hown, hfound⟩ := Option.or_eq_none_iff.1 hnone
    rw [List.findSome?_eq_none_iff] at hfound
    exact List.forall_mem_cons.2 ⟨hown, fun x hx => hfound x (List.mem_reverse.2 hx)⟩

end Schema

end GraphMarshal
