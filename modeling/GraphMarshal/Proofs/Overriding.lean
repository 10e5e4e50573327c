import GraphMarshal.Proofs.Declarations
import GraphMarshal.Proofs.Soundness

/-!
# Inheritance in bindings

The binding of a type has a member for each name whose declaration counts, unless that declaration
is transient or gives no predicate. Members of different names may share a predicate. The first of
them is the one that a look-up finds, at the place noted when it was added.
-/

namespace GraphMarshal.TypeBinding

/-! ## Members by name -/

theorem member?_build (cx : Setting) (n : Namespaces) (ty : TypeName) (iri name : String) :
    (build cx n ty iri).member? name = (cx.schema.effective? ty name).bind
      (MemberBinding.ofMember? cx.config n (namespaceOf (n.expand iri))) := by
  have hof : ∀ e ∈ (build cx n ty iri).members, (cx.schema.effective? ty e.name).bind
      (MemberBinding.ofMember? cx.config n (namespaceOf (n.expand iri))) = some e := by
    intro e he
    obtain ⟨m, hm, hbound⟩ := List.mem_filterMap.1 he
    rw [MemberBinding.name_of_ofMember? hbound, Schema.mem_effectiveMembers_iff.1 hm]
    exact hbound
  cases hfound : (build cx n ty iri).member? name with
  | some e =>
    have hname : e.name = name := by simpa using List.find?_some hfound
    rw [← hof e (List.mem_of_find?_eq_some hfound), hname]
  | none =>
    symm
    rw [Option.bind_eq_none_iff]
    intro m hm
    by_contra hbound
    obtain ⟨e, he⟩ := Option.ne_none_iff_exists'.1 hbound
    have hmname : m.name = name := Schema.name_of_effective? hm
    rw [← hmname] at hm
    have hmem : e ∈ (build cx n ty iri).members :=
      List.mem_filterMap.2 ⟨m, Schema.mem_effectiveMembers_iff.2 hm, he⟩
    have hename : e.name = name := (MemberBinding.name_of_ofMember? he).trans hmname
    exact List.find?_eq_none.1 hfound e hmem (by simpa using hename)

theorem ofMember?_eq_none {c : Config} {n : Namespaces} {base : String} {m : Member}
    (h : m.transient ∨ m.predicate = none ∧ c.inferBindings = false) :
    MemberBinding.ofMember? c n base m = none := by
  unfold MemberBinding.ofMember?
  rcases h with htransient | ⟨hnone, hinfer⟩
  · rw [if_pos htransient]
  · rw [hnone, hinfer]
    simp

/-! ## Members by predicate -/

variable {b : TypeBinding} {p : String}

/-- The place of the first member of each predicate: members are added one after the other, and a
predicate that has a place keeps it. -/
def positions (b : TypeBinding) : Table String Nat :=
  b.members.zipIdx.foldl
    (fun t e => if t.contains e.1.predicate then t else t.insert e.1.predicate e.2) .empty

theorem get?_positions (b : TypeBinding) (p : String) :
    b.positions.get? p = b.members.findIdx? fun m => m.predicate = p := by
  unfold positions
  induction b.members using List.reverseRecOn with
  | nil => rfl
  | append_singleton ms m ih =>
    rw [List.zipIdx_append, List.foldl_append, List.findIdx?_append, ← ih]
    generalize ms.zipIdx.foldl _ Table.empty = t
    simp only [List.zipIdx_singleton, List.foldl_cons, List.foldl_nil, List.findIdx?_singleton]
    unfold Table.contains
    by_cases hp : m.predicate = p
    · cases ht : t.get? p <;> simp [hp, ht]
    · split <;> simp [hp]

/-- Looking a member up by its predicate finds the first one, and no place is out of range. -/
structure Indexed (b : TypeBinding) : Prop where
  lookup : ∀ p, b.memberFor? p = (b.positions.get? p).bind fun i => b.members[i]?
  bounded : ∀ p i, b.positions.get? p = some i → i < b.members.length
  first : ∀ m ∈ b.members, ∃ i e, b.positions.get? m.predicate = some i ∧
    b.members[i]? = some e ∧ b.memberFor? m.predicate = some e ∧ e.predicate = m.predicate ∧
    ∀ j < i, ∀ e', b.members[j]? = some e' → e'.predicate ≠ m.predicate

theorem indexed (b : TypeBinding) : b.Indexed := by
  have hlookup : ∀ p, b.memberFor? p = (b.positions.get? p).bind fun i => b.members[i]? := by
    intro p
    rw [get?_positions]
    exact List.find?_eq_bind_findIdx?_getElem?
  refine ⟨hlookup, fun p i hi => ?_, fun m hm => ?_⟩
  · rw [get?_positions] at hi
    obtain ⟨hlt, -⟩ := List.findIdx?_eq_some_iff_getElem.1 hi
    exact hlt
  · cases hi : b.positions.get? m.predicate with
    | none =>
      rw [get?_positions] at hi
      exact absurd (List.findIdx?_eq_none_iff.1 hi m hm) (by simp)
    | some i =>
      have hfound := hi
      rw [get?_positions] at hfound
      obtain ⟨hlt, hpredicate, hbefore⟩ := List.findIdx?_eq_some_iff_getElem.1 hfound
      have hget : b.members[i]? = some b.members[i] := List.getElem?_eq_getElem hlt
      refine ⟨i, b.members[i], rfl, hget, ?_, by simpa using hpredicate, fun j hj e' he' heq => ?_⟩
      · rw [hlookup, hi]
        exact hget
      · obtain ⟨hjlt, rfl⟩ := List.getElem?_eq_some_iff.1 he'
        exact hbefore j hj (by simpa using heq)

/-! ## Resolution -/

/-- **Resolution inherits and overrides.** The walk over the hierarchy ends in one way and enters
each type once, so a type that inherits takes declarations once from each of its ancestors, whatever
hierarchy there is. Where the type can be resolved, its members have different names, each is the
binding of the declaration that counts for its name, a declaration without a binding leaves its name
without a member, and members are found by their predicates. -/
theorem resolve_overrides (cx : Setting) (ty : TypeName) :
    (∀ l, cx.schema.Visits [ty] {} l ↔ l = cx.schema.lineage ty) ∧
    (cx.schema.lineage ty).entered.Nodup ∧ (cx.schema.inherited ty).Nodup ∧
    (∀ a, a ∈ cx.schema.inherited ty ↔
      (cx.schema.descriptor ty).inherits ∧ a ≠ ty ∧ cx.schema.Extends ty a) ∧
    ∀ (w w' : World) (b : TypeBinding), resolve cx ty w = .ok b w' →
      (b.members.map (·.name)).Nodup ∧
      (∀ name, cx.schema.Effective ty name (cx.schema.effective? ty name) ∧
        b.member? name = (cx.schema.effective? ty name).bind
          (MemberBinding.ofMember? cx.config w'.namespaces (namespaceOf b.classIri)) ∧
        ∀ m, cx.schema.effective? ty name = some m →
          (m.transient ∨ m.predicate = none ∧ cx.config.inferBindings = false) →
          ∀ e ∈ b.members, e.name ≠ name) ∧
      b.Indexed := by
  refine ⟨fun l => ⟨fun h => h.unique (cx.schema.lineage_visits ty), ?_⟩,
    (cx.schema.lineage_left ty).1, cx.schema.nodup_inherited ty, fun a => Schema.mem_inherited,
    fun w w' b hres => ?_⟩
  · rintro rfl
    exact cx.schema.lineage_visits ty
  obtain ⟨iri, -, rfl, -⟩ := Engine.resolveType_eq_ok hres
  refine ⟨nodup_names_build cx w'.namespaces ty iri, fun name => ?_, indexed _⟩
  have hmember := member?_build cx w'.namespaces ty iri name
  refine ⟨cx.schema.effective_effective? ty name, hmember, fun m hm hunbound e he => ?_⟩
  rw [hm] at hmember
  have hnone : (build cx w'.namespaces ty iri).member? name = none := hmember.trans (ofMember?_eq_none hunbound)
  simpa using List.find?_eq_none.1 hnone e he

/-- Robots are agents, which have a name of their own, and items, which have no note. Both are
things. Robots state their code twice. -/
def robotSetting : Setting where
  config := { defaultLanguage := "en" }
  schema := { types := [
    { name := "Thing"
      descriptor := {
        classIri := some "urn:Thing"
        members := [
          { name := "name", kind := .string, predicate := some "urn:name" },
          { name := "note", kind := .string, predicate := some "urn:note" },
          { name := "alias", kind := .string, predicate := some "urn:agentName" }] } },
    { name := "Agent"
      descriptor := {
        parents := ["Thing"]
        members := [{ name := "name", kind := .string, predicate := some "urn:agentName" }] } },
    { name := "Item"
      descriptor := {
        parents := ["Thing"]
        members := [{ name := "note", kind := .string, transient := true }] } },
    { name := "Robot"
      descriptor := {
        classIri := some "urn:Robot", inherits := true
        parents := ["Item", "Agent", "Thing", "Agent"]
        members := [
          { name := "code", kind := .string, predicate := some "urn:code" },
          { name := "code", kind := .int, predicate := some "urn:number" }] } }] }

/-- Robots have the name of agents and not that of things, no note, and the last code stated. Their
alias has the predicate of their name and is found by it. -/
theorem resolve_overrides_robot :
    robotSetting.schema.AcyclicOn (robotSetting.schema.Extends "Robot") ∧
    ∃ b w', resolve robotSetting "Robot" { namespaces := .wellKnown } = .ok b w' ∧
      b.members.map (fun m => (m.name, m.predicate)) =
        [("alias", "urn:agentName"), ("name", "urn:agentName"), ("code", "urn:number")] ∧
      (∀ e ∈ b.members, e.name ≠ "note") ∧
      (b.memberFor? "urn:agentName").map (·.name) = some "alias" ∧
      ∃ x ∈ robotSetting.schema.inherited "Robot",
        lastOf? (robotSetting.schema.descriptor x).members "name" ≠ none ∧
        ∀ y ∈ robotSetting.schema.inherited "Robot", y ≠ x →
          lastOf? (robotSetting.schema.descriptor y).members "name" ≠ none →
          ¬robotSetting.schema.Extends y x := by
  have hacyclic : robotSetting.schema.AcyclicOn (robotSetting.schema.Extends "Robot") := by
    decide +kernel
  obtain ⟨-, -, -, -, hresolved⟩ := resolve_overrides robotSetting "Robot"
  obtain ⟨b, w', hok⟩ : ∃ b w', resolve robotSetting "Robot" { namespaces := .wellKnown } =
      .ok b w' := ⟨_, _, rfl⟩
  obtain ⟨-, hmembers, -⟩ := hresolved _ w' b hok
  refine ⟨hacyclic, b, w', hok, ?_, ?_, ?_, ?_⟩
  · cases hok
    decide +kernel
  · obtain ⟨-, -, habsent⟩ := hmembers "note"
    exact habsent { name := "note", kind := .string, transient := true } (by decide +kernel)
      (.inl rfl)
  · cases hok
    decide +kernel
  · obtain ⟨heffective, -⟩ := hmembers "name"
    have hundeclared : lastOf? (robotSetting.schema.descriptor "Robot").members "name" = none := by
      decide +kernel
    obtain ⟨x, hx, hdeclares, hleast⟩ := heffective.inherited hundeclared
      { name := "name", kind := .string, predicate := some "urn:agentName" } (by decide +kernel)
    exact ⟨x, hx, by rw [hdeclares]; exact nofun, hleast hacyclic⟩

end GraphMarshal.TypeBinding
