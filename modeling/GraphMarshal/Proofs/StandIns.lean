import GraphMarshal.Proofs.Declarations
import GraphMarshal.Proofs.Failures
import GraphMarshal.Source.Memory

/-!
# Stand-ins for abstract types

The binding of a type has the members that the type declares itself and, where it inherits, those
of its ancestors. A stand-in for an abstract type knows the former only: it takes any value for them
and gives it back, and it refuses every value for an inherited member, so that a reading fails that
has one to store.
-/

namespace GraphMarshal

/-! ## Declarations -/

namespace Schema

variable {s : Schema} {ty : TypeName} {m : Member}

theorem declares_iff {name : String} :
    s.declares ty name ↔ ∃ e ∈ (s.descriptor ty).members, e.name = name := by
  unfold declares
  rw [List.any_eq_true]
  exact exists_congr fun e => and_congr_right fun _ => decide_eq_true_iff

theorem mem_members_of_declares (hm : m ∈ s.effectiveMembers ty) (hd : s.declares ty m.name) :
    m ∈ (s.descriptor ty).members := by
  have hcounts : s.effective? ty m.name = some m := mem_effectiveMembers_iff.1 hm
  obtain ⟨e, he, hname⟩ := declares_iff.1 hd
  cases hown : lastOf? (s.descriptor ty).members m.name with
  | none => exact absurd hname (lastOf?_eq_none.1 hown e he)
  | some m' =>
    obtain rfl : m' = m :=
      Option.some.inj (((s.effective_effective? ty m.name).own m' hown).symm.trans hcounts)
    exact (mem_of_lastOf? hown).1

theorem inherits_of_undeclared (hm : m ∈ s.effectiveMembers ty)
    (hd : s.declares ty m.name = false) : (s.descriptor ty).inherits := by
  obtain ⟨a, ha, hma⟩ := mem_effectiveMembers hm
  rcases List.mem_cons.1 ha with rfl | ha
  · rw [declares_iff.2 ⟨m, hma, rfl⟩] at hd
    cases hd
  · exact (mem_inherited.1 ha).1

end Schema

theorem TypeBinding.exists_member_of_resolve {cx : Setting} {w w' : World} {ty : TypeName}
    {b : TypeBinding} (hres : TypeBinding.resolve cx ty w = .ok b w') {m : MemberBinding}
    (hm : m ∈ b.members) :
    ∃ e ∈ cx.schema.effectiveMembers ty, e.name = m.name ∧ e.collection = m.collection := by
  obtain ⟨iri, -, rfl, -⟩ := Engine.resolveType_eq_ok hres
  obtain ⟨e, he, hof⟩ := List.mem_filterMap.1 hm
  unfold MemberBinding.ofMember? at hof
  split at hof
  · cases hof
  · obtain ⟨p, -, rfl⟩ := Option.map_eq_some_iff.1 hof
    exact ⟨e, he, rfl, rfl⟩

theorem Schema.declares_of_collection {s : Schema} {ty : TypeName} {name : String}
    (h : s.declaresCollection ty name) : s.declares ty name := by
  obtain ⟨e, he, hc⟩ := List.any_eq_true.1 h
  rw [Bool.and_eq_true, decide_eq_true_eq] at hc
  exact declares_iff.2 ⟨e, he, hc.2⟩

theorem TypeBinding.declaresCollection_of_resolve {cx : Setting} {w w' : World}
    {ty : TypeName} {b : TypeBinding} (hres : TypeBinding.resolve cx ty w = .ok b w')
    {m : MemberBinding} (hm : m ∈ b.members) (hd : cx.schema.declares ty m.name)
    (hcoll : m.collection) : cx.schema.declaresCollection ty m.name := by
  obtain ⟨e, he, hname, hec⟩ := exists_member_of_resolve hres hm
  have hown := Schema.mem_members_of_declares he (hname ▸ hd)
  exact List.any_eq_true.2 ⟨e, hown, by simp [hname, hec, hcoll]⟩

/-! ## Records -/

namespace Record

variable {s : Schema} {h : Heap} {r : RecordRef} {rec : Record} {name : String} {v : Value}

theorem set_standIn (habs : s.isAbstract rec.type) :
    rec.set s h r name v = if s.declares rec.type name then .ok (rec.store name v)
      else .error (.failed (.unknownMember name)) := by
  unfold set
  rw [if_pos habs]

theorem get?_standIn (habs : s.isAbstract rec.type) :
    rec.get? s name = rec.stored name (s.declaresCollection rec.type name) := by
  unfold get?
  rw [if_pos habs]

theorem get?_store_standIn (habs : s.isAbstract rec.type) (other : String) :
    (rec.store name v).get? s other = if name = other then some v else rec.get? s other := by
  have habs' : s.isAbstract (rec.store name v).type := habs
  rw [get?_standIn habs, get?_standIn habs']
  unfold stored store
  rw [Table.get?_insert]
  by_cases heq : name = other
  · rw [if_pos heq, if_pos heq]
  · rw [if_neg heq, if_neg heq]

theorem get?_unset_standIn (habs : s.isAbstract rec.type) (hnone : rec.values.get? name = none) :
    rec.get? s name = if s.declaresCollection rec.type name then some (.list []) else none := by
  rw [get?_standIn habs]
  unfold stored
  rw [hnone]

end Record

namespace Engine

/-! ## Readings -/

theorem MemberFault.ne_unassigned {cx : Setting} {src : Source} {read : Reader} {rd : Reading}
    {m : MemberBinding} {N : MappingError → Prop} {objects : List Term} {member : String}
    {id : Resource} {e : AssignError} :
    ¬ MemberFault cx src read rd m N objects (.invalid (.unassignedMember member id e)) := by
  have hterm : ∀ {t}, ¬ TermFault cx m N t (.invalid (.unassignedMember member id e)) := by
    intro t h
    cases h with
    | undecoded ht hdecode =>
      unfold Literal.decode at hdecode
      split at hdecode
      · split at hdecode
        · cases hdecode
        · split at hdecode <;> cases hdecode
      · cases hdecode
    | flawed _ _ hflaw => cases hflaw
  intro h
  cases h with
  | single _ _ ht => exact hterm ht
  | collection _ hc =>
    cases hc with
    | unserved hr =>
      obtain ⟨f, hf, -⟩ := hr
      cases hf
    | element _ hel =>
      cases hel with
      | term ht => exact hterm ht

theorem ReadingFault.refused_of_unassigned {cx : Setting} {source : SourceRef} {read : Reader}
    {N : MappingError → Prop} {w : World} {ty : TypeName} {id key : Resource} {member : String}
    {e : AssignError}
    (h : ReadingFault cx source read N w ty id (.invalid (.unassignedMember member key e))) :
    ∃ rd b m, Reaches cx source w ty id rd b ∧ m ∈ b.members ∧ m.name = member ∧ key = id ∧
      Refuses cx (settledType cx w rd ty) m e := by
  generalize hflaw : MappingError.invalid (.unassignedMember member key e) = err at h
  cases h with
  | slot hc => cases hflaw
  | undescribed hf => cases hflaw
  | unbound hid hdesc hc =>
    cases hflaw
    unfold Setting.checkedClass at hc
    split at hc
    · cases hc
    · split at hc
      · cases hc
      · split at hc <;> cases hc
  | member hreach hm he =>
    unfold memberError at hflaw
    split at hflaw <;> cases hflaw
    exact absurd he MemberFault.ne_unassigned
  | refused hreach hm hr =>
    cases hflaw
    exact ⟨_, _, _, hreach, hm, rfl, rfl, hr⟩

/-- **Stand-ins take what their type declares**: a record of an abstract type accepts every value
for a member that its type declares, gives it back and changes no other member, and a collection
that was never stored reads as empty. Every other member of its binding is inherited; for such a one
it accepts and gives nothing. A reading that fails since its record is a stand-in that does not know
a member has failed for an inherited one. -/
theorem standIn_accepts_declared (cx : Setting) (w₀ w₁ : World) (ty : TypeName)
    (b : TypeBinding) (habs : cx.schema.isAbstract ty)
    (hres : TypeBinding.resolve cx ty w₀ = .ok b w₁) :
    (∀ m ∈ b.members, cx.schema.declares ty m.name → ∀ (h : Heap) (r : RecordRef) (rec : Record),
      rec.type = ty →
      (∀ v, ∃ next, rec.set cx.schema h r m.name v = .ok next ∧ next.type = ty ∧
        next.get? cx.schema m.name = some v ∧
        ∀ other, other ≠ m.name → next.get? cx.schema other = rec.get? cx.schema other) ∧
      (m.collection → rec.values.get? m.name = none →
        rec.get? cx.schema m.name = some (.list []))) ∧
    (∀ m ∈ b.members, cx.schema.declares ty m.name = false → (cx.schema.descriptor ty).inherits ∧
      ∀ (h : Heap) (r : RecordRef) (rec : Record), rec.type = ty →
        (∀ v, rec.set cx.schema h r m.name v = .error (.failed (.unknownMember m.name))) ∧
        (rec.values.get? m.name = none → rec.get? cx.schema m.name = none)) ∧
    ∀ (source : SourceRef) (w w' : World) (requested : TypeName) (id key : Resource)
      (member name : String),
      fromGraph cx source requested id w =
        .error (.failed (.invalid (.unassignedMember member key (.unknownMember name)))) w' →
      ∃ rd b', Reaches cx source w requested id rd b' ∧
        (settledType cx w rd requested = ty → (∃ m ∈ b'.members, m.name = member) ∧ key = id ∧
          name = member ∧ cx.schema.declares ty member = false) := by
  refine ⟨fun m hm hd h r rec ht => ?_, fun m hm hd => ⟨?_, fun h r rec ht => ?_⟩,
    fun source w w' requested id key member name hrun => ?_⟩
  · subst ht
    refine ⟨fun v => ⟨rec.store m.name v, ?_, rfl, ?_, fun other hne => ?_⟩, fun hcoll hnone => ?_⟩
    · rw [Record.set_standIn habs, if_pos hd]
    · rw [Record.get?_store_standIn habs, if_pos rfl]
    · rw [Record.get?_store_standIn habs, if_neg (Ne.symm hne)]
    · rw [Record.get?_unset_standIn habs hnone,
        if_pos (TypeBinding.declaresCollection_of_resolve hres hm hd hcoll)]
  · obtain ⟨e, he, hname, -⟩ := TypeBinding.exists_member_of_resolve hres hm
    exact Schema.inherits_of_undeclared he (hname ▸ hd)
  · subst ht
    refine ⟨fun v => ?_, fun hnone => ?_⟩
    · rw [Record.set_standIn habs, if_neg (by rw [hd]; decide)]
    · rw [Record.get?_unset_standIn habs hnone, if_neg fun hcoll => ?_]
      rw [Schema.declares_of_collection hcoll] at hd
      cases hd
  · obtain ⟨rd, b', m, hreach, hm, rfl, hkey, heap, r, cur, v, hcur, hset, -⟩ :=
      (fromGraph_fails hrun).refused_of_unassigned
    refine ⟨rd, b', hreach, fun hty => ?_⟩
    rw [hty] at hcur
    subst hcur
    rw [Record.set_standIn habs] at hset
    split at hset
    · cases hset
    · next hd =>
      cases hset
      exact ⟨⟨m, hm, rfl⟩, hkey, rfl, by simpa using hd⟩

/-- Remarks have a note. Comments are remarks, inherit the note and have tags. -/
def remarkSetting : Setting where
  config := { defaultLanguage := "en" }
  schema := { types := [
    { name := "Remark", isAbstract := true
      descriptor := {
        classIri := some "urn:Remark"
        members := [{ name := "note", kind := .string, predicate := some "urn:note" }] } },
    { name := "Comment", isAbstract := true
      descriptor := {
        classIri := some "urn:Comment", inherits := true, parents := ["Remark"]
        members := [{
          name := "tags", kind := .string, predicate := some "urn:tag", collection := true }] } }] }

/-- A world that reads about a comment with a note. -/
def remarkWorld : World where
  namespaces := .wellKnown
  sources := #[({ graph := .ofTriples [⟨.iri "urn:a", .iri "urn:note", .string "hello"⟩] } :
    Memory).toSource]

theorem exists_member_of_passes {q : MemberBinding → Bool}
    {x : EStateM.Result Halt World TypeBinding}
    (h : Run.passes (fun b _ => b.members.any q) x) :
    ∃ b w m, x = .ok b w ∧ m ∈ b.members ∧ q m := by
  obtain ⟨b, w, hx, hb⟩ := Run.exists_ok h
  obtain ⟨m, hm, hq⟩ := List.any_eq_true.1 hb
  exact ⟨b, w, m, hx, hm, hq⟩

/-- The tags of a new comment read as empty. -/
theorem standIn_accepts_declared_tags :
    remarkSetting.schema.isAbstract "Comment" ∧ ∃ b w' m,
      TypeBinding.resolve remarkSetting "Comment" remarkWorld = .ok b w' ∧ m ∈ b.members ∧
      m.name = "tags" ∧
      (remarkSetting.schema.instantiate "Comment" none).get? remarkSetting.schema m.name =
        some (.list []) := by
  obtain ⟨b, w', m, hres, hm, hq⟩ := exists_member_of_passes
    (q := fun m => decide (m.name = "tags") && m.collection)
    (x := TypeBinding.resolve remarkSetting "Comment" remarkWorld) (by decide +kernel)
  rw [Bool.and_eq_true, decide_eq_true_eq] at hq
  have habs : remarkSetting.schema.isAbstract "Comment" := by decide
  have hdeclares : remarkSetting.schema.declares "Comment" m.name := by rw [hq.1]; decide
  have htags := (standIn_accepts_declared remarkSetting _ _ _ b habs hres).1 m hm hdeclares {} ⟨0⟩
    (remarkSetting.schema.instantiate "Comment" none) rfl
  exact ⟨habs, b, w', m, hres, hm, hq.1, htags.2 hq.2 rfl⟩

/-- A comment refuses the note that it inherits, so that it cannot be read. -/
theorem standIn_refuses_inherited :
    remarkSetting.schema.isAbstract "Comment" ∧ ∃ b w' m,
      TypeBinding.resolve remarkSetting "Comment" remarkWorld = .ok b w' ∧ m ∈ b.members ∧
      m.name = "note" ∧
      (∀ r v, (remarkSetting.schema.instantiate "Comment" none).set remarkSetting.schema {} r
        m.name v = .error (.failed (.unknownMember "note"))) ∧
      ∃ w', fromGraph remarkSetting ⟨0⟩ "Comment" (.iri "urn:a") remarkWorld =
        .error (.failed (.invalid (.unassignedMember "note" (.iri "urn:a")
          (.unknownMember "note")))) w' := by
  obtain ⟨b, w', m, hres, hm, hq⟩ := exists_member_of_passes
    (q := fun m => decide (m.name = "note"))
    (x := TypeBinding.resolve remarkSetting "Comment" remarkWorld) (by decide +kernel)
  have hname := of_decide_eq_true hq
  have habs : remarkSetting.schema.isAbstract "Comment" := by decide
  have hundeclared : remarkSetting.schema.declares "Comment" "note" = false := by decide
  refine ⟨habs, b, w', m, hres, hm, hname, fun r v => ?_, Run.exists_failed (by decide +kernel)⟩
  rw [hname, Record.set_standIn habs]
  exact if_neg (by rw [Schema.instantiate, hundeclared]; decide)

end Engine

end GraphMarshal
