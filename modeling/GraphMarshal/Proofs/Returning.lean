import GraphMarshal.Proofs.Naming

/-!
# Reading returns unless a resource refers to itself

No cycle of references or of list cells and no hierarchy keeps a reading from its end. What does is
the lock of a record: where a resource refers to itself by a member for records and the field of this
member takes resources, the reference to the record is stored while the record is locked, and its
identifier is asked for.
-/

namespace GraphMarshal.Engine

/-- A reading that waits for ever does so for a resource that refers to itself. -/
theorem entangled_of_blocked {cx : Setting} {w w' : World} {source : SourceRef} {ty : TypeName}
    {id : Resource} (hreg : w.Registered)
    (hrun : fromGraph cx source ty id w = .error .blocked w') :
    w.Entangled cx source (w.source source) := by
  have hnotes : (noting cx source (w.source source) w).Keeps (fromGraph cx source ty id)
      (fromGraph cx source ty id) (fun r w' => w'.heap.id? r = some id) w :=
    .congr (fromGraph_apply rfl) (fromGraph_apply rfl)
      (readWithin_named _ w hreg (.start cx w) rfl ty id)
  exact (hnotes.error hrun).2.1 rfl

/-- **How a reading ends**: it gives a record or an error and has only added to the world, or it
waits for ever for a resource that refers to itself. -/
theorem fromGraph_outcome (cx : Setting) (w : World) (source : SourceRef) (ty : TypeName)
    (id : Resource) :
    (∃ r w', fromGraph cx source ty id w = .ok r w' ∧ w.Extends w') ∨
      (∃ e w', fromGraph cx source ty id w = .error (.failed e) w' ∧ w.Extends w') ∨
      (∃ w', fromGraph cx source ty id w = .error .blocked w') ∧
        (w.Registered → w.Entangled cx source (w.source source)) := by
  have hk : ending.extending.Keeps (fromGraph cx source ty id) _ (fun _ _ => True) w :=
    fromGraph_ends cx ty id rfl (Nat.le_refl _)
  cases hrun : fromGraph cx source ty id w with
  | ok r w' => exact .inl ⟨r, w', rfl, (hk.ok hrun).1⟩
  | error stop w' =>
    obtain ⟨hs, rfl | ⟨e, rfl⟩, -⟩ := hk.error hrun
    · exact .inr (.inr ⟨⟨w', rfl⟩, fun hreg => entangled_of_blocked hreg hrun⟩)
    · exact .inr (.inl ⟨e, w', rfl, hs⟩)

/-- **Reading ends**: in every world, for every type and identifier and every source in memory, a
reading gives a record or an error, unless a resource of the source refers to itself where its record
keeps resources: then it may wait for ever. Nesting deeper changes nothing, so no budget is what ends
it, and it is the reading in which a call is made only for a resource under construction or while
fewer records of this reading are under construction than there are distinct resources in object
position, and one. The walks over parents, blank nodes and list cells need no budget either. -/
theorem fromGraph_returns (cx : Setting) (w : World) (source : SourceRef) (g : Graph) (d : Dialect)
    (ty : TypeName) (id : Resource)
    (hs : w.source source = ({ graph := g, dialect := d } : Memory).toSource) :
    ((∃ r w', fromGraph cx source ty id w = .ok r w') ∨
      (∃ e w', fromGraph cx source ty id w = .error (.failed e) w') ∨
      (∃ w', fromGraph cx source ty id w = .error .blocked w') ∧
        (w.Registered → w.Entangled cx source (w.source source))) ∧
    (∀ n, (distinct g.objectResources).length + 1 ≤ n →
      readWatched cx source
        (admitsDepth (w.construction.size + (1 + (distinct g.objectResources).length))) n ty id w =
        fromGraph cx source ty id w) ∧
    (∀ t n, cx.schema.types.length + 2 ≤ n → cx.schema.visit n {} t = cx.schema.lineage t) ∧
    (∀ node n, g.size + 1 ≤ n → g.reachFrom n [] [node] = g.reach node) ∧
    ∀ (l : Graph) head n, l.size + 1 ≤ n → l.cellsFrom n [] head = l.cells head := by
  refine ⟨?ends, fun n hn => ?watched, fun t n => cx.schema.lineage_of_le t,
    fun node n => g.reach_of_le node, fun l head n => l.cells_of_le head⟩
  case ends =>
    obtain ⟨r, w', hrun, -⟩ | ⟨e, w', hrun, -⟩ | hblocked := fromGraph_outcome cx w source ty id
    · exact .inl ⟨r, w', hrun⟩
    · exact .inr (.inl ⟨e, w', hrun⟩)
    · exact .inr (.inr hblocked)
  case watched =>
    rw [← nodes_toSource g d] at hn ⊢
    rw [← Nat.add_assoc]
    have hk := fromGraph_ends cx ty id hs hn
    cases hrun : fromGraph cx source ty id w with
    | ok r w' => exact (hk.ok hrun).2.2 trivial
    | error e w' => exact (hk.error hrun).2.2 trivial

/-- One of the persons knows herself, but no field takes resources. -/
theorem fromGraph_returns_ring :
    ringWorld.source ⟨0⟩ = ({ graph := ringGraph } : Memory).toSource ∧
      ((∃ r w', fromGraph ringSetting ⟨0⟩ "Person" (.iri "urn:a") ringWorld = .ok r w') ∨
        ∃ e w',
          fromGraph ringSetting ⟨0⟩ "Person" (.iri "urn:a") ringWorld = .error (.failed e) w') := by
  have hs : ringWorld.source ⟨0⟩ = ({ graph := ringGraph } : Memory).toSource := rfl
  have hfields : ∀ d ∈ ringSetting.schema.types, ∀ m ∈ d.descriptor.members,
      m.field ≠ .typed .resource := by
    decide
  obtain hok | hfailed | ⟨-, hentangled⟩ :=
    (fromGraph_returns ringSetting ringWorld ⟨0⟩ ringGraph .unknown "Person" (.iri "urn:a") hs).1
  · exact ⟨hs, .inl hok⟩
  · exact ⟨hs, .inr hfailed⟩
  · exact absurd (hentangled nofun) (World.not_entangled hfields)

/-- Images have images, of which they keep the resources. -/
def mirrorSetting : Setting where
  config := { defaultLanguage := "en" }
  schema := { types := [{
    name := "Image"
    descriptor := {
      classIri := some "urn:Image"
      members := [{
        name := "of", kind := .ref (some "Image"), predicate := some "urn:of"
        field := .typed .resource }] } }] }

/-- An image of itself. -/
def mirrorGraph : Graph := .ofTriples [⟨.iri "urn:x", .iri "urn:of", .iri "urn:x"⟩]

/-- A world that reads about it. -/
def mirrorWorld : World :=
  { namespaces := .wellKnown, sources := #[({ graph := mirrorGraph } : Memory).toSource] }

/-- Its reading waits for ever. -/
theorem fromGraph_waits_mirror : mirrorWorld.Registered ∧
    ∃ w', fromGraph mirrorSetting ⟨0⟩ "Image" (.iri "urn:x") mirrorWorld = .error .blocked w' := by
  refine ⟨nofun, Run.exists_blocked ?_⟩
  decide +kernel

end GraphMarshal.Engine
