import GraphMarshal.Proofs.Relevance

/-!
# The most specific type

A resource asserts types by its classes: those that are registered and extend the type that it is
read as. Its record gets one of them that no other one is more specific than. Types that are
registered can carry an identifier, so the type that the fold over the classes comes to is never
given up for the one asked for.
-/

namespace GraphMarshal

variable {s : Schema} {typeFor : String → Option TypeName} {requested ty : TypeName}
  {classes : List String}

/-- A type is what classes make of the requested one: it is the requested type if they assert no
other, else one of those asserted that no other one strictly extends. Where no two of these extend
each other and one of them extends all the others, it is this one. -/
structure Schema.Settles (s : Schema) (typeFor : String → Option TypeName) (requested : TypeName)
    (classes : List String) (ty : TypeName) : Prop where
  unasserted : (∀ t, ¬s.Asserts typeFor requested classes t) → ty = requested
  asserted : (∃ t, s.Asserts typeFor requested classes t) → s.Asserts typeFor requested classes ty
  minimal : ∀ t, s.Asserts typeFor requested classes t → s.Extends t ty → s.Extends ty t
  least : s.AcyclicOn (s.Asserts typeFor requested classes) →
    ∀ t, s.Asserts typeFor requested classes t →
      (∀ other, s.Asserts typeFor requested classes other → s.Extends t other) → ty = t

theorem Schema.MostSpecific.settles {o : Option TypeName}
    (h : s.MostSpecific typeFor requested classes o) :
    s.Settles typeFor requested classes (o.getD requested) := by
  cases o with
  | none =>
    refine ⟨fun _ => rfl, fun ⟨t, ht⟩ => ?_, fun t ht _ => ?_, fun _ t ht _ => ?_⟩ <;>
      exact absurd ht (h t)
  | some ty =>
    obtain ⟨hty, hspecific⟩ := h
    have hminimal : ∀ t, s.Asserts typeFor requested classes t → s.Extends t ty →
        s.Extends ty t := fun t ht hext => isA_iff.1 (hspecific t ht (isA_iff.2 hext))
    refine ⟨fun hnone => absurd hty (hnone ty), fun _ => hty, hminimal,
      fun hacyclic t ht hall => ?_⟩
    have hext : s.Extends t ty := hall ty hty
    exact hacyclic ty t hty ht (hminimal t ht hext) hext

variable {cx : Setting} {w w₀ : World}

namespace Engine

theorem settledType_settles (rd : Reading)
    (hslot : ∀ t, w.Registers t → cx.schema.carriesId t) :
    cx.schema.Settles w.typeForClass requested (rd.graph.classes rd.id)
      (settledType cx w rd requested) := by
  obtain ⟨o, ho⟩ : ∃ o, cx.schema.refinement w.typeForClass requested
      ((rd.graph.objects rd.subject Vocabulary.Rdf.type).filterMap Term.iri?) = o := ⟨_, rfl⟩
  have hspecific : cx.schema.MostSpecific w.typeForClass requested (rd.graph.classes rd.id) o :=
    ho ▸ Schema.mostSpecific_refinement
  have htype : settledType cx w rd requested = o.getD requested := by
    unfold settledType
    rw [ho]
    cases o with
    | none => rfl
    | some t =>
      obtain ⟨⟨iri, -, hiri⟩, -⟩ := Schema.asserts_of_refinement ho
      exact if_pos (hslot t ⟨w.namespaces.expand iri, hiri⟩)
  rw [htype]
  exact hspecific.settles

theorem refine_type (rd : Reading) {r : RecordRef} (hr : w.heap.type? r = some requested) :
    ∃ w', refine cx rd r requested w = .ok () w' ∧
      w'.heap.type? r = some (settledType cx w rd requested) := by
  obtain ⟨rec, hrec, rfl⟩ := Option.map_eq_some_iff.1 hr
  unfold refine settledType
  rw [Run.bind_apply_ok (Run.get_apply w)]
  cases cx.schema.refinement w.typeForClass rec.type
      ((rd.graph.objects rd.subject Vocabulary.Rdf.type).filterMap Term.iri?) with
  | none => exact ⟨w, rfl, hr⟩
  | some t =>
    dsimp only
    split
    · refine ⟨_, rfl, ?_⟩
      show Heap.type? _ r = some t
      unfold Heap.type?
      rw [Heap.record?_modify_self hrec]
      rfl
    · exact ⟨w, rfl, hr⟩

/-- **Refining picks a most specific type**, for any hierarchy and any classes in any order. With
the classes that a world has registered, a record gets the type that the classes of its resource
make of the one it has; so does the record that a reading makes. -/
theorem refine_settles (hw : w₀.Reachable cx) :
    (∀ (w : World) (rd : Reading) (r : RecordRef) (requested : TypeName),
      w.classes = w₀.classes → w.heap.type? r = some requested →
      ∃ w' ty, refine cx rd r requested w = .ok () w' ∧ w'.heap.type? r = some ty ∧
        cx.schema.Settles w.typeForClass requested (rd.graph.classes rd.id) ty) ∧
    ∀ (source : SourceRef) (requested : TypeName) (id : Resource) (r : RecordRef) (w' : World),
      fromGraph cx source requested id w₀ = .ok r w' →
      ∃ g ty, (w₀.source source).describe id = .ok g ∧ w'.heap.type? r = some ty ∧
        cx.schema.Settles w₀.typeForClass requested (g.classes id) ty := by
  constructor
  · intro w rd r requested hclasses hr
    obtain ⟨w', hrun, htype⟩ := refine_type rd hr
    refine ⟨w', _, hrun, htype, ?_⟩
    apply settledType_settles
    rintro t ⟨iri, hiri⟩
    rw [hclasses] at hiri
    exact hw.carriesId ⟨iri, hiri⟩
  · intro source requested id r w' hrun
    have hsettles : anyEnd.extending.Keeps (fromGraph cx source requested id) _ _ w₀ :=
      fromGraph_settles (hw.stable.idle id)
    obtain ⟨-, ⟨rec, g, hrec, -, hdescribed, htype⟩, -⟩ := hsettles.ok hrun
    refine ⟨g, rec.type, hdescribed, ?_, ?_⟩
    · unfold Heap.type?
      rw [hrec]
      rfl
    · rw [htype]
      exact settledType_settles ⟨source, id, g⟩ fun t ht => hw.carriesId ht

/-- Scripts are books and films. Screenplays are the same as scripts. Places are no works. -/
def scriptSetting : Setting where
  config := { defaultLanguage := "en" }
  schema := { types := [
    { name := "Work", descriptor := { classIri := some "urn:Work" } },
    { name := "Book", descriptor := { classIri := some "urn:Book", parents := ["Work"] } },
    { name := "Film", descriptor := { classIri := some "urn:Film", parents := ["Work"] } },
    { name := "Script"
      descriptor := {
        classIri := some "urn:Script", parents := ["Book", "Film", "Screenplay"] } },
    { name := "Screenplay"
      descriptor := { classIri := some "urn:Screenplay", parents := ["Script"] } },
    { name := "Place", descriptor := { classIri := some "urn:Place" } }] }

/-- A script, whose first and last class are less specific. -/
def scriptGraph : Graph := .ofTriples
  (["urn:Film", "urn:Unknown", "urn:Place", "urn:Script", "urn:Work", "urn:Book"].map fun iri =>
    ⟨.iri "urn:a", .iri Vocabulary.Rdf.type, .iri iri⟩)

/-- A world that reads it. -/
def scriptWorld : World := (World.initial scriptSetting.config).run scriptSetting
  [.init ["Work", "Book", "Film", "Script", "Screenplay", "Place"],
    .attach ({ graph := scriptGraph } : Memory).toSource]

/-- What is read as a work is a script, and a record that is refined by its description is too. -/
theorem refine_settles_script : scriptWorld.Reachable scriptSetting ∧
    (∃ w', refine scriptSetting ⟨⟨0⟩, .iri "urn:a", scriptGraph⟩ ⟨0⟩ "Work"
        (scriptWorld.alloc (outlineRecord "Work" (.iri "urn:a"))) = .ok () w' ∧
      w'.heap.type? ⟨0⟩ = some "Script" ∧
      scriptSetting.schema.Settles scriptWorld.typeForClass "Work"
        (scriptGraph.classes (.iri "urn:a")) "Script") ∧
    ∃ r w', fromGraph scriptSetting ⟨0⟩ "Work" (.iri "urn:a") scriptWorld = .ok r w' ∧
      w'.heap.type? r = some "Script" := by
  have hreach : scriptWorld.Reachable scriptSetting := World.Reachable.initial.run _
  obtain ⟨hrefine, hread⟩ := refine_settles hreach
  refine ⟨hreach, ?_, ?_⟩
  · have hclasses : ∀ (w : World) (rec : Record), (w.alloc rec).classes = w.classes :=
      fun _ _ => rfl
    have hfor : ∀ (w : World) (rec : Record), (w.alloc rec).typeForClass = w.typeForClass :=
      fun _ _ => rfl
    obtain ⟨w', ty, hrun, htype, hsettles⟩ := hrefine
      (scriptWorld.alloc (outlineRecord "Work" (.iri "urn:a"))) ⟨⟨0⟩, .iri "urn:a", scriptGraph⟩ ⟨0⟩
      "Work" (hclasses _ _) (by decide +kernel)
    rw [hfor] at hsettles
    have hpasses : Run.passes (fun _ w => decide (w.heap.type? ⟨0⟩ = some "Script"))
        (refine scriptSetting ⟨⟨0⟩, .iri "urn:a", scriptGraph⟩ ⟨0⟩ "Work"
          (scriptWorld.alloc (outlineRecord "Work" (.iri "urn:a")))) := by decide +kernel
    obtain ⟨_, w₁, hok, hscript⟩ := Run.exists_ok hpasses
    cases hrun.symm.trans hok
    obtain rfl : ty = "Script" := Option.some.inj (htype.symm.trans (of_decide_eq_true hscript))
    exact ⟨w', hrun, htype, hsettles⟩
  · have hpasses : Run.passes (fun r w => decide (w.heap.type? r = some "Script"))
        (fromGraph scriptSetting ⟨0⟩ "Work" (.iri "urn:a") scriptWorld) := by decide +kernel
    obtain ⟨r, w', hok, hscript⟩ := Run.exists_ok hpasses
    exact ⟨r, w', hok, of_decide_eq_true hscript⟩

end Engine

end GraphMarshal
