import GraphMarshal.Proofs.Failures
import GraphMarshal.Proofs.Hierarchy

/-!
# What a reading gives

A reading gives a new record, unless the resource is under construction already. The record has the
identifier that it is read for, also after it has been made an instance of another type, and that
type is one that is registered for a class.
-/

namespace GraphMarshal

/-- A type is registered for a class. -/
def World.Registers (w : World) (ty : TypeName) : Prop := ∃ iri, w.classes.get? iri = some ty

namespace Engine

variable {cx : Setting} {source : SourceRef} {ty : TypeName} {id : Resource} {w : World}

theorem settledType_cases (cx : Setting) (w : World) (rd : Reading) (ty : TypeName) :
    settledType cx w rd ty = ty ∨ cx.schema.isA (settledType cx w rd ty) ty ∧
      w.Registers (settledType cx w rd ty) := by
  unfold settledType
  split
  · next t ht =>
    split
    · obtain ⟨⟨iri, -, hiri⟩, -, hext⟩ := Schema.asserts_of_refinement ht
      exact .inr ⟨hext, w.namespaces.expand iri, hiri⟩
    · exact .inl rfl
  · exact .inl rfl

theorem registers_settledType (rd : Reading) (hty : w.Registers ty) :
    w.Registers (settledType cx w rd ty) := by
  obtain heq | ⟨-, hreg⟩ := settledType_cases cx w rd ty
  · rw [heq]
    exact hty
  · exact hreg

/-- A resource without triples has no classes, so its record keeps the type asked for. -/
theorem settledType_unknown {rd : Reading} (h : rd.graph.hasSubject rd.subject = false) :
    settledType cx w rd ty = ty := by
  unfold settledType
  rw [Graph.objects_of_not_hasSubject h]
  rfl

/-- A record that a reading makes: it has the identifier that it is read for, and the type that the
description of the resource settles. -/
def SettledFor (cx : Setting) (w : World) (source : SourceRef) (ty : TypeName) (id : Resource)
    (h : Heap) (r : RecordRef) : Prop :=
  ∃ rec g, h.record? r = some rec ∧ rec.id = some id ∧ (w.source source).describe id = .ok g ∧
    rec.type = settledType cx w ⟨source, id, g⟩ ty

/-- A record that is read for a resource and a type. -/
def ReadFor (cx : Setting) (w : World) (ty : TypeName) (id : Resource) (h : Heap) (r : RecordRef) :
    Prop :=
  ∃ rec, h.record? r = some rec ∧ rec.id = some id ∧
    (rec.type = ty ∨ cx.schema.isA rec.type ty ∧ w.Registers rec.type)

theorem SettledFor.readFor {h : Heap} {r : RecordRef} (hr : SettledFor cx w source ty id h r) :
    ReadFor cx w ty id h r := by
  obtain ⟨rec, g, hrec, hid, -, htype⟩ := hr
  refine ⟨rec, hrec, hid, ?_⟩
  rw [htype]
  exact settledType_cases cx w ⟨source, id, g⟩ ty

theorem settledFor_of_prepared {rd : Reading} {b : TypeBinding} {w₁ w₂ : World}
    (hp : Prepared cx source w.heap.nextRecord ty id (entered w ty id) rd b w₁)
    (h : w₁.Fills w.heap.nextRecord w₂) :
    SettledFor cx w source ty id w₂.heap w.heap.nextRecord := by
  obtain ⟨rec, hrec, htype, hid⟩ := h.outline hp.record
  obtain ⟨source', id', g⟩ := rd
  obtain rfl : id' = id := hp.id
  exact ⟨rec, g, hrec, hid, hp.described, htype⟩

theorem construct_settles {read : Reader} (hnew : w.construction.get? id = none)
    (hread : ∀ w' target node, anyEnd.extending.Keeps (read target node) (read target node)
      (fun _ _ => True) w') :
    anyEnd.extending.Keeps (construct cx read source ty id) (construct cx read source ty id)
      (fun r w' => SettledFor cx w source ty id w'.heap r) w := by
  refine construct_keeps hnew (fun _ => trivial) (fun _ _ _ => trivial) (fun g hd hsub => ?_)
    fun rd b w₁ _ hp => ?_
  · have htype : settledType cx w ⟨source, id, g⟩ ty = ty := settledType_unknown hsub
    exact ⟨_, g, record?_entered w ty id, rfl, hd, htype.symm⟩
  · have hmembers := hp.readMembers_fails trivial fun w' _ target node _ => hread w' target node
    have hmembers : (anyEnd.filling w.heap.nextRecord).Keeps _ _ (fun _ _ => True) w₁ :=
      hmembers.loosen (fun h => h) (fun _ => trivial) fun h => h
    refine hmembers.and_step.mono fun _ w₂ _ h => ?_
    have hsettled : SettledFor cx w source ty id w₂.heap w.heap.nextRecord :=
      settledFor_of_prepared hp h.1
    exact hsettled

theorem fromGraph_settles (hnew : w.construction.get? id = none) :
    anyEnd.extending.Keeps (fromGraph cx source ty id) (fromGraph cx source ty id)
      (fun r w' => SettledFor cx w source ty id w'.heap r) w := by
  have heq : fromGraph cx source ty id w =
      construct cx (readWithin cx source (w.source source).nodes.length) source ty id w :=
    (fromGraph_apply rfl).trans (readWithin_succ_new hnew)
  exact .congr heq heq
    (construct_settles hnew fun w' target node => readWithin_extends _ w' target node)

/-- **What a reading gives**: the record that a reading makes has the identifier that it is read
for, and the type asked for or a registered one that extends it. -/
theorem fromGraph_gives (hnew : w.construction.get? id = none) :
    anyEnd.extending.Keeps (fromGraph cx source ty id) (fromGraph cx source ty id)
      (fun r w' => ReadFor cx w ty id w'.heap r) w :=
  (fromGraph_settles hnew).mono fun _ _ _ h => h.readFor

end Engine

end GraphMarshal
