import GraphMarshal.Proofs.Construction
import GraphMarshal.Proofs.References
import GraphMarshal.Proofs.Refinement

/-!
# Instances of types

A record is an instance of its type and of everything that its type extends. A record that is read
for a type is an instance of it, whatever the resource asserts. A member of a declared type is to
refer to instances of that type. What `Suits` grants besides are the records of a given path, which
are under construction when the reference is made and are reused for whatever type they are asked.
-/

namespace GraphMarshal

/-- The type that a member asks for: the one that its kind declares, else another one. -/
def Kind.aim (k : Kind) (target : TypeName) : TypeName :=
  match k with
  | .ref (some declared) => declared
  | _ => target

namespace Engine

theorem settledType_isA (cx : Setting) (w : World) (rd : Reading) (requested : TypeName) :
    cx.schema.isA (settledType cx w rd requested) requested := by
  unfold settledType
  split
  · next ty hty =>
    split
    · exact (Schema.asserts_of_refinement hty).2.2
    · exact cx.schema.isA_refl requested
  · exact cx.schema.isA_refl requested

/-! ## Targets -/

/-- A reader for the members of a kind: the type that the kind declares is what it is asked for. -/
def aimed (k : Kind) (read : Reader) : Reader := fun target => read (k.aim target)

theorem nodeValue_aimed (cx : Setting) (read : Reader) (rd : Reading) (m : MemberBinding) :
    nodeValue cx (aimed m.kind read) rd m = nodeValue cx read rd m := by
  funext node
  unfold nodeValue
  cases m.kind with
  | ref target => cases target <;> rfl
  | _ => rfl

theorem memberValue_aimed (cx : Setting) (read : Reader) (rd : Reading) (m : MemberBinding) :
    memberValue cx (aimed m.kind read) rd m = memberValue cx read rd m := by
  have hterm : termValue cx (aimed m.kind read) rd m = termValue cx read rd m := by
    funext t
    unfold termValue
    rw [nodeValue_aimed]
  have helement : element cx (aimed m.kind read) rd m = element cx read rd m := by
    funext t
    unfold element
    rw [hterm]
  funext objects
  unfold memberValue collectionValue singleValue elementsOf
  rw [hterm, helement]

end Engine

/-! ## References -/

/-- The record at a place has a type that extends another one. -/
def Heap.IsInstance (s : Schema) (h : Heap) (y : RecordRef) (ty : TypeName) : Prop :=
  ∃ t, h.type? y = some t ∧ s.isA t ty

/-- Where a kind declares a type, references for it go to its instances or to records of a path. -/
def Heap.Suits (s : Schema) (h : Heap) (p : List RecordRef) (k : Kind) (refs : List RecordRef) :
    Prop :=
  ∀ ty, k = .ref (some ty) → ∀ y ∈ refs, y ∈ p ∨ h.IsInstance s y ty

namespace World

variable {s : Schema} {w w' : World} {p : List RecordRef} {k : Kind} {refs : List RecordRef}
  {r : RecordRef} {rec : Record}

/-- The values of a record suit the members of its type that hold them. -/
def SuitsRecord (s : Schema) (w : World) (p : List RecordRef) (rec : Record) : Prop :=
  ∀ name v, rec.values.get? name = some v → ∃ b m, w.bindings.get? rec.type = some b ∧
    m ∈ b.members ∧ m.name = name ∧ w.heap.Suits s p m.kind v.eagerRefs

theorem Fills.isInstance (h : w.Fills r w') {y : RecordRef} {ty : TypeName}
    (hy : w.heap.IsInstance s y ty) : w'.heap.IsInstance s y ty := by
  obtain ⟨t, ht, hext⟩ := hy
  exact ⟨t, h.type? ht, hext⟩

theorem Fills.suits (h : w.Fills r w') (hs : w.heap.Suits s p k refs) : w'.heap.Suits s p k refs :=
  fun ty hk y hy => (hs ty hk y hy).imp_right h.isInstance

theorem Fills.suitsRecord (h : w.Fills r w') (hs : w.SuitsRecord s p rec) :
    w'.SuitsRecord s p rec := by
  intro name v hv
  obtain ⟨b, m, hb, hm, hname, hrefs⟩ := hs name v hv
  exact ⟨b, m, h.binding hb, hm, hname, h.suits hrefs⟩

theorem SuitsRecord.set {h : Heap} {r : RecordRef} {m : MemberBinding} {b : TypeBinding}
    {v : Value} {next : Record}
    (hs : w.SuitsRecord s p rec) (hb : w.bindings.get? rec.type = some b) (hm : m ∈ b.members)
    (hv : w.heap.Suits s p m.kind v.eagerRefs) (hn : rec.set s h r m.name v = .ok next) :
    w.SuitsRecord s p next := by
  obtain ⟨v', rfl, hv'⟩ := Record.set_eq_ok hn
  have hsub : ∀ y ∈ v'.eagerRefs, y ∈ v.eagerRefs := by
    rcases hv' with rfl | ⟨f, hf⟩
    · exact fun y hy => hy
    · exact fun y hy => (Record.eagerRefs_accepted hf).subset hy
  intro name u hu
  have hget : (rec.values.insert m.name v').get? name = some u := hu
  rw [Table.get?_insert] at hget
  split at hget
  · next hname =>
    cases hget
    exact ⟨b, m, hb, hm, hname, fun ty hk y hy => hv ty hk y (hsub y hy)⟩
  · exact hs name u hget

end World

end GraphMarshal
