import GraphMarshal.Proofs.Identification
import GraphMarshal.Proofs.Operations
import GraphMarshal.Proofs.Shape
import Mathlib.Data.List.Nodup

/-!
# The types that references have

A member that declares a type refers to instances of it, with one exception. A resource that is
under construction is given as it is, whatever type it is asked for now, since it cannot be two
records at once. So a reference that closes a cycle goes to a record of its path, which has the type
that it was first asked for, or one that extends that. Only such a reference can miss the type that
its member declares.
-/

namespace GraphMarshal

theorem Heap.Path.of_mem {h : Heap} {root y : RecordRef} {p : List RecordRef} (hp : h.Path root p)
    (hy : y ∈ p) : ∃ q, h.Path root (y :: q) ∧ y :: q <:+ p := by
  induction hp with
  | root =>
    obtain rfl := List.mem_singleton.1 hy
    exact ⟨[], .root, List.suffix_refl _⟩
  | @step x z p hp hz hnew ih =>
    rcases List.mem_cons.1 hy with rfl | hy
    · exact ⟨x :: p, .step hp hz hnew, List.suffix_refl _⟩
    · obtain ⟨q, hq, hsuffix⟩ := ih hy
      exact ⟨q, hq, hsuffix.trans (List.suffix_cons z _)⟩

theorem World.Sound.member?_eq {cx : Setting} {w : World} (hw : w.Sound cx) {ty : TypeName}
    {b : TypeBinding} (hb : w.bindings.get? ty = some b) {m : MemberBinding} (hm : m ∈ b.members) :
    b.member? m.name = some m := by
  cases hfind : b.member? m.name with
  | none => exact absurd (decide_eq_true rfl) (List.find?_eq_none.1 hfind m hm)
  | some found =>
    have hname : found.name = m.name := by simpa using List.find?_some hfind
    rw [List.inj_on_of_nodup_map (hw.names hb) (List.mem_of_find?_eq_some hfind) hm hname]

theorem World.SuitsRecord.exists_member {cx : Setting} {w : World} {p : List RecordRef}
    {rec : Record} (hs : w.SuitsRecord cx.schema p rec) (hw : w.Sound cx) {name : String}
    {v : Value} (hv : rec.get? cx.schema name = some v) {y : RecordRef} (hy : y ∈ v.eagerRefs) :
    ∃ b m, w.bindings.get? rec.type = some b ∧ b.member? name = some m ∧
      w.heap.Suits cx.schema p m.kind v.eagerRefs := by
  rcases Record.get?_eq_some hv with hstored | rfl
  · obtain ⟨b, m, hb, hm, rfl, hrefs⟩ := hs name v hstored
    exact ⟨b, m, hb, hw.member?_eq hb hm, hrefs⟩
  · cases hy

namespace Engine

/-- **References are of the declared types** unless they close a cycle: the record that a reading
gives is an instance of the type asked for, and whatever a record on a simple path from it refers
to, in a member that declares a type, is an instance of that type or a record of the path. A path
leads to the latter as well, so that the same is true of the reference by which it was first
reached. -/
theorem fromGraph_typed (cx : Setting) (w w' : World) (source : SourceRef) (ty : TypeName)
    (id : Resource) (root : RecordRef) (hw : w.Reachable cx)
    (hrun : fromGraph cx source ty id w = .ok root w') :
    w'.heap.IsInstance cx.schema root ty ∧
      ∀ x p rec, w'.heap.Path root (x :: p) → w'.heap.record? x = some rec →
        ∀ name v, rec.get? cx.schema name = some v → ∀ y ∈ v.eagerRefs,
          ∃ b m, w'.bindings.get? rec.type = some b ∧ b.member? name = some m ∧
            ∀ target, m.kind = .ref (some target) →
              (y ∉ x :: p → w'.heap.IsInstance cx.schema y target) ∧
              (y ∈ x :: p → ∃ q, w'.heap.Path root (y :: q) ∧ y :: q <:+ x :: p) := by
  have hidle := hw.stable.idle
  have hsound : w'.Sound cx := (fromGraph_preserves.ok hrun).1.sound hw.stable.sound
  obtain ⟨anc, hg, hsuit, hroot, hpath, -⟩ := fromGraph_raises hidle hrun
  refine ⟨hroot, fun x p rec hp hrec name v hv y hy => ?_⟩
  obtain ⟨b, m, hb, hm, hrefs⟩ := (hsuit x _ rec (hpath x p hp) hrec).exists_member hsound hv hy
  refine ⟨b, m, hb, hm, fun target hk => ⟨fun hnot => ?_, hp.of_mem⟩⟩
  exact (hrefs target hk y hy).resolve_left hnot

/-- Things with a part that is to be a device, and phones, which are devices. -/
def partSetting : Setting where
  config := { defaultLanguage := "en" }
  schema := { types := [
    { name := "Thing"
      descriptor := {
        classIri := some "urn:Thing"
        members := [
          { name := "part", kind := .ref (some "Device"), predicate := some "urn:part" }] } },
    { name := "Device", descriptor := { classIri := some "urn:Device" } },
    { name := "Phone"
      descriptor := { classIri := some "urn:Phone", parents := ["Device"] } }] }

/-- A thing whose part is a phone, and one that is a part of itself. -/
def partGraph : Graph := .ofTriples
  [⟨.iri "urn:a", .iri "urn:part", .iri "urn:b"⟩,
    ⟨.iri "urn:b", .iri Vocabulary.Rdf.type, .iri "urn:Phone"⟩,
    ⟨.iri "urn:c", .iri "urn:part", .iri "urn:c"⟩]

/-- A world that knows the types and reads about the things. -/
def partWorld : World :=
  (World.initial partSetting.config).run partSetting
    [.init ["Thing", "Device", "Phone"], .attach ({ graph := partGraph } : Memory).toSource]

/-- What a record gives for its part, with the binding and the member that it comes from. -/
def partOf (w : World) (r : RecordRef) : Option (Record × TypeBinding × MemberBinding × Value) := do
  let rec ← w.heap.record? r
  let b ← w.bindings.get? rec.type
  let m ← b.member? "part"
  let v ← rec.get? partSetting.schema "part"
  pure (rec, b, m, v)

/-- Whether the part of a record is declared to be a device and refers to a record as it says. -/
def partPasses (refers : World → RecordRef → List RecordRef → Bool) (r : RecordRef) (w : World) :
    Bool :=
  (partOf w r).any fun (_, _, m, v) =>
    decide (m.kind = .ref (some "Device")) && refers w r v.eagerRefs

theorem of_partPasses {refers : World → RecordRef → List RecordRef → Bool} {r : RecordRef}
    {w : World} (h : partPasses refers r w) :
    ∃ rec b m v, w.heap.record? r = some rec ∧ w.bindings.get? rec.type = some b ∧
      b.member? "part" = some m ∧ m.kind = .ref (some "Device") ∧
      rec.get? partSetting.schema "part" = some v ∧ refers w r v.eagerRefs := by
  obtain ⟨⟨rec, b, m, v⟩, hpart, h⟩ := (Option.any_eq_true _ _).1 h
  rw [Bool.and_eq_true, decide_eq_true_eq] at h
  unfold partOf at hpart
  obtain ⟨rec', hrec, hpart⟩ := Option.bind_eq_some_iff.1 hpart
  obtain ⟨b', hb, hpart⟩ := Option.bind_eq_some_iff.1 hpart
  obtain ⟨m', hm, hpart⟩ := Option.bind_eq_some_iff.1 hpart
  obtain ⟨v', hv, hpart⟩ := Option.bind_eq_some_iff.1 hpart
  cases hpart
  exact ⟨rec, b, m, v, hrec, hb, hm, h.1, hv, h.2⟩

theorem partWorld_reachable : partWorld.Reachable partSetting := World.Reachable.initial.run _

/-- The part that is asserted to be a phone is a device. -/
theorem fromGraph_typed_phone :
    partWorld.Reachable partSetting ∧ ∃ root w',
      fromGraph partSetting ⟨0⟩ "Thing" (.iri "urn:a") partWorld = .ok root w' ∧
      ∃ y ∈ w'.heap.eagerRefs root, w'.heap.type? y = some "Phone" ∧
        w'.heap.IsInstance partSetting.schema y "Device" := by
  obtain ⟨root, w', hrun, hpasses⟩ := Run.exists_ok
    (p := partPasses fun w r refs => refs.any fun y =>
      decide (y ≠ r) && decide (y ∈ w.heap.eagerRefs r) &&
        decide (w.heap.type? y = some "Phone"))
    (x := fromGraph partSetting ⟨0⟩ "Thing" (.iri "urn:a") partWorld) (by decide +kernel)
  obtain ⟨rec, b, m, v, hrec, hb, hm, hk, hv, h⟩ := of_partPasses hpasses
  obtain ⟨y, hy, h⟩ := List.any_eq_true.1 h
  simp only [Bool.and_eq_true, decide_eq_true_eq] at h
  obtain ⟨⟨hne, hmem⟩, ht⟩ := h
  have htyped := (fromGraph_typed _ _ _ _ _ _ root partWorld_reachable hrun).2
  obtain ⟨b', m', hb', hm', hdevice⟩ := htyped root [] rec .root hrec "part" v hv y hy
  rw [hb] at hb'
  cases hb'
  rw [hm] at hm'
  cases hm'
  refine ⟨partWorld_reachable, root, w', hrun, y, hmem, ht, ?_⟩
  exact (hdevice "Device" hk).1 fun hin => hne (List.mem_singleton.1 hin)

/-- A thing that is a part of itself is no device. -/
theorem fromGraph_cycle_untyped :
    partWorld.Reachable partSetting ∧ ∃ root w' rec b m v,
      fromGraph partSetting ⟨0⟩ "Thing" (.iri "urn:c") partWorld = .ok root w' ∧
      w'.heap.record? root = some rec ∧ w'.bindings.get? rec.type = some b ∧
      b.member? "part" = some m ∧ m.kind = .ref (some "Device") ∧
      rec.get? partSetting.schema "part" = some v ∧ root ∈ v.eagerRefs ∧
      ¬ w'.heap.IsInstance partSetting.schema root "Device" := by
  obtain ⟨root, w', hrun, hpasses⟩ := Run.exists_ok
    (p := partPasses fun w r refs => decide (r ∈ refs) && decide (w.heap.type? r = some "Thing"))
    (x := fromGraph partSetting ⟨0⟩ "Thing" (.iri "urn:c") partWorld) (by decide +kernel)
  obtain ⟨rec, b, m, v, hrec, hb, hm, hk, hv, h⟩ := of_partPasses hpasses
  rw [Bool.and_eq_true, decide_eq_true_eq, decide_eq_true_eq] at h
  refine ⟨partWorld_reachable, root, w', rec, b, m, v, hrun, hrec, hb, hm, hk, hv, h.1, ?_⟩
  rintro ⟨t, ht, hext⟩
  rw [h.2] at ht
  cases ht
  revert hext
  decide +kernel

end Engine

end GraphMarshal
