import GraphMarshal.Proofs.Deferral

/-!
# Comparing references and values

Two references are equal when they are the same place or name the same resource, and what a
reference names is one resource at most; so this is an equivalence, and with it equality of values
without floats, item by item in lists. What a reference names changes with the heap only where its
record gets an identifier. Resolving gives none to a record that is there, and a deferred reference
names the resource that it is resolved to before and after, so every comparison comes out as it did.
-/

namespace GraphMarshal

mutual

/-- No float is in a value. -/
def Value.FloatFree : Value → Prop
  | .float _ | .double _ => False
  | .list items => Value.AllFloatFree items
  | _ => True

def Value.AllFloatFree : List Value → Prop
  | [] => True
  | v :: vs => v.FloatFree ∧ Value.AllFloatFree vs

end

namespace Heap

variable {h : Heap} {x y z : Reference}

/-! ## References -/

theorem equivalence_sameReference (h : Heap) :
    Equivalence fun x y => h.sameReference x y = true where
  refl x := sameReference_iff.2 (.inl rfl)
  symm hxy := by
    obtain rfl | ⟨id, hx, hy⟩ := sameReference_iff.1 hxy
    · exact hxy
    · exact sameReference_iff.2 (.inr ⟨id, hy, hx⟩)
  trans hxy hyz := by
    obtain rfl | ⟨id, hx, hy⟩ := sameReference_iff.1 hxy
    · exact hyz
    · obtain rfl | ⟨id', hy', hz⟩ := sameReference_iff.1 hyz
      · exact hxy
      · have hid : some id = some id' := hy.symm.trans hy'
        exact sameReference_iff.2 (.inr ⟨id, hx, hz.trans hid.symm⟩)

theorem sameReference_comm : h.sameReference x y = h.sameReference y x :=
  Bool.eq_iff_iff.2 ⟨h.equivalence_sameReference.symm, h.equivalence_sameReference.symm⟩

/-! ## Values -/

mutual

theorem sameValue_self : ∀ {a : Value}, a.FloatFree → h.sameValue a a
  | .ref x, _ => by
    unfold sameValue
    exact h.equivalence_sameReference.refl x
  | .list as, ha => by
    unfold sameValue
    exact sameValues_self ha
  | .bool _, _ | .byte _, _ | .short _, _ | .int _, _ | .long _, _ | .char _, _ | .string _, _
  | .dateTime _, _ | .uri _, _ | .resource _, _ => by simp [sameValue]

theorem sameValues_self : ∀ {as : List Value}, Value.AllFloatFree as → h.sameValues as as
  | [], _ => by simp [sameValues]
  | a :: as, ⟨ha, has⟩ => by
    unfold sameValues
    rw [sameValue_self ha, sameValues_self has, Bool.and_self]

end

mutual

theorem sameValue_comm : ∀ {a b : Value}, a.FloatFree → h.sameValue a b = h.sameValue b a
  | .ref x, b, _ => by
    cases b with
    | ref y =>
      unfold sameValue
      exact sameReference_comm
    | _ => simp [sameValue]
  | .list as, b, ha => by
    cases b with
    | list bs =>
      unfold sameValue
      exact sameValues_comm ha
    | _ => simp [sameValue]
  | .bool _, b, _ | .byte _, b, _ | .short _, b, _ | .int _, b, _ | .long _, b, _ | .char _, b, _
  | .string _, b, _ | .dateTime _, b, _ | .uri _, b, _ | .resource _, b, _ => by
    cases b <;> simp [sameValue, eq_comm]

theorem sameValues_comm : ∀ {as bs : List Value}, Value.AllFloatFree as →
    h.sameValues as bs = h.sameValues bs as
  | [], [], _ | [], _ :: _, _ | _ :: _, [], _ => by simp [sameValues]
  | a :: as, b :: bs, ⟨ha, has⟩ => by
    unfold sameValues
    rw [sameValue_comm ha, sameValues_comm has]

end

mutual

theorem sameValue_trans : ∀ {a b c : Value}, a.FloatFree → h.sameValue a b → h.sameValue b c →
    h.sameValue a c
  | .ref x, b, c, _, hab, hbc => by
    cases b with
    | ref y =>
      cases c with
      | ref z =>
        unfold sameValue at hab hbc ⊢
        exact h.equivalence_sameReference.trans hab hbc
      | _ => simp [sameValue] at hbc
    | _ => simp [sameValue] at hab
  | .list as, b, c, ha, hab, hbc => by
    cases b with
    | list bs =>
      cases c with
      | list cs =>
        unfold sameValue at hab hbc ⊢
        exact sameValues_trans ha hab hbc
      | _ => simp [sameValue] at hbc
    | _ => simp [sameValue] at hab
  | .bool _, b, _, _, hab, hbc | .byte _, b, _, _, hab, hbc | .short _, b, _, _, hab, hbc
  | .int _, b, _, _, hab, hbc | .long _, b, _, _, hab, hbc | .char _, b, _, _, hab, hbc
  | .string _, b, _, _, hab, hbc | .dateTime _, b, _, _, hab, hbc | .uri _, b, _, _, hab, hbc
  | .resource _, b, _, _, hab, hbc => by
    -- A scalar that is no float is equal to itself only.
    cases b <;> simp [sameValue] at hab
    subst hab
    exact hbc

theorem sameValues_trans : ∀ {as bs cs : List Value}, Value.AllFloatFree as →
    h.sameValues as bs → h.sameValues bs cs → h.sameValues as cs
  | [], [], _, _, _, hbc => hbc
  | a :: as, b :: bs, c :: cs, ⟨ha, has⟩, hab, hbc => by
    unfold sameValues at hab hbc ⊢
    rw [Bool.and_eq_true] at hab hbc ⊢
    exact ⟨sameValue_trans ha hab.1 hbc.1, sameValues_trans has hab.2 hbc.2⟩
  | _ :: _, _ :: _, [], _, _, hbc => by simp [sameValues] at hbc
  | [], _ :: _, _, _, hab, _ | _ :: _, [], _, _, hab, _ => by simp [sameValues] at hab

end

theorem equivalence_sameValue (h : Heap) :
    Equivalence fun a b : {v : Value // v.FloatFree} => h.sameValue a b = true where
  refl a := sameValue_self a.2
  symm {a _} hab := sameValue_comm a.2 ▸ hab
  trans {a _ _} := sameValue_trans a.2

end Heap

namespace Engine

variable {cx : Setting} {w w' : World} {r : RecordRef} {c : LazyRef} {cell : LazyCell}

/-! ## Resolving -/

theorem resolve_eq_ok (h : resolve cx c w = .ok r w') : ∃ cell, w.heap.cell? c = some cell ∧
    (cell.resolved = some r ∧ w' = w ∨ cell.resolved = none ∧ ∃ w₁,
      fromGraph cx cell.source cell.target cell.id w = .ok r w₁ ∧ w' = settle c r w₁) := by
  cases hc : w.heap.cell? c with
  | none =>
    unfold resolve at h
    rw [Run.bind_apply_ok (Run.get_apply w), hc] at h
    cases h
  | some cell =>
    refine ⟨cell, rfl, ?_⟩
    cases hres : cell.resolved with
    | some a =>
      cases (resolve_of_resolved hc hres).symm.trans h
      exact .inl ⟨rfl, rfl⟩
    | none =>
      obtain ⟨e, w₁, he, -⟩ | ⟨⟨w₁, he⟩, -⟩ | ⟨a, w₁, hread, hsettles, -⟩ := resolve_attempt hc hres
      · cases he.symm.trans h
      · cases he.symm.trans h
      · cases hsettles.symm.trans h
        exact .inr ⟨rfl, w₁, hread, rfl⟩

theorem resource?_of_resolve {x : Reference} (hw : w.Reachable cx)
    (h : resolve cx c w = .ok r w') (hx : w.heap.Has x) :
    w'.heap.resource? x = w.heap.resource? x := by
  obtain ⟨cell, hc, ⟨-, rfl⟩ | ⟨hopen, w₁, hread, rfl⟩⟩ := resolve_eq_ok h
  · rfl
  · -- Nothing is under construction, so the record is made by this reading, with the identifier.
    have hstable := hw.stable
    have hid : w₁.heap.id? r = some cell.id := id?_of_fromGraph hstable.idle hread
    have hext : w.Extends w₁ := (fromGraph_extends.ok hread).1
    rw [resource?_settle (hext.cell hc) hopen hid]
    exact resource?_of_extends hstable.sound.anchored hext hx

/-- A reference that is resolved is equal to its record, as the record tells what it names. -/
theorem sameReference_of_resolved (ha : w.heap.Anchored) (hc : w.heap.cell? c = some cell)
    (hr : cell.resolved = some r) : w.heap.sameReference (.lazy c) (.eager r) := by
  obtain ⟨id, hid⟩ := ha c cell r hc hr
  refine Heap.sameReference_iff.2 (.inr ⟨id, Option.map_eq_some_iff.2 ⟨cell, hc, ?_⟩, hid⟩)
  unfold Heap.cellResource
  rw [hr, Option.bind_some, hid]
  rfl

theorem sameReference_of_resolve (hw : w.Reachable cx) (h : resolve cx c w = .ok r w') :
    w'.heap.sameReference (.lazy c) (.eager r) := by
  have hw' : w'.Reachable cx := Operation.after_follow_ok h ▸ hw.step _
  have hresolved : ∃ cell, w'.heap.cell? c = some cell ∧ cell.resolved = some r := by
    obtain ⟨cell, hc, ⟨hr, rfl⟩ | ⟨-, w₁, hread, rfl⟩⟩ := resolve_eq_ok h
    · exact ⟨cell, hc, hr⟩
    · have hext : w.Extends w₁ := (fromGraph_extends.ok hread).1
      exact ⟨_, cell?_settle (hext.cell hc) r, rfl⟩
  obtain ⟨cell, hc, hr⟩ := hresolved
  exact sameReference_of_resolved hw'.stable.sound.anchored hc hr

/-- **Equality of references and values.** In every reachable world equality of references is an
equivalence, and so is equality of values without floats. Resolving a deferred reference changes no
comparison of values that are there, and makes the reference equal to its record. -/
theorem equality_lasts (cx : Setting) (w : World) (hw : w.Reachable cx) :
    (Equivalence fun x y => w.heap.sameReference x y = true) ∧
    (Equivalence fun a b : {v : Value // v.FloatFree} => w.heap.sameValue a b = true) ∧
    ∀ c r w', resolve cx c w = .ok r w' →
      (∀ x y, w.heap.Has x → w.heap.Has y →
        w'.heap.sameReference x y = w.heap.sameReference x y) ∧
      (∀ a b, (∀ x, a.Refers x ∨ b.Refers x → w.heap.Has x) →
        w'.heap.sameValue a b = w.heap.sameValue a b) ∧
      w'.heap.sameReference (.lazy c) (.eager r) := by
  refine ⟨w.heap.equivalence_sameReference, w.heap.equivalence_sameValue, fun c r w' h => ?_⟩
  have hnames : ∀ {x}, w.heap.Has x → w'.heap.resource? x = w.heap.resource? x :=
    resource?_of_resolve hw h
  refine ⟨fun x y hx hy => ?_, fun a b hhas => ?_, sameReference_of_resolve hw h⟩
  · exact Heap.sameReference_congr (hnames hx) (hnames hy)
  · exact Heap.sameValue_congr fun x hx => hnames (hhas x hx)

/-- The person known gets a record and stays another one than the person who knows. -/
theorem equality_lasts_later :
    (laterWorld.run laterSetting laterOperations).Reachable laterSetting ∧
      ∃ r w', resolve laterSetting ⟨0⟩ (laterWorld.run laterSetting laterOperations) = .ok r w' ∧
        w'.heap.sameReference (.lazy ⟨0⟩) (.eager r) ∧
        w'.heap.sameValue (.list [.ref (.eager ⟨0⟩)]) (.list [.ref (.lazy ⟨0⟩)]) = false := by
  have hreach : (laterWorld.run laterSetting laterOperations).Reachable laterSetting :=
    (World.Reachable.initial.run _).run _
  have hready : Run.passes (fun _ _ => true)
      (resolve laterSetting ⟨0⟩ (laterWorld.run laterSetting laterOperations)) := by decide +kernel
  obtain ⟨r, w', h, -⟩ := Run.exists_ok hready
  obtain ⟨-, hvalues, hrecord⟩ := (equality_lasts laterSetting _ hreach).2.2 ⟨0⟩ r w' h
  refine ⟨hreach, r, w', h, hrecord, ?_⟩
  rw [hvalues _ _ ?_]
  · decide +kernel
  · intro x hx
    have hx : x = .eager ⟨0⟩ ∨ x = .lazy ⟨0⟩ := by
      simpa [Value.refers_list, Value.refers_ref] using hx
    obtain rfl | rfl := hx
    · decide +kernel
    · decide +kernel

end Engine

end GraphMarshal
