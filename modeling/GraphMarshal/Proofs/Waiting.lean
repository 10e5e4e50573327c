import GraphMarshal.Proofs.Identification
import GraphMarshal.Proofs.Origins

/-!
# Records that wait for themselves

A record is locked while one of its members is set. A field for resources asks what is stored for
its resource and a reference asks its record, so a reference to the record itself is never answered.
A reading comes to this only where a resource refers to itself by a member for records that are read
at once, and the field of the member is one for resources: this is what `Entangled` says of a source.
-/

namespace GraphMarshal

/-! ## Setting a member -/

theorem Heap.waits_iff {h : Heap} {place : RecordRef} {x : Reference} :
    h.waits (some place) x ↔ h.asked? x = some place := by
  unfold waits
  rw [Option.any_some, decide_eq_true_iff]

theorem Value.waits_of_convert {h : Heap} {l : Option RecordRef} {k : Kind} {v : Value}
    (hv : v.convert h l k = .error .blocked) :
    k = .resource ∧ ∃ x, v = .ref x ∧ h.waits l x := by
  unfold convert at hv
  split at hv
  · next x =>
    split at hv
    · next hwaits => exact ⟨rfl, x, rfl, hwaits⟩
    · split at hv <;> cases hv
  · split at hv <;> cases hv

theorem Value.waits_of_convertList {h : Heap} {l : Option RecordRef} {k : Kind} {v : Value}
    (hv : v.convertList h l k = .error .blocked) :
    k = .resource ∧ ∃ items x, v = .list items ∧ .ref x ∈ items ∧ h.waits l x := by
  unfold convertList at hv
  split at hv
  · next items =>
    cases hitems : items.mapM (convert h l k) with
    | ok vs =>
      rw [hitems] at hv
      cases hv
    | error stop =>
      rw [hitems] at hv
      cases hv
      obtain ⟨u, hu, hblocked⟩ := exists_of_mapM_error hitems
      obtain ⟨hk, x, rfl, hwaits⟩ := waits_of_convert hblocked
      exact ⟨hk, items, x, rfl, hu, hwaits⟩
  · cases hv

/-- A record waits for itself only where a field for resources is to hold a reference to it. -/
theorem Record.waits_of_set {s : Schema} {h : Heap} {place : RecordRef} {rec : Record}
    {name : String} {v : Value} (hv : rec.set s h place name v = .error .blocked) :
    s.isAbstract rec.type = false ∧
      ∃ f, s.field? rec.type name = some f ∧ f.field = .typed .resource ∧
        ∃ x, v.Refers x ∧ h.asked? x = some place := by
  unfold set at hv
  split at hv
  · split at hv <;> cases hv
  next hconcrete =>
  refine ⟨by simpa using hconcrete, ?_⟩
  split at hv
  case h_2 => cases hv
  next f hf =>
  have hblocked : accepted h (some place) f v = .error .blocked := by
    cases ha : accepted h (some place) f v with
    | ok u =>
      rw [ha] at hv
      cases hv
    | error stop =>
      rw [ha] at hv
      cases hv
      rfl
  unfold accepted at hblocked
  split at hblocked
  · cases hblocked
  · cases hblocked
  · cases hblocked
  · next k _ hfield =>
    split at hblocked
    · obtain ⟨rfl, items, x, rfl, hx, hwaits⟩ := Value.waits_of_convertList hblocked
      exact ⟨f, hf, hfield, x, Value.refers_list.2 ⟨_, hx, .ref x⟩, Heap.waits_iff.1 hwaits⟩
    · obtain ⟨rfl, x, rfl, hwaits⟩ := Value.waits_of_convert hblocked
      exact ⟨f, hf, hfield, x, .ref x, Heap.waits_iff.1 hwaits⟩

/-- A record does wait for itself where such a field is to hold one value. -/
theorem Engine.assign_self {cx : Setting} {w : World} {r : RecordRef} {rec : Record}
    {m : MemberBinding} {f : Member} (id : Resource) (hr : w.heap.record? r = some rec)
    (hconcrete : cx.schema.isAbstract rec.type = false)
    (hf : cx.schema.field? rec.type m.name = some f) (hsingle : f.collection = false)
    (hfield : f.field = .typed .resource) :
    assign cx r m id (.ref (.eager r)) w = .error .blocked w := by
  have hset : rec.set cx.schema w.heap r m.name (.ref (.eager r)) = .error .blocked := by
    unfold Record.set
    rw [hconcrete, hf]
    dsimp only
    rw [if_neg Bool.false_ne_true, Member.accepted_typed hfield nofun, hsingle,
      if_neg Bool.false_ne_true]
    unfold Value.convert
    dsimp only
    rw [if_pos (Heap.waits_iff.2 rfl)]
    rfl
  unfold assign
  rw [Run.bind_apply_ok (Run.recordAt_apply hr), Run.bind_apply_ok (Run.get_apply w), hset]
  rfl

/-! ## Resources that refer to themselves -/

open Engine

/-- A binding is known in a world, or the type is resolved to it once the declarations of some types
have been taken. -/
def World.Knows (cx : Setting) (w : World) (ty : TypeName) (b : TypeBinding) : Prop :=
  w.bindings.get? ty = some b ∨ ∃ tys iri, cx.checkedClass ty = .ok iri ∧
    b = .build cx (w.namespaces.registerAll cx.schema tys) ty iri

/-- All that a world has come to know since an earlier one. -/
structure World.Informed (cx : Setting) (start w : World) : Prop where
  namespaces : ∃ tys, w.namespaces = start.namespaces.registerAll cx.schema tys
  bindings : ∀ ty b, w.bindings.get? ty = some b → start.Knows cx ty b

theorem World.Informed.start (cx : Setting) (w : World) : w.Informed cx w :=
  ⟨⟨[], rfl⟩, fun _ _ => .inl⟩

theorem World.Informed.resolved {cx : Setting} {start w : World} {ty : TypeName} {iri : String}
    (h : start.Informed cx w) (hc : cx.checkedClass ty = .ok iri) :
    start.Informed cx (w.resolved cx ty iri) := by
  obtain ⟨tys, htys⟩ := h.namespaces
  have hnamespaces : (w.resolved cx ty iri).namespaces =
      start.namespaces.registerAll cx.schema (tys ++ ty :: cx.schema.inherited ty) := by
    show w.namespaces.registerAll cx.schema _ = _
    rw [htys]
    exact List.foldl_append.symm
  refine ⟨⟨_, hnamespaces⟩, fun t b hb => ?_⟩
  simp only [World.resolved, Table.get?_insert] at hb
  split at hb
  · next heq =>
    cases hb
    subst heq
    exact .inr ⟨_, iri, hc, congrArg (TypeBinding.build cx · _ iri) hnamespaces⟩
  · exact h.bindings t b hb

/-- A resource of a source refers to itself by a member for records that are read at once, and in
records of the type this is a field for resources. -/
def World.Entangled (cx : Setting) (source : SourceRef) (src : Source) (w : World) : Prop :=
  ∃ rd ty b predicate m f t, rd.source = source ∧ src.describe rd.id = .ok rd.graph ∧
    w.Knows cx ty b ∧ b.memberFor? predicate = some m ∧ (m.kind = .any ∨ m.kind.isRef) ∧
    m.lazy = false ∧ cx.schema.isAbstract ty = false ∧ cx.schema.field? ty m.name = some f ∧
    f.field = .typed .resource ∧ Offered src rd m (rd.graph.objects rd.subject predicate) t ∧
    Resource.ofTerm? t = some rd.id

theorem World.not_entangled {cx : Setting} {source : SourceRef} {src : Source} {w : World}
    (h : ∀ d ∈ cx.schema.types, ∀ m ∈ d.descriptor.members, m.field ≠ .typed .resource) :
    ¬w.Entangled cx source src := by
  rintro ⟨_, ty, _, _, m, f, _, -, -, -, -, -, -, -, hf, hfield, -, -⟩
  obtain ⟨t, -, hmem⟩ := List.mem_flatMap.1 (List.mem_of_find?_eq_some hf)
  unfold Schema.descriptor at hmem
  split at hmem
  · next d hd => exact h d (List.mem_of_find?_eq_some hd) f hmem hfield
  · cases hmem

end GraphMarshal
