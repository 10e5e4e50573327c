import GraphMarshal.Proofs.Construction

/-!
# Why readings fail

A reading fails because of the type that it is asked for, because the source refuses to describe the
resource, because the type that the resource asserts cannot be bound, because the value of a member
cannot be read, or because a record of its type refuses a value. `ReadingFault` lists these reasons
with what they are found in. A reading of a related resource has reasons of its own, which reach the
outer reading in strict mode only (`TermFault`).
-/

namespace GraphMarshal.Engine

variable {cx : Setting} {source : SourceRef} {ty : TypeName} {id : Resource} {w w' : World}

/-- The reading of a resource gets as far as its members: `rd` is what they are read from, and `b`
the binding of the type that the record has got. -/
def Reaches (cx : Setting) (source : SourceRef) (w : World) (ty : TypeName) (id : Resource)
    (rd : Reading) (b : TypeBinding) : Prop :=
  ∃ w', Prepared cx source w.heap.nextRecord ty id (entered w ty id) rd b w'

/-- Records of a type refuse some value for a member, and not because it does not fit. -/
def Refuses (cx : Setting) (ty : TypeName) (m : MemberBinding) (e : AssignError) : Prop :=
  ∃ (h : Heap) (r : RecordRef) (cur : Record) (v : Value), cur.type = ty ∧
    cur.set cx.schema h r m.name v = .error (.failed e) ∧ e.isMismatch = false

/-- Why reading a resource that is not under construction fails, where the readings `read` of
related resources fail for reasons `N`. -/
inductive ReadingFault (cx : Setting) (source : SourceRef) (read : Reader)
    (N : MappingError → Prop) (w : World) (ty : TypeName) (id : Resource) : MappingError → Prop
  | slot : cx.schema.carriesId ty = false →
    ReadingFault cx source read N w ty id (.invalid (.noIdentifierSlot ty))
  | undescribed {f : SourceError} : (w.source source).describe id = .error f →
    ReadingFault cx source read N w ty id (.source f)
  | unbound {rd : Reading} {flaw : Flaw} : rd.id = id →
    (w.source source).describe id = .ok rd.graph →
    cx.checkedClass (settledType cx w rd ty) = .error flaw →
    ReadingFault cx source read N w ty id (.invalid flaw)
  | member {rd : Reading} {b : TypeBinding} {predicate : String} {m : MemberBinding}
    {e : MappingError} : Reaches cx source w ty id rd b → b.memberFor? predicate = some m →
    MemberFault cx (w.source source) read rd m N (rd.graph.objects rd.subject predicate) e →
    ReadingFault cx source read N w ty id (memberError m id e)
  | refused {rd : Reading} {b : TypeBinding} {m : MemberBinding} {e : AssignError} :
    Reaches cx source w ty id rd b → m ∈ b.members → Refuses cx (settledType cx w rd ty) m e →
    ReadingFault cx source read N w ty id (.invalid (.unassignedMember m.name id e))

theorem Prepared.reads {p : Terms} {read read' : Reader} {rd : Reading} {b : TypeBinding}
    {w₁ w₂ : World} (hp : Prepared cx source w.heap.nextRecord ty id (entered w ty id) rd b w₁)
    (hread : ∀ w', (entered w ty id).Frame (· ≠ w.heap.nextRecord) w' → ∀ target,
      ∀ node ∈ (w.source source).nodes,
        p.extending.Keeps (read target node) (read' target node) (fun _ _ => True) w')
    (h₂ : w₁.Fills w.heap.nextRecord w₂) :
    Reads p.extending (w.source source) rd read read' (fun _ _ _ => True) w₂ :=
  .unnoted (fun h => hp.source_eq rfl (h₂.trans (.of_extends h))) (hp.knows rfl)
    (fun {w₃} h target node hnode => hread w₃
      (hp.frame.trans (h₂.trans (.of_extends h)).toFrame) target node hnode)
    fun {w₃} _ cell _ => .allocCell w₃ cell

/-- The members of a prepared record cannot be read only for one of the reasons, and reading them
keeps what the readings of related resources keep. -/
theorem Prepared.readMembers_fails {p : Terms} {read read' : Reader} {rd : Reading}
    {b : TypeBinding} {w₁ : World}
    (hp : Prepared cx source w.heap.nextRecord ty id (entered w ty id) rd b w₁)
    (hblock : p.halt .blocked)
    (hread : ∀ w', (entered w ty id).Frame (· ≠ w.heap.nextRecord) w' → ∀ target,
      ∀ node ∈ (w.source source).nodes,
        p.extending.Keeps (read target node) (read' target node) (fun _ _ => True) w') :
    ((p.failing (ReadingFault cx source read p.extending.faults w ty id)).filling
      w.heap.nextRecord).Keeps (readMembers cx read rd b w.heap.nextRecord)
        (readMembers cx read' rd b w.heap.nextRecord) (fun _ _ => True) w₁ := by
  have hreach : Reaches cx source w ty id rd b := ⟨w₁, hp⟩
  refine readMembers_each (V := fun _ _ _ _ => True) (I := fun _ => True)
    (fun predicate m w₂ hm h₂ => ?_) (fun m w₂ v cur e hm h₂ hcur hset hmis => ?_)
    (fun _ _ _ _ _ _ _ _ _ _ _ => hblock) trivial ⟨_, hp.record⟩ (fun _ _ _ _ _ => trivial)
    fun _ _ _ _ _ _ _ _ _ _ _ _ _ => trivial
  · have hreads := hp.reads hread h₂
    have hvalue := memberValue_keeps cx m (rd.graph.objects rd.subject predicate) hreads
      (.refl w₂) fun t ht => hreads.knows_object ht
    refine .mono (.onError hvalue fun e he => ?_) fun _ _ _ _ _ _ => trivial
    rw [hp.id]
    exact .member hreach hm he
  · obtain ⟨cur', hcur', htype, -⟩ := h₂.outline hp.record
    rw [hcur] at hcur'
    cases hcur'
    rw [hp.id]
    exact .refused hreach hm ⟨w₂.heap, _, cur, v, htype, hset, hmis⟩

theorem construct_fails {p : Terms} {read read' : Reader} (hnew : w.construction.get? id = none)
    (hblock : p.halt .blocked)
    (hread : ∀ w', (entered w ty id).Frame (· ≠ w.heap.nextRecord) w' → ∀ target,
      ∀ node ∈ (w.source source).nodes,
        p.extending.Keeps (read target node) (read' target node) (fun _ _ => True) w') :
    (p.extending.failing (ReadingFault cx source read p.extending.faults w ty id)).Keeps
      (construct cx read source ty id) (construct cx read' source ty id) (fun _ _ => True) w := by
  rw [← p.extending_failing]
  refine construct_keeps hnew (fun hslot => .slot hslot) (fun e w' herr => ?_)
    (fun _ _ _ => trivial) fun rd b w₁ _ hp => hp.readMembers_fails hblock hread
  have hp := prepare_run cx source (record?_entered w ty id)
  rw [herr] at hp
  cases hp with
  | undescribed _ f hf _ => exact .undescribed hf
  | unbound _ rd flaw hdesc hid _ _ _ hflaw => exact .unbound hid hdesc hflaw

/-- A construction keeps what the readings of related resources keep, if it may fail anyhow. -/
theorem construct_each {p : Terms} {read read' : Reader} (hnew : w.construction.get? id = none)
    (hfail : ∀ e, p.halt (.failed e)) (hblock : p.halt .blocked)
    (hread : ∀ w', (entered w ty id).Frame (· ≠ w.heap.nextRecord) w' → ∀ target,
      ∀ node ∈ (w.source source).nodes,
        p.extending.Keeps (read target node) (read' target node) (fun _ _ => True) w') :
    p.extending.Keeps (construct cx read source ty id) (construct cx read' source ty id)
      (fun _ _ => True) w :=
  (construct_fails hnew hblock hread).of_failing fun e _ => hfail e

/-! ## Whole readings -/

/-- Readings that may end in any way. -/
def anyEnd : Terms where
  halt _ := True
  compared _ := True
  back _ _ := trivial

theorem readWithin_extends : ∀ n w ty id, anyEnd.extending.Keeps (readWithin cx source n ty id)
    (readWithin cx source n ty id) (fun _ _ => True) w := by
  intro n
  induction n with
  | zero =>
    intro w ty id
    refine .bind .get fun _ _ _ _ => ?_
    split
    · exact .pure trivial
    · exact .throw trivial
  | succ n ih =>
    intro w ty id
    cases hr : w.construction.get? id with
    | some r => exact .of_ok (readWithin_registered hr) (.refl w) trivial fun _ =>
        readWithin_registered hr
    | none =>
      refine .congr (readWithin_succ_new hr) (readWithin_succ_new hr) ?_
      exact construct_each hr (fun _ => trivial) trivial fun w' _ target node _ => ih w' target node

theorem readWithin_fails {n : Nat} (hnew : w.construction.get? id = none) :
    (anyEnd.extending.failing
      (ReadingFault cx source (readWithin cx source n) (fun _ => True) w ty id)).Keeps
        (readWithin cx source (n + 1) ty id) (readWithin cx source (n + 1) ty id)
        (fun _ _ => True) w :=
  .congr (readWithin_succ_new hnew) (readWithin_succ_new hnew)
    (construct_fails hnew trivial fun w' _ target node _ => readWithin_extends n w' target node)

theorem fromGraph_apply {src : Source} (hsrc : w.source source = src) :
    fromGraph cx source ty id w = readWithin cx source (src.nodes.length + 1) ty id w := by
  unfold fromGraph
  rw [Run.bind_apply_ok (Run.get_apply w), hsrc]

theorem fromGraph_extends : anyEnd.extending.Keeps (fromGraph cx source ty id)
    (fromGraph cx source ty id) (fun _ _ => True) w :=
  .congr (fromGraph_apply rfl) (fromGraph_apply rfl) (readWithin_extends _ w ty id)

/-- **Why a reading fails**: a reading that fails has one of the reasons above. -/
theorem fromGraph_fails {e : MappingError}
    (hrun : fromGraph cx source ty id w = .error (.failed e) w') :
    ReadingFault cx source (readWithin cx source (w.source source).nodes.length) (fun _ => True) w
      ty id e := by
  rw [fromGraph_apply rfl] at hrun
  cases hr : w.construction.get? id with
  | some r =>
    rw [readWithin_registered hr] at hrun
    cases hrun
  | none => exact ((readWithin_fails hr).error hrun).2.1

end GraphMarshal.Engine
