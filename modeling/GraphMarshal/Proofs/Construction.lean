import GraphMarshal.Proofs.Growth

/-!
# Constructing a record

A record is constructed in three steps: it is allocated and entered as under construction, it is
refined by the description of its resource (`prepare`), and its members are read (`readMembers`).
The first two change nothing but the new record and do not depend on how related resources are read,
so what a construction does is decided by the third.
-/

namespace GraphMarshal

/-- What a reading may rely on besides growing: how it may stop, and for which heaps at its end a
second reading is compared with it. -/
structure Terms where
  halt : Halt → Prop
  compared : Heap → Prop
  back : ∀ {r : RecordRef} {w w' : World}, w.Fills r w' → compared w'.heap → compared w.heap

namespace Terms

/-- The contract of a whole reading. -/
def extending (p : Terms) : Contract where
  step := World.Extends
  halt := p.halt
  compared w := p.compared w.heap
  refl := World.Frame.refl
  trans := World.Frame.trans
  log := World.Frame.log
  back h := p.back (r := ⟨0⟩) (.of_extends h)

/-- The contract of reading the members of a record. -/
def filling (p : Terms) (r : RecordRef) : Contract where
  step := World.Fills r
  halt := p.halt
  compared w := p.compared w.heap
  refl w := .of_extends (.refl w)
  trans := World.Fills.trans
  log w c := .of_extends (.log w c)
  back := p.back

/-- Readings that may fail with other errors. -/
def failing (p : Terms) (E : MappingError → Prop) : Terms :=
  { p with halt := (p.extending.failing E).halt }

theorem extending_failing (p : Terms) (E : MappingError → Prop) :
    (p.failing E).extending = p.extending.failing E := rfl

theorem filling_of_extending {p : Terms} {r : RecordRef} {α : Type} {x y : Run α}
    {V : α → World → Prop} {w : World} (h : p.extending.Keeps x y V w) :
    (p.filling r).Keeps x y V w :=
  h.loosen .of_extends id id

end Terms

/-- What stands against the resolution of a type, or its class. -/
def Setting.checkedClass (cx : Setting) (ty : TypeName) : Except Flaw String :=
  match (cx.schema.descriptor ty).classIri with
  | none => .error (.noClass ty)
  | some iri =>
    if !cx.schema.carriesId ty then .error (.noIdentifierSlot ty)
    else if cx.config.enforceEntity && !(cx.schema.descriptor ty).entity then .error (.notAnEntity ty)
    else .ok iri

/-- The prefix table after the declarations of types have been taken, one type after another. -/
def Namespaces.registerAll (n : Namespaces) (s : Schema) (tys : List TypeName) : Namespaces :=
  tys.foldl (fun n ty => n.register ty (s.descriptor ty).namespaces) n

/-- The world in which a type has been resolved, with the IRI that its class is declared with. -/
def World.resolved (cx : Setting) (w : World) (ty : TypeName) (iri : String) : World :=
  let n := w.namespaces.registerAll cx.schema (ty :: cx.schema.inherited ty)
  { w with namespaces := n, bindings := w.bindings.insert ty (.build cx n ty iri) }

namespace Engine

variable {cx : Setting} {source : SourceRef} {r : RecordRef} {ty : TypeName} {id : Resource}
  {w w' : World}

/-! ## Bindings -/

theorem bindingOf_of_cached {b : TypeBinding} (h : w.bindings.get? ty = some b) :
    bindingOf cx ty w = .ok b w := by
  unfold bindingOf
  rw [Run.bind_apply_ok (Run.get_apply w), h]
  rfl

theorem forM_declare (tys : List TypeName) (w : World) : tys.forM (declare cx) w =
    .ok () { w with namespaces := w.namespaces.registerAll cx.schema tys } := by
  induction tys generalizing w with
  | nil => rfl
  | cons ty tys ih =>
    have hty : declare cx ty w = .ok ()
        { w with namespaces := w.namespaces.register ty (cx.schema.descriptor ty).namespaces } :=
      rfl
    exact (Run.bind_apply_ok hty).trans (ih _)

/-- The checks come to an end before anything is declared, so a flaw leaves the world as it is. -/
theorem resolveType_apply (cx : Setting) (ty : TypeName) (w : World) :
    TypeBinding.resolve cx ty w = match cx.checkedClass ty with
      | .error flaw => .error (.failed (.invalid flaw)) w
      | .ok iri =>
        let n := w.namespaces.registerAll cx.schema (ty :: cx.schema.inherited ty)
        .ok (.build cx n ty iri) { w with namespaces := n } := by
  unfold TypeBinding.resolve Setting.checkedClass checkClass checkSlot checkMarker
  cases (cx.schema.descriptor ty).classIri with
  | none => rfl
  | some iri =>
    rw [Run.bind_apply_ok (Run.pure_apply iri w)]
    dsimp only
    cases cx.schema.carriesId ty with
    | false => rfl
    | true =>
      cases cx.config.enforceEntity && !(cx.schema.descriptor ty).entity with
      | true => rfl
      | false => exact Run.bind_apply_ok (forM_declare (ty :: cx.schema.inherited ty) w)

theorem resolveType_eq_ok {b : TypeBinding} (h : TypeBinding.resolve cx ty w = .ok b w') :
    ∃ iri, cx.checkedClass ty = .ok iri ∧ b = .build cx w'.namespaces ty iri ∧ w' = { w with
      namespaces := w.namespaces.registerAll cx.schema (ty :: cx.schema.inherited ty) } := by
  rw [resolveType_apply] at h
  cases hc : cx.checkedClass ty with
  | error flaw => rw [hc] at h; cases h
  | ok iri => rw [hc] at h; cases h; exact ⟨iri, rfl, rfl, rfl⟩

theorem bindingOf_of_new (h : w.bindings.get? ty = none) :
    bindingOf cx ty w = (do
      let b ← TypeBinding.resolve cx ty
      modify fun w => { w with bindings := w.bindings.insert ty b }
      pure b : Run TypeBinding) w := by
  unfold bindingOf
  rw [Run.bind_apply_ok (Run.get_apply w), h]

theorem bindingOf_of_checked {iri : String} (hnew : w.bindings.get? ty = none)
    (hc : cx.checkedClass ty = .ok iri) : bindingOf cx ty w = .ok
      (.build cx (w.namespaces.registerAll cx.schema (ty :: cx.schema.inherited ty)) ty iri)
      (w.resolved cx ty iri) := by
  rw [bindingOf_of_new hnew, Run.bind_apply, resolveType_apply, hc]
  rfl

theorem bindingOf_of_flaw {flaw : Flaw} (hnew : w.bindings.get? ty = none)
    (hc : cx.checkedClass ty = .error flaw) :
    bindingOf cx ty w = .error (.failed (.invalid flaw)) w := by
  rw [bindingOf_of_new hnew, Run.bind_apply, resolveType_apply, hc]

/-- A type that is bound was bound before, or it has no flaw and is resolved. -/
theorem bindingOf_eq_ok {b : TypeBinding} (h : bindingOf cx ty w = .ok b w') :
    w.bindings.get? ty = some b ∧ w' = w ∨ ∃ iri, w.bindings.get? ty = none ∧
      cx.checkedClass ty = .ok iri ∧ w' = w.resolved cx ty iri ∧
      b = .build cx (w.resolved cx ty iri).namespaces ty iri := by
  cases hb : w.bindings.get? ty with
  | some b' =>
    rw [bindingOf_of_cached hb] at h
    cases h
    exact .inl ⟨rfl, rfl⟩
  | none =>
    cases hc : cx.checkedClass ty with
    | error flaw =>
      rw [bindingOf_of_flaw hb hc] at h
      cases h
    | ok iri =>
      rw [bindingOf_of_checked hb hc] at h
      cases h
      exact .inr ⟨iri, rfl, rfl, rfl, rfl⟩

theorem extends_bind (h : w.bindings.get? ty = none) (b : TypeBinding) (n : Namespaces) :
    w.Extends { w with namespaces := n, bindings := w.bindings.insert ty b } where
  record _ hr := hr
  size := Nat.le_refl _
  cell hc := hc
  binding {ty' b'} hb := by
    have hne : ty ≠ ty' := fun heq => by rw [heq, hb] at h; cases h
    show (w.bindings.insert ty b).get? ty' = some b'
    rw [Table.get?_insert, if_neg hne]
    exact hb
  construction := rfl
  sources := rfl
  classes := rfl
  generated := rfl

theorem bindingOf_ok {b : TypeBinding} (h : bindingOf cx ty w = .ok b w') :
    w.Extends w' ∧ w'.heap = w.heap ∧ w'.bindings.get? ty = some b ∧
      (∀ b', w.bindings.get? ty = some b' → w'.namespaces = w.namespaces) := by
  obtain ⟨hb, rfl⟩ | ⟨iri, hb, -, rfl, rfl⟩ := bindingOf_eq_ok h
  · exact ⟨.refl w', rfl, hb, fun _ _ => rfl⟩
  · refine ⟨extends_bind hb _ _, rfl, Table.get?_insert_self _ _ _, fun b' hb' => ?_⟩
    cases hb.symm.trans hb'

theorem bindingOf_error {e : Halt} (h : bindingOf cx ty w = .error e w') :
    w' = w ∧ w.bindings.get? ty = none ∧
      ∃ flaw, e = .failed (.invalid flaw) ∧ cx.checkedClass ty = .error flaw := by
  cases hb : w.bindings.get? ty with
  | some b' => rw [bindingOf_of_cached hb] at h; cases h
  | none =>
    cases hc : cx.checkedClass ty with
    | error flaw =>
      rw [bindingOf_of_flaw hb hc] at h
      cases h
      exact ⟨rfl, rfl, flaw, rfl, rfl⟩
    | ok iri =>
      rw [bindingOf_of_checked hb hc] at h
      cases h

/-! ## Preparing -/

/-- The type that a record gets: the requested one, or the one that refines it where instances can
carry the identifier. -/
def settledType (cx : Setting) (w : World) (rd : Reading) (requested : TypeName) : TypeName :=
  match cx.schema.refinement w.typeForClass requested
      ((rd.graph.objects rd.subject Vocabulary.Rdf.type).filterMap Term.iri?) with
  | some ty => if cx.schema.carriesId ty then ty else requested
  | none => requested

/-- The record of a resource before any member is read. -/
def outlineRecord (ty : TypeName) (id : Resource) : Record := { type := ty, id := some id }

theorem refine_run (cx : Setting) (rd : Reading)
    (hr : w.heap.record? r = some (outlineRecord ty rd.id)) :
    ∃ w', refine cx rd r ty w = .ok () w' ∧ w.Frame (· ≠ r) w' ∧ w'.bindings = w.bindings ∧
      w'.namespaces = w.namespaces ∧ w'.heap.records.size = w.heap.records.size ∧
      w'.heap.record? r = some (outlineRecord (settledType cx w rd ty) rd.id) := by
  unfold refine settledType
  rw [Run.bind_apply_ok (Run.get_apply w)]
  cases cx.schema.refinement w.typeForClass ty
      ((rd.graph.objects rd.subject Vocabulary.Rdf.type).filterMap Term.iri?) with
  | none => exact ⟨w, rfl, .refl w, rfl, rfl, rfl, hr⟩
  | some t =>
    dsimp only
    split
    · exact ⟨_, rfl, .modify w r _, rfl, rfl, Heap.size_modify _ _ _,
        Heap.record?_modify_self hr _⟩
    · exact ⟨w, rfl, .refl w, rfl, rfl, rfl, hr⟩

/-- What is known when the members of a record are about to be read. -/
structure Prepared (cx : Setting) (src : SourceRef) (r : RecordRef) (ty : TypeName)
    (node : Resource) (w : World) (rd : Reading) (b : TypeBinding) (w' : World) : Prop where
  frame : w.Frame (· ≠ r) w'
  source : rd.source = src
  id : rd.id = node
  described : (w.source src).describe node = .ok rd.graph
  hasSubject : rd.graph.hasSubject rd.subject
  record : w'.heap.record? r = some (outlineRecord (settledType cx w rd ty) node)
  binding : w'.bindings.get? (settledType cx w rd ty) = some b
  names : ∀ b', w.bindings.get? (settledType cx w rd ty) = some b' → w'.namespaces = w.namespaces
  size : w'.heap.records.size = w.heap.records.size

/-- The ways in which preparing a record can end. -/
inductive Preparation (cx : Setting) (source : SourceRef) (r : RecordRef) (ty : TypeName)
    (id : Resource) (w : World) : EStateM.Result Halt World (Option (Reading × TypeBinding)) → Prop
  | undescribed (w' : World) (e : SourceError) : (w.source source).describe id = .error e →
      w.Frame (· ≠ r) w' → Preparation cx source r ty id w (.error (.failed (.source e)) w')
  | unknown (g : Graph) : (w.source source).describe id = .ok g → g.hasSubject id.toTerm = false →
      Preparation cx source r ty id w (.ok none
        { w with calls := (source, .describe id) :: w.calls })
  | unbound (w' : World) (rd : Reading) (flaw : Flaw) :
      (w.source source).describe id = .ok rd.graph → rd.id = id → rd.graph.hasSubject rd.subject →
      w.Frame (· ≠ r) w' → w.bindings.get? (settledType cx w rd ty) = none →
      cx.checkedClass (settledType cx w rd ty) = .error flaw →
      Preparation cx source r ty id w (.error (.failed (.invalid flaw)) w')
  | ready (w' : World) (rd : Reading) (b : TypeBinding) : Prepared cx source r ty id w rd b w' →
      Preparation cx source r ty id w (.ok (some (rd, b)) w')

theorem prepare_run (cx : Setting) (source : SourceRef)
    (hr : w.heap.record? r = some (outlineRecord ty id)) :
    Preparation cx source r ty id w (prepare cx source r ty id w) := by
  have hdesc : Run.describe source id w = .ok ((w.source source).describe id)
      { w with calls := (source, .describe id) :: w.calls } := rfl
  have hlog : w.Frame (· ≠ r) { w with calls := (source, .describe id) :: w.calls } := .log w _
  unfold prepare
  rw [Run.bind_apply_ok hdesc]
  cases hd : (w.source source).describe id with
  | error e => exact .undescribed _ e hd hlog
  | ok g =>
    dsimp only
    cases hsub : g.hasSubject (Reading.subject ⟨source, id, g⟩) with
    | false => exact .unknown g hd hsub
    | true =>
      obtain ⟨w₁, h₁, hf₁, hb₁, hn₁, hs₁, hr₁⟩ := refine_run cx ⟨source, id, g⟩
        (w := { w with calls := (source, .describe id) :: w.calls }) hr
      simp only [Bool.not_true, Bool.false_eq_true, ↓reduceIte]
      rw [Run.bind_apply_ok h₁, Run.bind_apply_ok (Run.recordAt_apply hr₁), Run.bind_apply]
      cases hbind : bindingOf cx (outlineRecord
        (settledType cx _ ⟨source, id, g⟩ ty) id).type w₁ with
      | error e w₂ =>
        obtain ⟨rfl, hnone, flaw, rfl, hflaw⟩ := bindingOf_error hbind
        rw [hb₁] at hnone
        exact .unbound _ ⟨source, id, g⟩ flaw hd rfl hsub (hlog.trans hf₁) hnone hflaw
      | ok b w₂ =>
        obtain ⟨he₂, hheap, hb₂, hn₂⟩ := bindingOf_ok hbind
        refine .ready _ ⟨source, id, g⟩ b ⟨(hlog.trans hf₁).trans
          (he₂.mono fun _ _ => trivial), rfl, rfl,
          hd, hsub, ?_, hb₂, fun b' hb' => ?_, by rw [hheap]; exact hs₁⟩
        · rw [hheap]
          exact hr₁
        · rw [hn₂ b' (by rw [hb₁]; exact hb'), hn₁]

/-! ## Members -/

/-- Storing a value: `I` holds afterwards if it does with the value stored, or where the value does
not fit. Any other refusal is an error, and the lock of the record is the one thing to wait for. -/
theorem assign_keeps {p : Terms} {m : MemberBinding} {v : Value} {I : World → Prop} {cur : Record}
    (hr : w.heap.record? r = some cur)
    (hrefuse : ∀ e, cur.set cx.schema w.heap r m.name v = .error (.failed e) →
      e.isMismatch = false → p.halt (.failed (.invalid (.unassignedMember m.name id e))))
    (hblock : cur.set cx.schema w.heap r m.name v = .error .blocked → p.halt .blocked)
    (hset : ∀ next, cur.set cx.schema w.heap r m.name v = .ok next →
      I { w with heap := w.heap.modify r fun _ => next })
    (hfit : I w) :
    (p.filling r).Keeps (assign cx r m id v) (assign cx r m id v) (fun _ => I) w := by
  unfold assign Run.recordAt
  refine .bind (V := fun a w' => a = cur ∧ w' = w) ?_ fun a w' _ ha => ?_
  · refine .bind .get fun a w' _ ha => ?_
    obtain ⟨rfl, rfl⟩ := ha
    rw [hr]
    exact .pure ⟨rfl, rfl⟩
  obtain ⟨rfl, rfl⟩ := ha
  refine .bind .get fun a₁ w₁ _ ha₁ => ?_
  obtain ⟨rfl, rfl⟩ := ha₁
  cases hn : a.set cx.schema w₁.heap r m.name v with
  | ok next => exact .modify (.of_set hr hn) (hset next hn)
  | error stop =>
    cases stop with
    | failed e =>
      dsimp only
      split
      · exact .pure hfit
      · next hmis => exact .fail (hrefuse e hn (by simpa using hmis))
    | blocked => exact .throw (hblock hn)

/-- Reading the members of a record, from what reading the value of each member does: `I` holds
afterwards if it is kept by that and by every value that is stored. -/
theorem readMembers_each {p : Terms} {rd : Reading} {b : TypeBinding} {read read' : Reader}
    {V : MemberBinding → World → Value → World → Prop} {I : World → Prop}
    (hvalue : ∀ predicate m w₁, b.memberFor? predicate = some m → w.Fills r w₁ →
      p.extending.Keeps
        (Run.onError (memberError m rd.id)
          (memberValue cx read rd m (rd.graph.objects rd.subject predicate)))
        (Run.onError (memberError m rd.id)
          (memberValue cx read' rd m (rd.graph.objects rd.subject predicate)))
        (fun o w₂ => ∀ v, o = some v → V m w₁ v w₂) w₁)
    (hrefuse : ∀ m w₂ v cur e, m ∈ b.members → w.Fills r w₂ → w₂.heap.record? r = some cur →
      cur.set cx.schema w₂.heap r m.name v = .error (.failed e) → e.isMismatch = false →
      p.halt (.failed (.invalid (.unassignedMember m.name rd.id e))))
    (hblock : ∀ w₁ w₂ m v cur, m ∈ b.members → w.Fills r w₁ → w₁.Extends w₂ → V m w₁ v w₂ →
      w₂.heap.record? r = some cur → cur.set cx.schema w₂.heap r m.name v = .error .blocked →
      p.halt .blocked)
    (hi : I w) (hrec : ∃ cur, w.heap.record? r = some cur)
    (hskip : ∀ w₁ w₂, w.Fills r w₁ → w₁.Extends w₂ → I w₁ → I w₂)
    (hset : ∀ w₁ w₂ m v cur next, m ∈ b.members → w.Fills r w₁ → w₁.Extends w₂ → I w₁ →
      V m w₁ v w₂ → w₂.heap.record? r = some cur →
      cur.set cx.schema w₂.heap r m.name v = .ok next →
      I { w₂ with heap := w₂.heap.modify r fun _ => next }) :
    (p.filling r).Keeps (readMembers cx read rd b r) (readMembers cx read' rd b r)
      (fun _ => I) w := by
  refine (Contract.Keeps.forM (I := fun _ => I) hi fun done predicate rest _ w₁ h₁ hi₁ => ?_)
  unfold readPredicate
  split
  · exact .pure hi₁
  · next m hm =>
    have hmem : m ∈ b.members := List.mem_of_find?_eq_some hm
    have hv := Terms.filling_of_extending (r := r) (hvalue predicate m w₁ hm h₁).and_step
    refine .bind hv fun o w₂ h₂ hv => ?_
    obtain ⟨he, hv⟩ := hv
    cases o with
    | none => exact .pure (hskip w₁ w₂ h₁ he hi₁)
    | some v =>
      obtain ⟨cur, hcur⟩ := hrec
      obtain ⟨cur₂, hcur₂, -, -⟩ := (h₁.trans h₂).outline hcur
      exact assign_keeps hcur₂ (fun e => hrefuse m w₂ v cur₂ e hmem (h₁.trans h₂) hcur₂)
        (hblock w₁ w₂ m v cur₂ hmem h₁ he (hv v rfl) hcur₂)
        (fun next hn => hset w₁ w₂ m v cur₂ next hmem h₁ he hi₁ (hv v rfl) hcur₂ hn)
        (hskip w₁ w₂ h₁ he hi₁)

/-! ## Records -/

/-- The world in which a record is prepared: it is allocated and under construction. -/
def entered (w : World) (ty : TypeName) (id : Resource) : World :=
  (w.alloc (outlineRecord ty id)).enter id w.heap.nextRecord

theorem record?_entered (w : World) (ty : TypeName) (id : Resource) :
    (entered w ty id).heap.record? w.heap.nextRecord = some (outlineRecord ty id) :=
  Heap.record?_alloc_next w.heap _

theorem underConstruction_apply {α : Type} (id : Resource) (r : RecordRef) (x : Run α) (w : World) :
    Run.underConstruction id r x w = match x (w.enter id r) with
      | .ok a w' => .ok a (w'.leave id)
      | .error e w' => .error e (w'.leave id) := by
  unfold Run.underConstruction World.enter
  cases x _ <;> rfl

/-- A run with a record under construction, if what it does in between may be done before and
after. -/
theorem underConstruction_keeps {K : Contract} {α : Type} {x : Run α}
    (hs : ∀ w', K.step (w.enter id r) w' → K.step w (w'.leave id))
    (hx : K.Keeps x x (fun _ _ => True) (w.enter id r)) :
    K.Keeps (Run.underConstruction id r x) (Run.underConstruction id r x) (fun _ _ => True) w := by
  unfold Contract.Keeps at hx ⊢
  rw [underConstruction_apply]
  cases hrun : x (w.enter id r) with
  | ok a w' => rw [hrun] at hx; exact ⟨hs w' hx.1, trivial, fun _ => rfl⟩
  | error e w' => rw [hrun] at hx; exact ⟨hs w' hx.1, hx.2.1, fun _ => rfl⟩

theorem construct_apply (hc : cx.schema.carriesId ty) (read : Reader) :
    construct cx read source ty id w =
      match fill cx read source w.heap.nextRecord ty id (entered w ty id) with
      | .ok _ w' => .ok w.heap.nextRecord (w'.leave id)
      | .error e w' => .error e (w'.leave id) := by
  have halloc : Run.alloc { type := ty, id := some id } w =
      .ok w.heap.nextRecord (w.alloc (outlineRecord ty id)) := rfl
  unfold construct
  simp only [hc, Bool.not_true, Bool.false_eq_true, ↓reduceIte]
  rw [Run.bind_apply_ok halloc, Run.bind_apply, underConstruction_apply, ← entered]
  cases fill cx read source w.heap.nextRecord ty id (entered w ty id) <;> rfl

/-- What was there before a construction is there as it was after it. -/
theorem extends_leave (hnew : w.construction.get? id = none)
    (h : (entered w ty id).Frame (· ≠ w.heap.nextRecord) w') : w.Extends (w'.leave id) where
  record {x rec} _ hx := by
    have hlt := Heap.record?_eq_some_lt hx
    have hne : x ≠ w.heap.nextRecord := fun heq => by
      rw [heq] at hlt
      exact Nat.lt_irrefl _ hlt
    exact h.record hne (Heap.record?_alloc hx _)
  size := by
    have halloc : w.Extends (w.alloc (outlineRecord ty id)) := .alloc w _
    exact Nat.le_trans halloc.size h.size
  cell hc := h.cell hc
  binding hb := h.binding hb
  construction := by
    show w'.construction.erase id = w.construction
    rw [h.construction]
    exact Table.erase_insert _ hnew
  sources := h.sources
  classes := h.classes
  generated := h.generated

/-- **Constructing a record** under a contract, from what preparing it and reading its members
do. -/
theorem construct_keeps {p : Terms} {read read' : Reader} {V : RecordRef → World → Prop}
    (hnew : w.construction.get? id = none)
    (hslot : cx.schema.carriesId ty = false → p.halt (.failed (.invalid (.noIdentifierSlot ty))))
    (herr : ∀ m w',
      prepare cx source w.heap.nextRecord ty id (entered w ty id) = .error (.failed m) w' →
      p.halt (.failed m))
    (hnone : ∀ g, (w.source source).describe id = .ok g → g.hasSubject id.toTerm = false →
      V w.heap.nextRecord
        ({ entered w ty id with calls := (source, .describe id) :: w.calls }.leave id))
    (hsome : ∀ rd b w₁, cx.schema.carriesId ty →
      Prepared cx source w.heap.nextRecord ty id (entered w ty id) rd b w₁ →
      (p.filling w.heap.nextRecord).Keeps (readMembers cx read rd b w.heap.nextRecord)
        (readMembers cx read' rd b w.heap.nextRecord)
        (fun _ w₂ => V w.heap.nextRecord (w₂.leave id)) w₁) :
    p.extending.Keeps (construct cx read source ty id) (construct cx read' source ty id) V w := by
  cases hc : cx.schema.carriesId ty with
  | false =>
    unfold construct
    rw [hc]
    exact .fail (hslot hc)
  | true =>
    unfold Contract.Keeps
    rw [construct_apply hc, construct_apply hc]
    unfold fill
    rw [Run.bind_apply, Run.bind_apply]
    have hp := prepare_run cx source (record?_entered w ty id)
    cases hrun : prepare cx source w.heap.nextRecord ty id (entered w ty id) with
    | error e w' =>
      rw [hrun] at hp
      cases hp with
      | undescribed _ _ _ hf => exact ⟨extends_leave hnew hf, herr _ _ hrun, fun _ => rfl⟩
      | unbound _ _ _ _ _ _ hf _ _ => exact ⟨extends_leave hnew hf, herr _ _ hrun, fun _ => rfl⟩
    | ok found w₁ =>
      rw [hrun] at hp
      cases hp with
      | unknown g hd hsub =>
        have hlog : (entered w ty id).Frame (· ≠ w.heap.nextRecord)
            { entered w ty id with calls := (source, .describe id) :: w.calls } := .log _ _
        exact ⟨extends_leave hnew hlog, hnone g hd hsub, fun _ => rfl⟩
      | ready _ rd b hready =>
        have hk := hsome rd b w₁ hc hready
        unfold Contract.Keeps at hk
        dsimp only
        cases hm : readMembers cx read rd b w.heap.nextRecord w₁ with
        | ok u w₂ =>
          rw [hm] at hk
          obtain ⟨hs, hv, hy⟩ := hk
          refine ⟨extends_leave hnew (hready.frame.trans hs.toFrame), hv, fun hcmp => ?_⟩
          rw [hy hcmp]
        | error e w₂ =>
          rw [hm] at hk
          obtain ⟨hs, he, hy⟩ := hk
          refine ⟨extends_leave hnew (hready.frame.trans hs.toFrame), he, fun hcmp => ?_⟩
          rw [hy hcmp]

/-! ## Nested readings -/

theorem reuseOr_registered {make : Reader} (h : w.construction.get? id = some r) :
    reuseOr make ty id w = .ok r w := by
  unfold reuseOr
  rw [Run.bind_apply_ok (Run.get_apply w), h]
  rfl

theorem reuseOr_new {make : Reader} (h : w.construction.get? id = none) :
    reuseOr make ty id w = make ty id w := by
  unfold reuseOr
  rw [Run.bind_apply_ok (Run.get_apply w), h]

theorem readWithin_registered {n : Nat} (h : w.construction.get? id = some r) :
    readWithin cx source n ty id w = .ok r w := by
  cases n <;> exact reuseOr_registered h

theorem readWithin_succ_new {n : Nat} (h : w.construction.get? id = none) :
    readWithin cx source (n + 1) ty id w = construct cx (readWithin cx source n) source ty id w :=
  reuseOr_new h

/-- The nodes of a source that are not under construction. -/
def unread (src : Source) (w : World) : List Resource :=
  src.nodes.filter fun n => w.construction.get? n = none

theorem unread_congr {src : Source} (h : w'.construction = w.construction) :
    unread src w' = unread src w := by
  unfold unread
  rw [h]

theorem construction_entered :
    (entered w ty id).construction = w.construction.insert id w.heap.nextRecord := rfl

theorem get?_entered_none {n : Resource} (h : (entered w ty id).construction.get? n = none) :
    w.construction.get? n = none := by
  rw [construction_entered, Table.get?_insert] at h
  split at h
  · cases h
  · exact h

/-- Entering a node of the source leaves fewer of them to read. -/
theorem length_unread_entered_lt {src : Source} (ty : TypeName) (hid : id ∈ src.nodes)
    (hnew : w.construction.get? id = none) :
    (unread src (entered w ty id)).length < (unread src w).length := by
  refine length_filter_lt (fun n hn => ?_) hid (by simpa using hnew) ?_
  · simp only [decide_eq_true_eq] at hn ⊢
    exact get?_entered_none hn
  · rw [construction_entered, Table.get?_insert_self]
    simp

theorem Prepared.knows {rd : Reading} {b : TypeBinding} {src : Source}
    (h : Prepared cx source r ty id w rd b w') (hs : w.source source = src) :
    ∀ n ∈ rd.graph.objectResources, n ∈ src.nodes :=
  src.describe_nodes id rd.graph (hs ▸ h.described)

theorem Prepared.source_eq {rd : Reading} {b : TypeBinding} {src : Source} {w₁ : World}
    (h : Prepared cx source r ty id w rd b w') (hs : w.source source = src) (h₁ : w'.Fills r w₁) :
    w₁.source rd.source = src := by
  rw [h₁.source, h.frame.source, h.source, hs]

end Engine

end GraphMarshal
