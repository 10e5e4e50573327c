import GraphMarshal.Proofs.Description
import GraphMarshal.Proofs.Operations
import GraphMarshal.Proofs.Outcome
import GraphMarshal.Proofs.Pairing
import Mathlib.Data.List.Nodup

/-!
# Reading literals

Where the objects of all mapped predicates are literals, filling a record asks for nothing: no
related resource is read, no list is walked, no reference is deferred. Then what a reading gives is
a plain function of the description, member by member: `literalValue` is the value read for a
member, `literalOutcome` what the record keeps of it, and `literalRecord` the record that the
predicates of the resource come to.
-/

namespace GraphMarshal

/-! ## Runs without effect -/

namespace Run

variable {α β : Type}

theorem ofExcept_bind (x : Except MappingError α) (f : α → Except MappingError β) :
    (ofExcept x >>= fun a => ofExcept (f a)) = ofExcept (x >>= f) := by
  cases x <;> rfl

theorem ofExcept_map (x : Except MappingError α) (f : α → β) :
    (ofExcept x >>= fun a => pure (f a)) = ofExcept (x.map f) := by
  cases x <;> rfl

theorem mapM_ofExcept {f : α → Run β} {g : α → Except MappingError β} {l : List α}
    (h : ∀ a ∈ l, f a = ofExcept (g a)) : l.mapM f = ofExcept (l.mapM g) := by
  induction l with
  | nil => rfl
  | cons a l ih =>
    obtain ⟨ha, hl⟩ := List.forall_mem_cons.1 h
    simp only [List.mapM_cons, ha, ih hl]
    rw [← ofExcept_bind]
    congr 1
    funext b
    exact ofExcept_map _ _

end Run

/-! ## Values -/

/-- The element that a literal gives to a collection. -/
def Literal.element (m : MemberBinding) (t : Term) : Except MappingError Value :=
  match Literal.decode t m.kind with
  | .ok (some v) => .ok v
  | .ok none => .error (.invalid (.badElement t m.name))
  | .error e => .error e

/-- The value of a member whose objects are literals. -/
def MemberBinding.literalValue (c : Config) (m : MemberBinding) (objects : List Term) :
    Except MappingError (Option Value) :=
  if m.collection then
    ((m.collected c objects).mapM (Literal.element m)).map fun vs => some (.list vs)
  else match m.candidates c objects with
    | [] => .ok none
    | [t] => Literal.decode t m.kind
    | ts => .error (.ambiguousValue m.name ts.length)

theorem Resource.ofTerm?_of_isLiteral {t : Term} (ht : t.isLiteral) : ofTerm? t = none := by
  cases t <;> first | rfl | cases ht

/-- No reference and no list that holds one. -/
inductive Value.IsPlain : Value → Prop
  | atom {v : Value} : v.IsAtom → IsPlain v
  | list {vs : List Value} : (∀ v ∈ vs, v.IsAtom) → IsPlain (.list vs)

theorem Literal.element_isAtom {m : MemberBinding} {t : Term} {v : Value}
    (h : Literal.element m t = .ok v) : v.IsAtom := by
  unfold element at h
  split at h
  · next hd =>
    cases h
    exact decode_isAtom hd
  · cases h
  · cases h

theorem MemberBinding.literalValue_isPlain {c : Config} {m : MemberBinding} {objects : List Term}
    {v : Value} (h : m.literalValue c objects = .ok (some v)) : v.IsPlain := by
  unfold literalValue at h
  split at h
  · cases hvs : (m.collected c objects).mapM (Literal.element m) with
    | error e => rw [hvs] at h; cases h
    | ok vs =>
      rw [hvs] at h
      cases h
      refine .list fun u hu => ?_
      obtain ⟨t, -, ht⟩ := exists_of_forall₂_right (forall₂_of_mapM hvs) hu
      exact Literal.element_isAtom ht
  · split at h
    · cases h
    · exact .atom (Literal.decode_isAtom h)
    · cases h

namespace Engine

section

variable {cx : Setting} {read : Reader} {rd : Reading} {m : MemberBinding} {t : Term}
  {objects : List Term}

theorem termValue_literal (ht : t.isLiteral) :
    termValue cx read rd m t = Run.ofExcept (Literal.decode t m.kind) := by
  unfold termValue
  rw [Resource.ofTerm?_of_isLiteral ht]

theorem element_literal (ht : t.isLiteral) :
    element cx read rd m t = Run.ofExcept (Literal.element m t) := by
  unfold element Literal.element
  rw [termValue_literal ht]
  cases Literal.decode t m.kind with
  | error e => rfl
  | ok o => cases o <;> rfl

theorem elementsOf_literal (ht : t.isLiteral) :
    elementsOf cx read rd m t = Run.ofExcept ((Literal.element m t).map fun v => [v]) := by
  have hnil : t.isNil = false := by
    cases t <;> first | rfl | cases ht
  have hresource : t.isResource = false := by
    unfold Term.isResource
    rw [ht]
    rfl
  unfold elementsOf
  rw [hnil, hresource]
  simp only [Bool.false_eq_true, ↓reduceIte, pure_bind, Option.getD_none, List.mapM_cons,
    List.mapM_nil]
  rw [element_literal ht]
  exact Run.ofExcept_map _ _

theorem mapM_map_singleton {ε α β : Type} (f : α → Except ε β) (l : List α) :
    (l.mapM fun a => (f a).map fun b => [b]).map List.flatten = l.mapM f := by
  induction l with
  | nil => rfl
  | cons a l ih =>
    rw [List.mapM_cons, List.mapM_cons, ← ih]
    cases f a with
    | error e => rfl
    | ok b => cases l.mapM fun a => (f a).map fun b => [b] <;> rfl

theorem memberValue_literal (hobjects : ∀ t ∈ objects, t.isLiteral) :
    memberValue cx read rd m objects = Run.ofExcept (m.literalValue cx.config objects) := by
  unfold memberValue MemberBinding.literalValue
  split
  · unfold collectionValue
    rw [Run.mapM_ofExcept fun t ht =>
      elementsOf_literal (hobjects t (MemberBinding.mem_of_mem_collected ht)),
      ← mapM_map_singleton (Literal.element m)]
    cases (m.collected cx.config objects).mapM fun a => (Literal.element m a).map fun v => [v] <;>
      rfl
  · unfold singleValue
    rcases hts : m.candidates cx.config objects with _ | ⟨t, _ | ⟨u, ts⟩⟩
    · rfl
    · have hmem : t ∈ m.candidates cx.config objects := by
        rw [hts]
        exact List.mem_singleton_self t
      exact termValue_literal (hobjects t (MemberBinding.mem_of_mem_candidates hmem))
    · rfl

end

end Engine

/-! ## Storing -/

/-- What a record of a type keeps of a value that holds no reference. -/
def Schema.kept (s : Schema) (ty : TypeName) (name : String) (v : Value) : Except Stop Value :=
  if s.isAbstract ty then
    if s.declares ty name then .ok v else .error (.failed (.unknownMember name))
  else match s.field? ty name with
    | some f => Record.accepted {} none f v
    | none => .error (.failed (.unknownMember name))

theorem Value.convert_of_isPlain (h h' : Heap) (l l' : Option RecordRef) (k : Kind) {v : Value}
    (hv : v.IsPlain) : v.convert h l k = v.convert h' l' k := by
  cases hv with
  | atom hv => exact convert_of_isAtom h h' l l' k hv
  | list => cases k <;> rfl

theorem mapM_congr_mem {ε α β : Type} {f g : α → Except ε β} {l : List α}
    (h : ∀ a ∈ l, f a = g a) : l.mapM f = l.mapM g := by
  induction l with
  | nil => rfl
  | cons a l ih =>
    obtain ⟨ha, hl⟩ := List.forall_mem_cons.1 h
    rw [List.mapM_cons, List.mapM_cons, ha, ih hl]

theorem Value.convertList_of_isPlain (h h' : Heap) (l l' : Option RecordRef) (k : Kind) {v : Value}
    (hv : v.IsPlain) : v.convertList h l k = v.convertList h' l' k := by
  cases hv with
  | atom hv =>
    cases v with
    | list items => exact hv.elim
    | _ => rfl
  | list hvs =>
    exact congrArg (Except.map Value.list)
      (mapM_congr_mem fun v hv => convert_of_isAtom h h' l l' k (hvs v hv))

theorem Record.accepted_of_isPlain (h h' : Heap) (l l' : Option RecordRef) (f : Member) {v : Value}
    (hv : v.IsPlain) : Record.accepted h l f v = Record.accepted h' l' f v := by
  simp only [accepted, Value.convert_of_isPlain h h' l l' _ hv,
    Value.convertList_of_isPlain h h' l l' _ hv]

/-- Neither the heap nor the place counts for a value that holds no reference. -/
theorem Record.set_of_isPlain (s : Schema) (h : Heap) (place : RecordRef) (rec : Record)
    (name : String) {v : Value} (hv : v.IsPlain) :
    rec.set s h place name v = (s.kept rec.type name v).map (rec.store name) := by
  unfold set Schema.kept
  split
  · split <;> rfl
  · cases s.field? rec.type name with
    | some f =>
      exact congrArg (Except.map (rec.store name)) (accepted_of_isPlain h {} (some place) none f hv)
    | none => rfl

/-! Where no record is locked there is nothing to wait for. -/

theorem Value.failed_of_convert {h : Heap} {k : Kind} {v : Value} {stop : Stop}
    (hv : v.convert h none k = .error stop) : ∃ e, stop = .failed e := by
  unfold convert at hv
  split at hv
  · rw [if_neg (fun hwaits => by cases hwaits)] at hv
    split at hv <;> cases hv
    exact ⟨_, rfl⟩
  · split at hv <;> cases hv
    exact ⟨_, rfl⟩

theorem Schema.failed_of_kept {s : Schema} {ty : TypeName} {name : String} {v : Value} {stop : Stop}
    (hv : s.kept ty name v = .error stop) : ∃ e, stop = .failed e := by
  unfold kept at hv
  split at hv
  · split at hv <;> cases hv
    exact ⟨_, rfl⟩
  split at hv
  case h_2 => cases hv; exact ⟨_, rfl⟩
  unfold Record.accepted at hv
  split at hv
  · cases hv
    exact ⟨_, rfl⟩
  · cases hv
    exact ⟨_, rfl⟩
  · cases hv
  · split at hv
    · unfold Value.convertList at hv
      split at hv
      · next items =>
        cases hitems : items.mapM (Value.convert {} none _) with
        | ok vs => rw [hitems] at hv; cases hv
        | error stop' =>
          rw [hitems] at hv
          cases hv
          obtain ⟨u, -, hu⟩ := exists_of_mapM_error hitems
          exact Value.failed_of_convert hu
      · cases hv
        exact ⟨_, rfl⟩
    · exact Value.failed_of_convert hv

/-- What a record keeps of the objects of a member, which are literals. -/
def MemberBinding.literalOutcome (cx : Setting) (ty : TypeName) (id : Resource) (m : MemberBinding)
    (objects : List Term) : Except Halt (Option Value) :=
  match m.literalValue cx.config objects with
  | .error e => .error (.failed (Engine.memberError m id e))
  | .ok none => .ok none
  | .ok (some v) =>
    match cx.schema.kept ty m.name v with
    | .ok u => .ok (some u)
    | .error (.failed e) =>
      if e.isMismatch then .ok none else .error (.failed (.invalid (.unassignedMember m.name id e)))
    | .error .blocked => .error .blocked

theorem MemberBinding.failed_of_literalOutcome {cx : Setting} {ty : TypeName} {id : Resource}
    {m : MemberBinding} {objects : List Term} {h : Halt}
    (hm : m.literalOutcome cx ty id objects = .error h) : ∃ e, h = .failed e := by
  unfold literalOutcome at hm
  split at hm
  · cases hm
    exact ⟨_, rfl⟩
  · cases hm
  · split at hm
    · cases hm
    · split_ifs at hm
      cases hm
      exact ⟨_, rfl⟩
    · next hkept =>
      obtain ⟨e, he⟩ := Schema.failed_of_kept hkept
      cases he

/-- Takes the objects of a predicate into a record. -/
def Record.takeLiterals (cx : Setting) (b : TypeBinding) (id : Resource)
    (objects : String → List Term) (rec : Record) (predicate : String) : Except Halt Record :=
  match b.memberFor? predicate with
  | none => .ok rec
  | some m =>
    match m.literalOutcome cx rec.type id (objects predicate) with
    | .ok (some v) => .ok (rec.store m.name v)
    | .ok none => .ok rec
    | .error e => .error e

namespace Engine

/-- A run leaves the record that a plain function gives at its place, or stops as this does. -/
inductive Leaves (r : RecordRef) : Except Halt Record → EStateM.Result Halt World Unit → Prop
  | ok {rec : Record} {w : World} : w.heap.record? r = some rec → Leaves r (.ok rec) (.ok () w)
  | error {h : Halt} {w : World} : Leaves r (.error h) (.error h w)

variable {cx : Setting} {read : Reader} {rd : Reading} {b : TypeBinding} {r : RecordRef} {w : World}
  {rec : Record}

theorem onError_ofExcept {α : Type} (f : MappingError → MappingError) (x : Except MappingError α)
    (w : World) : Run.onError f (Run.ofExcept x) w = match x with
      | .ok a => .ok a w
      | .error e => .error (.failed (f e)) w := by
  cases x <;> rfl

theorem assign_literal {m : MemberBinding} {id : Resource} {v : Value}
    (hr : w.heap.record? r = some rec) (hv : v.IsPlain) : assign cx r m id v w =
      match cx.schema.kept rec.type m.name v with
      | .ok u => .ok () { w with heap := w.heap.modify r fun _ => rec.store m.name u }
      | .error (.failed e) =>
        if e.isMismatch then .ok () w
        else .error (.failed (.invalid (.unassignedMember m.name id e))) w
      | .error .blocked => .error .blocked w := by
  unfold assign
  rw [Run.bind_apply_ok (Run.recordAt_apply hr), Run.bind_apply_ok (Run.get_apply w),
    Record.set_of_isPlain _ _ _ _ _ hv]
  cases cx.schema.kept rec.type m.name v with
  | ok u => rfl
  | error stop =>
    cases stop with
    | blocked => rfl
    | failed e =>
      show (if e.isMismatch then pure () else Run.invalid _ : Run Unit) w = _
      dsimp only
      split <;> rfl

theorem readPredicate_literals {predicate : String} (hr : w.heap.record? r = some rec)
    (hliteral : ∀ m ∈ b.members, ∀ t ∈ rd.graph.objects rd.subject m.predicate, t.isLiteral) :
    Leaves r (rec.takeLiterals cx b rd.id (rd.graph.objects rd.subject) predicate)
      (readPredicate cx read rd b r predicate w) := by
  unfold readPredicate Record.takeLiterals
  cases hm : b.memberFor? predicate with
  | none => exact .ok hr
  | some m =>
    have hpredicate : m.predicate = predicate := by simpa using List.find?_some hm
    have hobjects := hliteral m (List.mem_of_find?_eq_some hm)
    rw [hpredicate] at hobjects
    dsimp only
    rw [memberValue_literal hobjects, Run.bind_apply, onError_ofExcept]
    unfold MemberBinding.literalOutcome
    cases hvalue : m.literalValue cx.config (rd.graph.objects rd.subject predicate) with
    | error e => exact .error
    | ok o =>
      cases o with
      | none => exact .ok hr
      | some v =>
        dsimp only
        rw [assign_literal hr (MemberBinding.literalValue_isPlain hvalue)]
        cases cx.schema.kept rec.type m.name v with
        | ok u => exact .ok (Heap.record?_modify_self hr _)
        | error stop =>
          cases stop with
          | blocked => exact .error
          | failed e =>
            dsimp only
            cases e.isMismatch with
            | true => exact .ok hr
            | false => exact .error

theorem forM_literals (hr : w.heap.record? r = some rec)
    (hliteral : ∀ m ∈ b.members, ∀ t ∈ rd.graph.objects rd.subject m.predicate, t.isLiteral)
    (predicates : List String) : Leaves r
      (predicates.foldlM (Record.takeLiterals cx b rd.id (rd.graph.objects rd.subject)) rec)
      (predicates.forM (readPredicate cx read rd b r) w) := by
  induction predicates generalizing w rec with
  | nil => exact .ok hr
  | cons predicate predicates ih =>
    show Leaves r _ ((readPredicate cx read rd b r predicate >>= fun _ =>
      predicates.forM (readPredicate cx read rd b r)) w)
    rw [List.foldlM_cons, Run.bind_apply]
    have hstep : Leaves r
        (rec.takeLiterals cx b rd.id (rd.graph.objects rd.subject) predicate)
        (readPredicate cx read rd b r predicate w) := readPredicate_literals hr hliteral
    generalize rec.takeLiterals cx b rd.id (rd.graph.objects rd.subject) predicate = x at hstep ⊢
    generalize readPredicate cx read rd b r predicate w = y at hstep ⊢
    cases hstep with
    | ok hr => exact ih hr
    | error => exact .error

end Engine

/-! ## Records -/

section

variable {cx : Setting} {b : TypeBinding} {id : Resource} {objects : String → List Term}
  {rec next : Record}

/-- What a record holds once the literals of predicates have been taken into it: of the member of
each of them, which it did not hold before, what the objects come to, and otherwise what it held. -/
structure Record.Takes (cx : Setting) (b : TypeBinding) (id : Resource)
    (objects : String → List Term) (predicates : List String) (rec next : Record) : Prop where
  type : next.type = rec.type
  outcome : ∀ p ∈ predicates, ∀ m, b.memberFor? p = some m → rec.values.get? m.name = none →
    m.literalOutcome cx rec.type id (objects p) = .ok (next.values.get? m.name)
  others : ∀ name, (∀ p ∈ predicates, ∀ m, b.memberFor? p = some m → m.name ≠ name) →
    next.values.get? name = rec.values.get? name
  id : next.id = rec.id

namespace Record.Takes

protected theorem nil (rec : Record) : Takes cx b id objects [] rec rec :=
  ⟨rfl, nofun, fun _ _ => rfl, rfl⟩

theorem single {p : String} (h : rec.takeLiterals cx b id objects p = .ok next) :
    Takes cx b id objects [p] rec next := by
  unfold takeLiterals at h
  cases hm : b.memberFor? p with
  | none =>
    rw [hm] at h
    cases h
    refine ⟨rfl, fun p' hp m hm' => ?_, fun _ _ => rfl, rfl⟩
    rw [List.mem_singleton.1 hp, hm] at hm'
    cases hm'
  | some m =>
    rw [hm] at h
    dsimp only at h
    have honly : ∀ p' ∈ [p], ∀ m', b.memberFor? p' = some m' → p' = p ∧ m' = m := by
      intro p' hp m' hm'
      obtain rfl := List.mem_singleton.1 hp
      exact ⟨rfl, Option.some.inj (hm'.symm.trans hm)⟩
    split at h
    · next v hv =>
      cases h
      refine ⟨rfl, fun p' hp m' hm' _ => ?_, fun name hname => ?_, rfl⟩
      · obtain ⟨rfl, rfl⟩ := honly p' hp m' hm'
        rw [hv]
        exact congrArg Except.ok (Table.get?_insert_self _ _ _).symm
      · exact (Table.get?_insert _ _ _ _).trans
          (if_neg (hname p (List.mem_singleton_self p) m hm))
    · next hnone =>
      cases h
      refine ⟨rfl, fun p' hp m' hm' hunset => ?_, fun _ _ => rfl, rfl⟩
      obtain ⟨rfl, rfl⟩ := honly p' hp m' hm'
      rw [hnone, hunset]
    · cases h

/-- Members of different predicates have different names, so that none is taken twice. -/
theorem cons {p : String} {ps : List String} {mid : Record}
    (hnames : (b.members.map (·.name)).Nodup) (hp : p ∉ ps)
    (h : Takes cx b id objects [p] rec mid) (h' : Takes cx b id objects ps mid next) :
    Takes cx b id objects (p :: ps) rec next := by
  have hapart : ∀ {p₁ p₂ m₁ m₂}, b.memberFor? p₁ = some m₁ → b.memberFor? p₂ = some m₂ → p₁ ≠ p₂ →
      m₁.name ≠ m₂.name := fun {p₁ p₂ m₁ m₂} h₁ h₂ hne hname => by
    have hpredicate₁ : m₁.predicate = p₁ := by simpa using List.find?_some h₁
    have hpredicate₂ : m₂.predicate = p₂ := by simpa using List.find?_some h₂
    have heq : m₁ = m₂ := List.inj_on_of_nodup_map hnames (List.mem_of_find?_eq_some h₁)
      (List.mem_of_find?_eq_some h₂) hname
    exact hne (by rw [← hpredicate₁, ← hpredicate₂, heq])
  have hne : ∀ p' ∈ ps, p' ≠ p := fun p' hp' heq => hp (heq ▸ hp')
  refine ⟨h'.type.trans h.type, fun p' hp' m hm hunset => ?_, fun name hname => ?_,
    h'.id.trans h.id⟩
  · rcases List.mem_cons.1 hp' with rfl | hp'
    · rw [h'.others m.name fun p₂ hp₂ m₂ hm₂ => hapart hm₂ hm (hne p₂ hp₂)]
      exact h.outcome p' (List.mem_singleton_self p') m hm hunset
    · have hunset' : mid.values.get? m.name = none := by
        refine (h.others m.name fun p₁ hp₁ m₁ hm₁ => ?_).trans hunset
        rw [List.mem_singleton.1 hp₁] at hm₁
        exact hapart hm₁ hm (hne p' hp').symm
      rw [← h.type]
      exact h'.outcome p' hp' m hm hunset'
  · obtain ⟨hname, hnames⟩ := List.forall_mem_cons.1 hname
    rw [h'.others name hnames]
    exact h.others name fun p' hp' => by rw [List.mem_singleton.1 hp']; exact hname

end Record.Takes

theorem Record.takes_of_foldlM (hnames : (b.members.map (·.name)).Nodup) {predicates : List String}
    (hnodup : predicates.Nodup)
    (h : predicates.foldlM (Record.takeLiterals cx b id objects) rec = .ok next) :
    Takes cx b id objects predicates rec next := by
  induction predicates generalizing rec with
  | nil =>
    cases h
    exact .nil _
  | cons p ps ih =>
    obtain ⟨hp, hps⟩ := List.nodup_cons.1 hnodup
    rw [List.foldlM_cons] at h
    cases hmid : rec.takeLiterals cx b id objects p with
    | error e => rw [hmid] at h; cases h
    | ok mid =>
      rw [hmid] at h
      exact .cons hnames hp (.single hmid) (ih hps h)

/-- If the literals of predicates cannot be taken, those of one member cannot. -/
theorem Record.exists_of_foldlM_error {predicates : List String} {e : Halt}
    (h : predicates.foldlM (Record.takeLiterals cx b id objects) rec = .error e) :
    ∃ p ∈ predicates, ∃ m, b.memberFor? p = some m ∧
      m.literalOutcome cx rec.type id (objects p) = .error e := by
  induction predicates generalizing rec with
  | nil => cases h
  | cons p ps ih =>
    rw [List.foldlM_cons] at h
    cases hmid : rec.takeLiterals cx b id objects p with
    | ok mid =>
      rw [hmid] at h
      obtain ⟨p', hp', m, hm, hfails⟩ := ih h
      rw [(Takes.single hmid).type] at hfails
      exact ⟨p', List.mem_cons_of_mem _ hp', m, hm, hfails⟩
    | error e' =>
      rw [hmid] at h
      cases h
      unfold takeLiterals at hmid
      split at hmid
      · cases hmid
      · next m hm =>
        refine ⟨p, List.mem_cons_self, m, hm, ?_⟩
        split at hmid <;> cases hmid
        assumption

end

namespace Engine

/-- The record that the literals of a resource come to. -/
def literalRecord (cx : Setting) (b : TypeBinding) (ty : TypeName) (id : Resource) (g : Graph) :
    Except Halt Record :=
  (g.predicatesOf id.toTerm).foldlM (Record.takeLiterals cx b id (g.objects id.toTerm))
    (outlineRecord ty id)

theorem failed_of_literalRecord {cx : Setting} {b : TypeBinding} {ty : TypeName} {id : Resource}
    {g : Graph} {h : Halt} (hrec : literalRecord cx b ty id g = .error h) : ∃ e, h = .failed e := by
  obtain ⟨_, -, m, -, hm⟩ := Record.exists_of_foldlM_error hrec
  exact MemberBinding.failed_of_literalOutcome hm

theorem readMembers_literals (cx : Setting) (read : Reader) (rd : Reading) {b : TypeBinding}
    {r : RecordRef} {w : World} {ty : TypeName}
    (hr : w.heap.record? r = some (outlineRecord ty rd.id))
    (hliteral : ∀ m ∈ b.members, ∀ t ∈ rd.graph.objects rd.subject m.predicate, t.isLiteral) :
    Leaves r (literalRecord cx b ty rd.id rd.graph) (readMembers cx read rd b r w) :=
  forM_literals hr hliteral (rd.graph.predicatesOf rd.subject)

/-- **Reading literals is a plain function** of the description: a reading gives the record that the
literals come to, or fails with their error. -/
theorem fromGraph_literals {cx : Setting} {w : World} {source : SourceRef} {ty : TypeName}
    {id : Resource} {g : Graph} {b : TypeBinding} (hnew : w.construction.get? id = none)
    (hslot : cx.schema.carriesId ty) (hdescribed : (w.source source).describe id = .ok g)
    (hb : w.bindings.get? (settledType cx w ⟨source, id, g⟩ ty) = some b)
    (hliteral : ∀ m ∈ b.members, ∀ t ∈ g.objects id.toTerm m.predicate, t.isLiteral) :
    match literalRecord cx b (settledType cx w ⟨source, id, g⟩ ty) id g with
    | .ok rec => ∃ r w', fromGraph cx source ty id w = .ok r w' ∧ w'.heap.record? r = some rec
    | .error h => ∃ w', fromGraph cx source ty id w = .error h w' := by
  rw [fromGraph_apply rfl, readWithin_succ_new hnew, construct_apply hslot]
  unfold fill
  rw [Run.bind_apply]
  have hp := prepare_run cx source (record?_entered w ty id)
  generalize prepare cx source w.heap.nextRecord ty id (entered w ty id) = x at hp ⊢
  cases hp with
  | undescribed w' e hd => exact absurd (hd.symm.trans hdescribed) nofun
  | unknown g' hd hsubject =>
    -- Without triples there are no predicates to take and no classes to refine by.
    obtain rfl : g' = g := Except.ok.inj (hd.symm.trans hdescribed)
    have hpredicates : g'.predicatesOf id.toTerm = [] :=
      List.eq_nil_iff_forall_not_mem.2 fun p hp =>
        Graph.mem_predicatesOf.1 hp (Graph.objects_of_not_hasSubject hsubject p)
    rw [settledType_unknown hsubject]
    unfold literalRecord
    rw [hpredicates]
    exact ⟨_, _, rfl, record?_entered w ty id⟩
  | unbound w' rd flaw hd hid _ _ hunbound =>
    obtain ⟨source', id', g'⟩ := rd
    obtain rfl : g' = g := Except.ok.inj (hd.symm.trans hdescribed)
    obtain rfl : id' = id := hid
    exact absurd (hunbound.symm.trans hb) nofun
  | ready w' rd b' h =>
    obtain ⟨source', id', g'⟩ := rd
    obtain rfl : g' = g := Except.ok.inj (h.described.symm.trans hdescribed)
    obtain rfl : source' = source := h.source
    obtain rfl : id' = id := h.id
    obtain rfl : b' = b := Option.some.inj (h.binding.symm.trans (h.frame.binding hb))
    have hrecord : w'.heap.record? w.heap.nextRecord =
        some (outlineRecord (settledType cx w ⟨source', id', g'⟩ ty) id') := h.record
    have hleaves := readMembers_literals cx (readWithin cx source' (w.source source').nodes.length)
      ⟨source', id', g'⟩ hrecord hliteral
    dsimp only at hleaves ⊢
    generalize literalRecord cx b' _ id' g' = x at hleaves ⊢
    generalize readMembers cx _ _ b' _ w' = y at hleaves ⊢
    cases hleaves with
    | ok hrec => exact ⟨_, _, rfl, hrec⟩
    | error => exact ⟨_, rfl⟩

end Engine

end GraphMarshal
