import GraphMarshal.Proofs.Operations

/-!
# Resolving and registering types

Of what an engine knows about its types, a run changes two things: it resolves types, each at most
once and by the prefix table of the moment, and it registers them for their classes. `Resolves` is
this relation between the worlds before and after a run, with the registrations in order. Whatever
reads, writes or assigns identifiers resolves types and registers none; `init` registers those that
`registrations` lists.
-/

namespace GraphMarshal

open Engine

/-- Types are resolved, and registered for their classes in the order listed. -/
inductive World.Resolves (cx : Setting) : List (String × TypeName) → World → World → Prop
  /-- What is not about types may change. -/
  | rest {w w' : World} : w'.namespaces = w.namespaces → w'.bindings = w.bindings →
      w'.classes = w.classes → Resolves cx [] w w'
  | type {w : World} {ty : TypeName} {iri : String} : w.bindings.get? ty = none →
      cx.checkedClass ty = .ok iri → Resolves cx [] w (w.resolved cx ty iri)
  | class {w : World} {ty : TypeName} {b : TypeBinding} : w.bindings.get? ty = some b →
      Resolves cx [(b.classIri, ty)] w { w with classes := w.classes.insert b.classIri ty }
  | trans {l l' : List (String × TypeName)} {w₁ w₂ w₃ : World} : Resolves cx l w₁ w₂ →
      Resolves cx l' w₂ w₃ → Resolves cx (l ++ l') w₁ w₃

namespace World.Resolves

variable {cx : Setting} {w w₁ w₂ w₃ : World} {l : List (String × TypeName)}

protected theorem refl (w : World) : Resolves cx [] w w := .rest rfl rfl rfl

theorem before (h : Resolves cx [] w₁ w₂) (h' : Resolves cx l w₂ w₃) : Resolves cx l w₁ w₃ :=
  h.trans h'

theorem after (h : Resolves cx l w₁ w₂) (h' : Resolves cx [] w₂ w₃) : Resolves cx l w₁ w₃ := by
  have htrans := h.trans h'
  rwa [List.append_nil] at htrans

theorem binding (h : Resolves cx l w w₁) {ty : TypeName} {b : TypeBinding}
    (hb : w.bindings.get? ty = some b) : w₁.bindings.get? ty = some b := by
  induction h with
  | rest _ hbindings _ => rw [hbindings]; exact hb
  | @type w ty' iri hnew _ =>
    have hne : ty' ≠ ty := fun heq => by rw [heq, hb] at hnew; cases hnew
    exact (Table.get?_insert _ _ _ _).trans ((if_neg hne).trans hb)
  | «class» _ => exact hb
  | trans _ _ ih ih' => exact ih' (ih hb)

theorem classes (h : Resolves cx l w w₁) : w₁.classes = w.classes.insertAll l := by
  induction h with
  | rest _ _ hclasses => exact hclasses
  | type => rfl
  | «class» _ => rfl
  | trans _ _ ih ih' =>
    rw [ih', ih]
    exact List.foldl_append.symm

theorem bound (h : Resolves cx l w w₁) {iri : String} {ty : TypeName} (hmem : (iri, ty) ∈ l) :
    ∃ b, w₁.bindings.get? ty = some b ∧ b.classIri = iri := by
  induction h with
  | rest => cases hmem
  | type => cases hmem
  | «class» hb =>
    cases List.mem_singleton.1 hmem
    exact ⟨_, hb, rfl⟩
  | trans _ h' ih ih' =>
    rcases List.mem_append.1 hmem with hl | hl
    · obtain ⟨b, hb, heq⟩ := ih hl
      exact ⟨b, h'.binding hb, heq⟩
    · exact ih' hl

end World.Resolves

/-- Runs that resolve types and register none. -/
def resolving (cx : Setting) : Contract where
  step w w' := w.Resolves cx [] w' ∧ w'.sources = w.sources
  halt _ := True
  compared _ := True
  refl w := ⟨.refl w, rfl⟩
  trans h h' := ⟨h.1.before h'.1, h'.2.trans h.2⟩
  log _ _ := ⟨.rest rfl rfl rfl, rfl⟩
  back _ _ := trivial

namespace Engine

variable {cx : Setting} {w : World} {source : SourceRef} {r : RecordRef} {ty : TypeName}
  {id : Resource}

theorem resolving_rest {w' : World} (hn : w'.namespaces = w.namespaces)
    (hb : w'.bindings = w.bindings) (hc : w'.classes = w.classes) (hs : w'.sources = w.sources) :
    (resolving cx).step w w' :=
  ⟨.rest hn hb hc, hs⟩

theorem bindingOf_resolves :
    (resolving cx).Keeps (bindingOf cx ty) (bindingOf cx ty)
      (fun b w' => w'.bindings.get? ty = some b) w := by
  unfold Contract.Keeps
  cases hrun : bindingOf cx ty w with
  | error e w' =>
    obtain ⟨rfl, -, -⟩ := bindingOf_error hrun
    exact ⟨⟨.refl _, rfl⟩, trivial, fun _ => rfl⟩
  | ok b w' =>
    refine ⟨?_, (bindingOf_ok hrun).2.2.1, fun _ => rfl⟩
    obtain ⟨-, rfl⟩ | ⟨iri, hb, hc, rfl, -⟩ := bindingOf_eq_ok hrun
    · exact ⟨.refl _, rfl⟩
    · exact ⟨.type hb hc, rfl⟩

/-! ## Writing -/

theorem resolving_assigns (cx : Setting) : Assigns (resolving cx) cx where
  halt _ := trivial
  bound _ _ := bindingOf_resolves.mono fun _ _ _ _ => trivial
  count _ := resolving_rest rfl rfl rfl rfl
  initId _ _ _ := resolving_rest rfl rfl rfl rfl

/-! ## Reading -/

theorem modifyHeap_resolves {f : Heap → Heap} :
    (resolving cx).Keeps (Run.modifyHeap f) (Run.modifyHeap f) (fun _ _ => True) w :=
  .modify (resolving_rest rfl rfl rfl rfl) trivial

theorem resolving_decodes {src : Source} : Decodes (resolving cx) cx source src where
  halt _ := trivial
  sources h := h.2
  bound _ _ := bindingOf_resolves.mono fun _ _ _ _ => trivial
  alloc _ _ _ := resolving_rest rfl rfl rfl rfl
  around {w w' r id} _ h := by
    have henter : w.Resolves cx [] (w.enter id r) := .rest rfl rfl rfl
    have hleave : w'.Resolves cx [] (w'.leave id) := .rest rfl rfl rfl
    exact ⟨henter.before (h.1.after hleave), h.2⟩
  refine _ _ _ := resolving_rest rfl rfl rfl rfl
  defer _ := resolving_rest rfl rfl rfl rfl
  store _ _ _ _ _ _ _ := resolving_rest rfl rfl rfl rfl

/-! ## Registering -/

/-- The registrations that `init` makes, in order: those of the types before the first that cannot
be resolved. -/
def registrations (cx : Setting) : List TypeName → World → List (String × TypeName)
  | [], _ => []
  | ty :: tys, w =>
    match bindingOf cx ty w with
    | .ok b w' => (b.classIri, ty) ::
        registrations cx tys { w' with classes := w'.classes.insert b.classIri ty }
    | .error _ _ => []

theorem init_resolves (tys : List TypeName) (w : World) :
    w.Resolves cx (registrations cx tys w) ((Operation.init tys).after cx w) := by
  have hrun : ∀ ty tys (w : World), (Operation.init (ty :: tys)).run cx w =
      match bindingOf cx ty w with
      | .ok b w' => (Operation.init tys).run cx
          { w' with classes := w'.classes.insert b.classIri ty }
      | .error e w' => .error e w' := fun ty tys w => by
    show (register cx ty >>= fun _ => init cx tys) w = _
    rw [Run.bind_apply]
    unfold register
    rw [Run.bind_apply]
    cases bindingOf cx ty w <;> rfl
  induction tys generalizing w with
  | nil => exact .refl w
  | cons ty tys ih =>
    have hk : (resolving cx).Keeps (bindingOf cx ty) (bindingOf cx ty)
      (fun b w' => w'.bindings.get? ty = some b) w := bindingOf_resolves
    unfold Operation.after registrations
    rw [hrun]
    cases hb : bindingOf cx ty w with
    | error e w' => exact (hk.error hb).1.1
    | ok b w' =>
      obtain ⟨⟨hstep, -⟩, hbound, -⟩ := hk.ok hb
      exact hstep.before (.trans (.class hbound) (ih _))

end Engine

/-! ## Operations -/

namespace Operation

variable {cx : Setting} {w : World}

/-- The registrations that an operation makes. -/
def registrations (cx : Setting) (w : World) : Operation → List (String × TypeName)
  | init types => Engine.registrations cx types w
  | _ => []

/-- Whether an operation changes the prefix table by hand, not by resolving a type. -/
def declares : Operation → Bool
  | declare .. => true
  | register .. => true
  | _ => false

theorem setMember_resolves {r : RecordRef} {member : String} {v : Value} :
    (resolving cx).Keeps (setMember cx r member v) (setMember cx r member v)
      (fun _ _ => True) w := by
  refine .bind (.recordAt trivial) fun cur w₁ _ _ => ?_
  refine .bind .get fun w₂ w₃ _ _ => ?_
  split
  · exact modifyHeap_resolves
  · exact .pure trivial
  · exact .throw trivial

theorem giveId_resolves {r : RecordRef} {id : Resource} :
    (resolving cx).Keeps (giveId cx r id) (giveId cx r id) (fun _ _ => True) w := by
  refine .bind (.recordAt trivial) fun cur w₁ _ _ => ?_
  split
  · exact modifyHeap_resolves
  · exact .pure trivial

/-- **What an operation does to the types**, unless it changes the prefix table by hand: it resolves
some, and registers those that it is known to register. -/
theorem after_resolves (op : Operation) (hop : op.declares = false) :
    w.Resolves cx (op.registrations cx w) (op.after cx w) := by
  have of_keeps : ∀ {op : Operation},
      (resolving cx).Keeps (op.run cx) (op.run cx) (fun _ _ => True) w →
        w.Resolves cx [] (op.after cx w) := fun h => (step_after h).1
  cases op with
  | init types => exact init_resolves types w
  | resolve type => exact of_keeps (.ignored bindingOf_resolves)
  | declare label ns => cases hop
  | register type decls => cases hop
  | create type id => exact .rest rfl rfl rfl
  | set record member value => exact of_keeps setMember_resolves
  | identify record id => exact of_keeps giveId_resolves
  | assignId record => exact of_keeps (.ignored (assignId_keeps (resolving_assigns cx)))
  | write record => exact of_keeps (.ignored (toGraph_keeps (resolving_assigns cx).encodes))
  | attach source => exact .rest rfl rfl rfl
  | replace source content => exact .rest rfl rfl rfl
  | read source type id => exact of_keeps (.ignored (fromGraph_keeps resolving_decodes))
  | follow reference =>
    cases reference with
    | eager r => exact .refl w
    | lazy c =>
      exact of_keeps (.ignored (resolve_keeps (fun _ => resolving_decodes)
        fun _ _ => resolving_rest rfl rfl rfl rfl))

end Operation

end GraphMarshal
