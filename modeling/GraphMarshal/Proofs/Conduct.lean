import GraphMarshal.Proofs.Operations

/-!
# Operations under a contract

Most of what an operation does to a world is of three kinds: it adds to what is there, it gives
identifiers, or it changes something that neither the heap nor the bindings tell. Only storing a
value and resolving a deferred reference are apart. A contract that grants the three kinds is kept
by every other operation, and by these two as far as it grants them.
-/

namespace GraphMarshal

open Engine

/-- What a contract has to grant for what engines do besides storing values and resolving
references. -/
structure Operates (K : Contract) : Prop where
  halt : ∀ e, K.halt e
  grow : ∀ {w w'}, w.Extends w' → K.step w w'
  identify : ∀ {w w'}, w.Identifies False w' → K.step w w'
  rest : ∀ {w w'}, w'.heap = w.heap → w'.bindings = w.bindings →
    w'.construction = w.construction → w'.generated = w.generated → K.step w w'

namespace Operates

variable {K : Contract} {cx : Setting} {w : World} {ty : TypeName} {source : SourceRef}
  {id : Resource} {r : RecordRef}

theorem bindingOf (h : Operates K) :
    K.Keeps (bindingOf cx ty) (bindingOf cx ty) (fun _ _ => True) w := by
  have hk : (identifying False).Keeps (Engine.bindingOf cx ty) (Engine.bindingOf cx ty)
      (fun _ _ => True) w := (bindingOf_identifies nofun).mono fun _ _ _ _ => trivial
  exact hk.loosen h.identify (fun _ => h.halt _) fun _ => trivial

theorem assigns (h : Operates K) : Assigns K cx where
  halt := h.halt
  bound _ _ := h.bindingOf
  count w := h.identify (.count w (Nat.le_succ _))
  initId w r id := h.identify (.initId w r id)

theorem init (h : Operates K) {tys : List TypeName} :
    K.Keeps (init cx tys) (init cx tys) (fun _ _ => True) w :=
  .forM (I := fun _ _ => True) trivial fun _ _ _ _ _ _ _ =>
    .bind h.bindingOf fun _ _ _ _ => .modify (h.rest rfl rfl rfl rfl) trivial

theorem fromGraph (h : Operates K) :
    K.Keeps (fromGraph cx source ty id) (fromGraph cx source ty id) (fun _ _ => True) w :=
  fromGraph_extends.loosen h.grow (fun _ => h.halt _) fun _ => trivial

theorem giveId (h : Operates K) :
    K.Keeps (Operation.giveId cx r id) (Operation.giveId cx r id) (fun _ _ => True) w := by
  refine .bind (.recordAt (h.halt _)) fun cur w₁ _ _ => ?_
  split
  · exact .modify (h.identify (.initId w₁ r id)) trivial
  · exact .pure trivial

theorem setMember (h : Operates K) {member : String} {v : Value}
    (hset : ∀ cur next, w.heap.record? r = some cur → cur.set cx.schema w.heap r member v = .ok next →
      K.step w { w with heap := w.heap.modify r fun _ => next }) :
    K.Keeps (Operation.setMember cx r member v) (Operation.setMember cx r member v)
      (fun _ _ => True) w := by
  refine .bind (.recordAt (h.halt _)) fun cur w₁ _ hcur => ?_
  obtain ⟨rfl, hcur⟩ := hcur
  refine .bind .get fun w₂ w₃ _ hw => ?_
  obtain ⟨rfl, rfl⟩ := hw
  split
  · next next hn => exact .modify (hset cur next hcur hn) trivial
  · exact .pure trivial
  · exact .throw (h.halt _)

theorem resolve (h : Operates K) {c : LazyRef}
    (hsettle : ∀ (w : World) a, K.step w
      { w with heap := w.heap.modifyCell c fun cell => { cell with resolved := some a } }) :
    K.Keeps (resolve cx c) (resolve cx c) (fun _ _ => True) w := by
  unfold Engine.resolve
  refine .bind .get fun w₁ w₂ _ hw => ?_
  obtain ⟨rfl, rfl⟩ := hw
  split
  · exact .throw (h.halt _)
  · split
    · exact .pure trivial
    · refine .bind h.fromGraph fun a w₃ _ _ => ?_
      exact .bind (V := fun _ _ => True) (.modify (hsettle w₃ a) trivial) fun _ _ _ _ => .pure trivial

/-- **Every operation** keeps a contract that grants what it is for. -/
theorem run (h : Operates K) (op : Operation)
    (hset : ∀ r member v cur next, op = .set r member v → w.heap.record? r = some cur →
      cur.set cx.schema w.heap r member v = .ok next →
      K.step w { w with heap := w.heap.modify r fun _ => next })
    (hfollow : ∀ c, op = .follow (.lazy c) →
      K.Keeps (Engine.resolve cx c) (Engine.resolve cx c) (fun _ _ => True) w) :
    K.Keeps (op.run cx) (op.run cx) (fun _ _ => True) w := by
  cases op with
  | init types => exact h.init
  | resolve type => exact .ignored h.bindingOf
  | declare label ns => exact .modify (h.rest rfl rfl rfl rfl) trivial
  | register type decls => exact .modify (h.rest rfl rfl rfl rfl) trivial
  | create type id =>
    refine .ignored (V := fun _ _ => True) ?_
    exact .of_ok rfl (h.grow (.alloc w _)) trivial fun _ => rfl
  | set record member value =>
    exact h.setMember fun cur next => hset record member value cur next rfl
  | identify record id => exact h.giveId
  | assignId record => exact .ignored (assignId_keeps h.assigns)
  | write record => exact .ignored (toGraph_keeps h.assigns.encodes)
  | attach source => exact .modify (h.rest rfl rfl rfl rfl) trivial
  | replace source content => exact .modify (h.rest rfl rfl rfl rfl) trivial
  | read source type id => exact .ignored h.fromGraph
  | follow reference =>
    cases reference with
    | eager r => exact .ignored (V := fun _ _ => True) (.pure trivial)
    | lazy c => exact .ignored (hfollow c rfl)

end Operates

end GraphMarshal
