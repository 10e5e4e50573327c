import GraphMarshal.Proofs.Soundness

/-!
# Operations and reachable worlds

Whatever is done with an engine, its records and its sources is one of a few operations. A world is
reachable if operations lead to it from the world of a new engine, each of them ending with a result
or with an error. Reachable worlds are sound and have nothing under construction.
-/

namespace GraphMarshal

open Engine

inductive Operation where
  | init (types : List TypeName)
  | resolve (type : TypeName)
  /-- Adds a prefix to the table. -/
  | declare (label ns : String)
  /-- Takes the prefix declarations of a type. -/
  | register (type : TypeName) (decls : List (String × String))
  | create (type : TypeName) (id : Option Resource)
  | set (record : RecordRef) (member : String) (value : Value)
  /-- Gives a record with a slot for it an identifier, unless it has one. -/
  | identify (record : RecordRef) (id : Resource)
  | assignId (record : RecordRef)
  | write (record : RecordRef)
  | attach (source : Source)
  /-- A source changes. -/
  | replace (source : SourceRef) (content : Source)
  | read (source : SourceRef) (type : TypeName) (id : Resource)
  | follow (reference : Reference)

namespace Operation

def setMember (cx : Setting) (r : RecordRef) (member : String) (v : Value) : Run Unit := do
  let cur ← Run.recordAt r
  match cur.set cx.schema (← get).heap r member v with
  | .ok next => Run.modifyHeap (·.modify r fun _ => next)
  | .error (.failed _) => pure ()
  | .error .blocked => throw .blocked

def giveId (cx : Setting) (r : RecordRef) (id : Resource) : Run Unit := do
  let cur ← Run.recordAt r
  if cx.schema.carriesId cur.type then Run.modifyHeap (·.initId r id) else pure ()

def run (cx : Setting) : Operation → Run Unit
  | init types => Engine.init cx types
  | resolve type => do let _ ← bindingOf cx type
  | declare label ns => modify fun w => { w with namespaces := w.namespaces.add label ns }
  | register type decls => modify fun w => { w with namespaces := w.namespaces.register type decls }
  | create type id => do let _ ← Run.alloc (cx.schema.instantiate type id)
  | set record member value => setMember cx record member value
  | identify record id => giveId cx record id
  | assignId record => do let _ ← Engine.assignId cx record
  | write record => do let _ ← toGraph cx record
  | attach source => modify fun w => { w with sources := w.sources.push source }
  | replace source content =>
    modify fun w => { w with sources := w.sources.setIfInBounds source.index content }
  | read source type id => do let _ ← fromGraph cx source type id
  | follow reference => do let _ ← Engine.follow cx reference

/-- The world in which an operation ends. -/
def after (cx : Setting) (op : Operation) (w : World) : World :=
  match op.run cx w with
  | .ok _ w' => w'
  | .error _ w' => w'

end Operation

/-- The world that operations lead to, one after another. -/
def World.run (cx : Setting) (w : World) (ops : List Operation) : World :=
  ops.foldl (fun w op => op.after cx w) w

/-- The worlds that operations lead to. -/
inductive World.Reachable (cx : Setting) : World → Prop
  | initial : Reachable cx (.initial cx.config)
  | step {w : World} (op : Operation) : Reachable cx w → Reachable cx (op.after cx w)

theorem World.Reachable.run {cx : Setting} {w : World} (h : w.Reachable cx) (ops : List Operation) :
    (w.run cx ops).Reachable cx := by
  induction ops generalizing w with
  | nil => exact h
  | cons op ops ih => exact ih (.step op h)

/-- What holds in every world that operations lead to. -/
structure World.Stable (cx : Setting) (w : World) : Prop where
  sound : w.Sound cx
  idle : ∀ n, w.construction.get? n = none

theorem World.Preserves.stable {cx : Setting} {w w₁ : World} (h : w.Preserves cx w₁)
    (hw : w.Stable cx) :
    w₁.Stable cx :=
  ⟨h.sound hw.sound, fun n => by rw [h.construction]; exact hw.idle n⟩

namespace Operation

variable {cx : Setting} {w : World}

theorem setMember_preserves {r : RecordRef} {member : String} {v : Value} :
    (preserving cx).Keeps (setMember cx r member v) (setMember cx r member v)
      (fun _ _ => True) w := by
  refine .bind (.recordAt trivial) fun cur w₁ _ hcur => ?_
  obtain ⟨rfl, hcur⟩ := hcur
  refine .bind .get fun w₂ w₃ _ hw => ?_
  obtain ⟨rfl, rfl⟩ := hw
  split
  · next next hn => exact .modify (.set hcur hn) trivial
  · exact .pure trivial
  · exact .throw trivial

theorem giveId_preserves {r : RecordRef} {id : Resource} :
    (preserving cx).Keeps (giveId cx r id) (giveId cx r id) (fun _ _ => True) w := by
  refine .bind (.recordAt trivial) fun cur w₁ _ _ => ?_
  split
  · exact initId_preserves
  · exact .pure trivial

theorem follow_preserves {x : Reference} (hidle : ∀ n, w.construction.get? n = none) :
    (preserving cx).Keeps (Engine.follow cx x) (Engine.follow cx x) (fun _ _ => True) w := by
  cases x with
  | eager r => exact .pure trivial
  | lazy c => exact resolve_preserves hidle

/-- What an operation may do to the world, it has done however it ended. -/
theorem step_after {K : Contract} {op : Operation} {V : Unit → World → Prop}
    (h : K.Keeps (op.run cx) (op.run cx) V w) : K.step w (op.after cx w) := by
  unfold after
  cases hrun : op.run cx w with
  | ok _ w' => exact (h.ok hrun).1
  | error _ w' => exact (h.error hrun).1

theorem stable_of_keeps {op : Operation} (hw : w.Stable cx)
    (h : (preserving cx).Keeps (op.run cx) (op.run cx) (fun _ _ => True) w) :
    (op.after cx w).Stable cx :=
  World.Preserves.stable (step_after h) hw

theorem after_stable (op : Operation) (hw : w.Stable cx) : (op.after cx w).Stable cx := by
  cases op with
  | init types => exact stable_of_keeps hw init_preserves
  | resolve type => exact stable_of_keeps hw (.ignored bindingOf_preserves)
  | declare label ns => exact stable_of_keeps hw (.modify (.of_eq rfl rfl rfl rfl) trivial)
  | register type decls => exact stable_of_keeps hw (.modify (.of_eq rfl rfl rfl rfl) trivial)
  | create type id =>
    refine stable_of_keeps hw (.ignored (V := fun _ _ => True) ?_)
    exact .of_ok rfl (.alloc (cx.schema.instantiate type id) rfl) trivial fun _ => rfl
  | set record member value => exact stable_of_keeps hw setMember_preserves
  | identify record id => exact stable_of_keeps hw giveId_preserves
  | assignId record => exact stable_of_keeps hw (.ignored assignId_preserves)
  | write record => exact stable_of_keeps hw (.ignored toGraph_preserves)
  | attach source => exact ⟨hw.sound.of_eq rfl rfl, hw.idle⟩
  | replace source content => exact ⟨hw.sound.of_eq rfl rfl, hw.idle⟩
  | read source type id => exact stable_of_keeps hw (.ignored fromGraph_preserves)
  | follow reference => exact stable_of_keeps hw (.ignored (follow_preserves hw.idle))

end Operation

/-- **Reachable worlds** are sound, and have nothing under construction. -/
theorem World.Reachable.stable {cx : Setting} {w : World} (h : w.Reachable cx) : w.Stable cx := by
  induction h with
  | initial =>
    refine ⟨⟨fun hb => ?_, fun hr => ?_, fun c cell a hc => ?_⟩, fun n => rfl⟩
    · cases hb
    · cases hr
    · cases hc
  | step op _ ih => exact op.after_stable ih

end GraphMarshal
