import GraphMarshal.Engine.State

/-!
# Registering types

A type is resolved into its binding before it is used, and the binding is kept. Resolution first checks the type and then
takes prefix declarations: those of the type itself, then those of each ancestor that it inherits from as it is met. What
has been taken is not given back, so that it is the order of these steps that leaves nothing behind where a check fails.

Registering a type maps its class to it; a class that is registered again maps to the later type.
-/

namespace GraphMarshal

namespace Engine

/-- Takes the prefix declarations of a type, unless they have been taken before. -/
def declare (cx : Setting) (ty : TypeName) : Run Unit :=
  modify fun w =>
    { w with namespaces := w.namespaces.register ty (cx.schema.descriptor ty).namespaces }

/-- The class of a type, which has to be declared with one. -/
def checkClass (cx : Setting) (ty : TypeName) : Run String :=
  match (cx.schema.descriptor ty).classIri with
  | some iri => pure iri
  | none => Run.invalid (.noClass ty)

def checkSlot (cx : Setting) (ty : TypeName) : Run Unit :=
  if cx.schema.carriesId ty then pure () else Run.invalid (.noIdentifierSlot ty)

def checkMarker (cx : Setting) (ty : TypeName) : Run Unit :=
  if cx.config.enforceEntity && !(cx.schema.descriptor ty).entity then Run.invalid (.notAnEntity ty)
  else pure ()

end Engine

open Engine in
/-- Resolves a type. -/
def TypeBinding.resolve (cx : Setting) (ty : TypeName) : Run TypeBinding := do
  let iri ← checkClass cx ty
  checkSlot cx ty
  checkMarker cx ty
  declare cx ty
  (cx.schema.inherited ty).forM (declare cx)
  pure (.build cx (← get).namespaces ty iri)

namespace Engine

def bindingOf (cx : Setting) (ty : TypeName) : Run TypeBinding := do
  match (← get).bindings.get? ty with
  | some b => pure b
  | none =>
    let b ← TypeBinding.resolve cx ty
    modify fun w => { w with bindings := w.bindings.insert ty b }
    pure b

def register (cx : Setting) (ty : TypeName) : Run Unit := do
  let b ← bindingOf cx ty
  modify fun w => { w with classes := w.classes.insert b.classIri ty }

/-- Registers types in order, up to the first that cannot be resolved. -/
def init (cx : Setting) (tys : List TypeName) : Run Unit := tys.forM (register cx)

end Engine

end GraphMarshal
