import GraphMarshal.Engine.Read

/-!
# Following references

A deferred reference is resolved at most once: the first time that it succeeds the record is kept, and a failure leaves
the reference as it was.
-/

namespace GraphMarshal.Engine

def resolve (cx : Setting) (c : LazyRef) : Run RecordRef := do
  match (← get).heap.cell? c with
  | none => throw .dangling
  | some cell =>
    match cell.resolved with
    | some r => pure r
    | none =>
      let r ← fromGraph cx cell.source cell.target cell.id
      Run.modifyHeap (·.modifyCell c fun cell => { cell with resolved := some r })
      pure r

/-- The record that a reference leads to. -/
def follow (cx : Setting) : Reference → Run RecordRef
  | .eager r => pure r
  | .lazy c => resolve cx c

end GraphMarshal.Engine
