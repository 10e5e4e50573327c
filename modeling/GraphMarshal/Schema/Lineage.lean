import GraphMarshal.Schema

/-!
# Lineage of a type

The parents of a type, their parents and so on, in a depth-first walk that enters every type once. Parents may be
shared, repeated or cyclic. The walk gives two orders of the same types: that in which they are entered and that in which
they are left, all their parents having been left before.
-/

namespace GraphMarshal.Schema

/-- What a walk has met so far. -/
structure Lineage where
  entered : List TypeName := []
  left : List TypeName := []
deriving DecidableEq, Repr

/-- Walks from a type. Every nested step enters a type of its own, and only declared types have parents, which bounds the
depth. -/
def visit (s : Schema) : Nat → Lineage → TypeName → Lineage
  | 0, l, _ => l
  | n + 1, l, ty =>
    if ty ∈ l.entered then l
    else
      let l := (s.parents ty).foldl (s.visit n) { l with entered := l.entered ++ [ty] }
      { l with left := l.left ++ [ty] }

def lineage (s : Schema) (ty : TypeName) : Lineage := s.visit (s.types.length + 2) {} ty

/-- The types whose members `ty` inherits, each after all of its own parents. -/
def ancestors (s : Schema) (ty : TypeName) : List TypeName :=
  (s.lineage ty).left.filter fun a => a ≠ ty

/-- Whether a type is another one or has it among its ancestors. -/
def isA (s : Schema) (ty ancestor : TypeName) : Bool :=
  decide (ancestor ∈ (s.lineage ty).entered)

end GraphMarshal.Schema
