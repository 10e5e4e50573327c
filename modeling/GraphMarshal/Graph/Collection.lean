import GraphMarshal.Graph

/-!
# Lists in a graph

A list is a chain of cells: each has its item under `rdf:first` and the next cell under `rdf:rest`, and `rdf:nil` ends
the chain. Graphs may hold any chain, so reading stops at a cell without a next one and at a cell met before.
-/

namespace GraphMarshal.Graph

open Vocabulary

/-- Whether a node is `rdf:nil` or a resource with an item and a next cell. -/
def isList (g : Graph) (node : Term) : Bool :=
  node.isNil ||
    (node.isResource && (g.object? node Rdf.first).isSome && (g.object? node Rdf.rest).isSome)

/-- The cells of the chain from `node` on, none of them in `seen`, at most `n` of them. -/
def cellsFrom (g : Graph) : Nat → List Term → Term → List Term
  | 0, _, _ => []
  | n + 1, seen, node =>
    if node.isNil ∨ node ∈ seen then []
    else node :: match g.object? node Rdf.rest with
      | none => []
      | some next => g.cellsFrom n (node :: seen) next

/-- The cells of the chain that starts at `head`. All but the last are subjects of the graph, which bounds them. -/
def cells (g : Graph) (head : Term) : List Term := g.cellsFrom (g.size + 1) [] head

/-- The items of the list that starts at `head`, if one does. -/
def listItems (g : Graph) (head : Term) : Option (List Term) :=
  if g.isList head then some ((g.cells head).filterMap fun c => g.object? c Rdf.first) else none

/-! ## Writing -/

/-- The first of the cells given with their items. -/
def headOf : List (Term × Term) → Term
  | [] => .nil
  | (cell, _) :: _ => cell

/-- The triples that chain up cells with their items. -/
def chain : List (Term × Term) → List Triple
  | [] => []
  | (cell, item) :: rest =>
    ⟨cell, .iri Rdf.first, item⟩ :: ⟨cell, .iri Rdf.rest, headOf rest⟩ :: chain rest

/-- The triples that link a list of the given cells and items from a subject and a predicate. -/
def listTriples (s p : Term) (entries : List (Term × Term)) : List Triple :=
  ⟨s, p, headOf entries⟩ :: chain entries

def addList (g : Graph) (s p : Term) (entries : List (Term × Term)) : Graph :=
  g.addAll (listTriples s p entries)

end GraphMarshal.Graph
