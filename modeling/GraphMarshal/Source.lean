import GraphMarshal.Error
import GraphMarshal.Graph
import GraphMarshal.Source.Dialect

/-!
# Graph sources

A source describes resources and answers queries with graphs. The resources that stand in object position in its answers
are finitely many: `nodes` lists them, and so bounds how deep a record graph read from the source can be nested.
-/

namespace GraphMarshal

/-- The resources that a graph mentions in object position. -/
def Graph.objectResources (g : Graph) : List Resource :=
  g.triples.filterMap fun t => Resource.ofTerm? t.object

structure Source where
  /-- The triples about a resource; none, and no error, for an unknown one. -/
  describe : Resource → Except SourceError Graph
  query : String → Except SourceError Graph
  dialect : Dialect := .unknown
  nodes : List Resource
  describe_nodes : ∀ id g, describe id = .ok g → ∀ n ∈ g.objectResources, n ∈ nodes
  query_nodes : ∀ q g, query q = .ok g → ∀ n ∈ g.objectResources, n ∈ nodes

namespace Source

/-- The source that knows nothing. -/
def empty : Source where
  describe _ := .ok .empty
  query _ := .ok .empty
  nodes := []
  describe_nodes := by
    intro id g h
    obtain rfl : Graph.empty = g := by injection h
    simp [Graph.objectResources, Graph.empty]
  query_nodes := by
    intro q g h
    obtain rfl : Graph.empty = g := by injection h
    simp [Graph.objectResources, Graph.empty]

instance : Inhabited Source := ⟨empty⟩

end Source

end GraphMarshal
