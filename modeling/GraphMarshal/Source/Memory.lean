import GraphMarshal.Source

/-!
# Sources in memory

A memory source answers from the triples it holds. The description of a resource is its own triples and those of every
blank node that they reach through blank nodes. Reach and answers can be narrowed: to the resource's own triples, by
failures for some resources, and by a fixed answer to every query.
-/

namespace GraphMarshal

namespace Graph

/-- The nodes met from a stack of nodes through blank objects, in the order in which they are taken from it. -/
def reachFrom (g : Graph) : Nat → List Term → List Term → List Term
  | 0, _, _ => []
  | _ + 1, _, [] => []
  | n + 1, seen, node :: stack =>
    if node ∈ seen then g.reachFrom n seen stack
    else
      let found := ((g.matching (some node) none).map (·.object)).filter Term.isBlank
      node :: g.reachFrom n (node :: seen) (found.reverse ++ stack)

/-- A node and the blank nodes that it reaches through blank nodes. Every triple puts one node on the stack at most, which
bounds the steps. -/
def reach (g : Graph) (node : Term) : List Term := g.reachFrom (g.size + 1) [] [node]

/-- The triples of a node and of the blank nodes that it reaches. -/
def description (g : Graph) (node : Term) : Graph :=
  .ofTriples ((g.reach node).flatMap fun n => g.matching (some n) none)

theorem mem_of_mem_description {g : Graph} {node : Term} {t : Triple}
    (h : t ∈ (g.description node).triples) : t ∈ g.triples := by
  simp only [description, ofTriples, List.mem_flatMap, matching, List.mem_filter] at h
  obtain ⟨_, _, h, _⟩ := h
  exact h

theorem objectResources_subset {g g' : Graph} (h : ∀ t ∈ g.triples, t ∈ g'.triples) {n : Resource}
    (hn : n ∈ g.objectResources) : n ∈ g'.objectResources := by
  simp only [objectResources, List.mem_filterMap] at hn ⊢
  obtain ⟨t, ht, hn⟩ := hn
  exact ⟨t, h t ht, hn⟩

end Graph

/-- What a memory source answers to queries. -/
inductive QueryAnswer where
  | unsupported
  /-- All the triples that the source holds. -/
  | everything
  | triples (ts : List Triple)
  | failure (e : SourceError)

structure Memory where
  graph : Graph := .empty
  dialect : Dialect := .unknown
  /-- Whether blank nodes are described along with the resource that reaches them. -/
  closure : Bool := true
  failures : List (Resource × SourceError) := []
  answer : QueryAnswer := .unsupported

namespace Memory

def insert (m : Memory) (ts : List Triple) : Memory := { m with graph := m.graph.addAll ts }

def describe (m : Memory) (id : Resource) : Except SourceError Graph :=
  match m.failures.find? fun f => f.1 = id with
  | some f => .error f.2
  | none =>
    .ok (if m.closure then m.graph.description id.toTerm
      else .ofTriples (m.graph.matching (some id.toTerm) none))

def query (m : Memory) (_text : String) : Except SourceError Graph :=
  match m.answer with
  | .unsupported => .error (.unsupported "in-memory source does not evaluate queries")
  | .everything => .ok (.ofTriples m.graph.triples)
  | .triples ts => .ok (.ofTriples ts)
  | .failure e => .error e

/-- The resources in object position of what the source holds and of its fixed answer. -/
def nodes (m : Memory) : List Resource :=
  distinct (m.graph.objectResources ++
    match m.answer with
    | .triples ts => (Graph.ofTriples ts).objectResources
    | _ => [])

theorem describe_nodes (m : Memory) (id : Resource) (g : Graph) (h : m.describe id = .ok g)
    (n : Resource) (hn : n ∈ g.objectResources) : n ∈ m.nodes := by
  have hg : ∀ t ∈ g.triples, t ∈ m.graph.triples := by
    unfold describe at h
    split at h
    · cases h
    · injection h with h
      subst h
      split
      · exact fun t => Graph.mem_of_mem_description
      · exact fun t ht => (List.mem_filter.1 ht).1
  rw [nodes, mem_distinct, List.mem_append]
  exact .inl (Graph.objectResources_subset hg hn)

theorem query_nodes (m : Memory) (q : String) (g : Graph) (h : m.query q = .ok g)
    (n : Resource) (hn : n ∈ g.objectResources) : n ∈ m.nodes := by
  rw [nodes, mem_distinct, List.mem_append]
  unfold query at h
  split at h
  · cases h
  · injection h with h
    subst h
    exact .inl hn
  · next ts ha =>
    injection h with h
    subst h
    rw [ha]
    exact .inr hn
  · cases h

def toSource (m : Memory) : Source where
  describe := m.describe
  query := m.query
  dialect := m.dialect
  nodes := m.nodes
  describe_nodes := m.describe_nodes
  query_nodes := m.query_nodes

end Memory

end GraphMarshal
