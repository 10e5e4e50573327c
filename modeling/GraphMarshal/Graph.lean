import GraphMarshal.Distinct
import GraphMarshal.Table
import GraphMarshal.Triple

/-!
# Graphs

A graph is a bag of triples in the order in which they were added, with the prefix declarations that travel along.
`dedupe` makes it a set: sorted, and each triple once.
-/

namespace GraphMarshal

structure Graph where
  triples : List Triple := []
  prefixes : Table String String := ∅

namespace Graph

def empty : Graph := {}

def ofTriples (triples : List Triple) : Graph := { triples }

def size (g : Graph) : Nat := g.triples.length

def isEmpty (g : Graph) : Bool := g.triples.isEmpty

def addAll (g : Graph) (ts : List Triple) : Graph := { g with triples := g.triples ++ ts }

def add (g : Graph) (s p o : Term) : Graph := g.addAll [⟨s, p, o⟩]

/-- The later of two declarations of one prefix counts. -/
def declare (g : Graph) (label ns : String) : Graph :=
  { g with prefixes := g.prefixes.insert label ns }

/-! ## Patterns -/

/-- Whether a triple has the subject and the predicate asked for; what is not asked for may be anything. -/
def fits (s : Option Term) (p : Option String) (t : Triple) : Bool :=
  (match s with
    | some s => t.subject = s
    | none => true) &&
  match p with
    | some p => t.predicate.iri? = some p
    | none => true

def matching (g : Graph) (s : Option Term) (p : Option String) : List Triple :=
  g.triples.filter (fits s p)

def hasSubject (g : Graph) (s : Term) : Bool := g.triples.any fun t => t.subject = s

/-- The predicates of a subject that are IRIs, each once, in the order in which they first occur. -/
def predicatesOf (g : Graph) (s : Term) : List String :=
  distinct ((g.matching (some s) none).filterMap Triple.predicateIri?)

def objects (g : Graph) (s : Term) (p : String) : List Term :=
  (g.matching (some s) (some p)).map (·.object)

def object? (g : Graph) (s : Term) (p : String) : Option Term := (g.objects s p).head?

theorem fits_iff {s : Term} {p : String} {t : Triple} :
    fits (some s) (some p) t = true ↔ t.subject = s ∧ t.predicate.iri? = some p := by
  simp [fits]

theorem subject_of_fits {s : Term} {p : Option String} {t : Triple} (h : fits (some s) p t = true) :
    t.subject = s := by
  simp only [fits, Bool.and_eq_true, decide_eq_true_eq] at h
  exact h.1

theorem mem_matching {g : Graph} {s : Term} {t : Triple} :
    t ∈ g.matching (some s) none ↔ t ∈ g.triples ∧ t.subject = s := by
  simp [matching, fits]

theorem mem_objects_iff {g : Graph} {s o : Term} {p : String} : o ∈ g.objects s p ↔
    ∃ t ∈ g.triples, t.subject = s ∧ t.predicate.iri? = some p ∧ t.object = o := by
  unfold objects matching
  simp only [List.mem_map, List.mem_filter, fits_iff, and_assoc]

theorem mem_objects_of_object? {g : Graph} {s o : Term} {p : String} (h : g.object? s p = some o) :
    o ∈ g.objects s p :=
  List.mem_of_mem_head? h

theorem objects_of_not_hasSubject {g : Graph} {s : Term} (h : g.hasSubject s = false) (p : String) :
    g.objects s p = [] := by
  refine List.eq_nil_iff_forall_not_mem.2 fun o ho => ?_
  obtain ⟨t, ht, hs, -⟩ := mem_objects_iff.1 ho
  exact List.any_eq_false.1 h t ht (decide_eq_true hs)

/-! ## Set semantics -/

/-- Neighbours that are equal become one. -/
def collapse : List Triple → List Triple
  | [] => []
  | [t] => [t]
  | t :: u :: rest => if t = u then collapse (u :: rest) else t :: collapse (u :: rest)

def sortTriples (ts : List Triple) : List Triple := ts.mergeSort fun a b => (compare a b).isLE

def dedupe (g : Graph) : Graph := { g with triples := collapse (sortTriples g.triples) }

end Graph

end GraphMarshal
