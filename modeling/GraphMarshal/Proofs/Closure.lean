import GraphMarshal.Proofs.Description

/-!
# Concise bounded descriptions

The description of a resource goes from it to its blank objects, to theirs and so on, and takes all
triples of what it meets. `LeadsTo` says which nodes these are, whatever order they are met in. The
walk that meets them runs without a budget in `Walks`; it ends for every graph, and what it finds is
what the resource leads to, each node once.
-/

namespace GraphMarshal.Graph

/-- The nodes that a node leads to: itself, and the blank objects of every node that it leads to. -/
inductive LeadsTo (g : Graph) (node : Term) : Term → Prop
  | self : LeadsTo g node node
  | blank {t : Triple} : LeadsTo g node t.subject → t ∈ g.triples → t.object.isBlank →
    LeadsTo g node t.object

/-- The walk over a stack of nodes, without a budget: a node met before is dropped, a new one is
found and puts its blank objects on the stack, and an empty stack ends the walk. -/
inductive Walks (g : Graph) : List Term → List Term → List Term → Prop
  | done {seen : List Term} : Walks g seen [] []
  | skip {seen stack found : List Term} {node : Term} : node ∈ seen → Walks g seen stack found →
    Walks g seen (node :: stack) found
  | take {seen stack found : List Term} {node : Term} : node ∉ seen →
    Walks g (node :: seen)
      ((((g.matching (some node) none).map (·.object)).filter Term.isBlank).reverse ++ stack)
      found →
    Walks g seen (node :: stack) (node :: found)

variable {g : Graph} {node s : Term}

/-! ## Walks -/

theorem Walks.unique {seen stack found found' : List Term} (h : g.Walks seen stack found)
    (h' : g.Walks seen stack found') : found = found' := by
  induction h generalizing found' with
  | done => cases h'; rfl
  | skip hseen _ ih =>
    cases h' with
    | skip _ h' => exact ih h'
    | take hnew _ => exact absurd hseen hnew
  | take hnew _ ih =>
    cases h' with
    | skip hseen _ => exact absurd hseen hnew
    | take _ h' => rw [ih h']

/-- Every walk ends: a node that is new takes its triples away from those that are not met. -/
theorem reachFrom_walks : ∀ (n : Nat) (seen stack : List Term),
    stack.length + (g.unmetTriples seen).length ≤ n →
    g.Walks seen stack (g.reachFrom n seen stack) := by
  intro n
  induction n with
  | zero =>
    intro seen stack h
    obtain rfl : stack = [] := List.eq_nil_of_length_eq_zero (by omega)
    exact .done
  | succ n ih =>
    intro seen stack h
    cases stack with
    | nil => exact .done
    | cons node stack =>
      rw [List.length_cons] at h
      unfold reachFrom
      split
      · next hseen => exact .skip hseen (ih seen stack (by omega))
      · next hnew =>
        have hlen := length_unmetTriples_cons (g := g) hnew
        have hfound := List.length_filter_le Term.isBlank
          ((g.matching (some node) none).map (·.object))
        rw [List.length_map] at hfound
        refine .take hnew (ih (node :: seen) _ ?_)
        rw [List.length_append, List.length_reverse]
        omega

theorem reach_walks (g : Graph) (node : Term) : g.Walks [] [node] (g.reach node) := by
  refine reachFrom_walks _ _ _ ?_
  have hle : (g.unmetTriples []).length ≤ g.size := List.length_filter_le _ _
  rw [List.length_singleton]
  omega

theorem Walks.leadsTo {seen stack found : List Term} (h : g.Walks seen stack found)
    (hstack : ∀ x ∈ stack, g.LeadsTo node x) : ∀ x ∈ found, g.LeadsTo node x := by
  induction h with
  | done => exact fun x hx => by cases hx
  | skip _ _ ih => exact ih fun x hx => hstack x (List.mem_cons_of_mem _ hx)
  | @take seen stack found top _ _ ih =>
    have htop : g.LeadsTo node top := hstack top List.mem_cons_self
    refine List.forall_mem_cons.2 ⟨htop, ih fun x hx => ?_⟩
    rcases List.mem_append.1 hx with hx | hx
    · obtain ⟨hx, hblank⟩ := List.mem_filter.1 (List.mem_reverse.1 hx)
      obtain ⟨t, ht, rfl⟩ := List.mem_map.1 hx
      obtain ⟨htriple, rfl⟩ := mem_matching.1 ht
      exact .blank htop htriple hblank
    · exact hstack x (List.mem_cons_of_mem _ hx)

/-- A walk goes the same way in a graph that says the same of every node it finds. -/
theorem Walks.congr {g' : Graph} {seen stack found : List Term} (h : g.Walks seen stack found)
    (hsame : ∀ x ∈ found, g'.matching (some x) none = g.matching (some x) none) :
    g'.Walks seen stack found := by
  induction h with
  | done => exact .done
  | skip hseen _ ih => exact .skip hseen (ih hsame)
  | take hnew _ ih =>
    obtain ⟨hnode, hrest⟩ := List.forall_mem_cons.1 hsame
    refine .take hnew ?_
    rw [hnode]
    exact ih hrest

/-! ## What a node leads to -/

/-- **The walk finds what its node leads to.** -/
theorem mem_reach_iff : s ∈ g.reach node ↔ g.LeadsTo node s := by
  constructor
  · refine (g.reach_walks node).leadsTo (fun x hx => ?_) s
    rw [List.mem_singleton.1 hx]
    exact .self
  · intro h
    induction h with
    | self => exact g.mem_reach_self node
    | @blank t _ ht hblank ih =>
      have hclosed := (g.reach_reached node).closed t.subject ih t (mem_matching.2 ⟨ht, rfl⟩) hblank
      exact hclosed.resolve_left List.not_mem_nil

instance (g : Graph) (node : Term) : DecidablePred (g.LeadsTo node) := fun s =>
  decidable_of_iff (s ∈ g.reach node) mem_reach_iff

/-! ## Descriptions -/

theorem count_description (g : Graph) (node : Term) (t : Triple) :
    (g.description node).triples.count t =
      (g.triples.filter fun t => g.LeadsTo node t.subject).count t := by
  -- Both counts are those of the triples about the subject.
  have hsubject : ∀ ts : List Triple,
      ts.count t = (ts.filter (fits (some t.subject) none)).count t :=
    fun ts => (List.count_filter (by simp [fits])).symm
  rw [hsubject, hsubject (g.triples.filter _)]
  show ((g.description node).matching (some t.subject) none).count t = _
  rw [matching_description, List.filter_filter]
  by_cases h : g.LeadsTo node t.subject
  · rw [if_pos (mem_reach_iff.2 h)]
    refine congrArg (List.count t) (List.filter_congr fun u _ => ?_)
    by_cases hu : u.subject = t.subject <;> simp [fits, hu, h]
  · rw [if_neg (mt mem_reach_iff.1 h), List.count_nil, eq_comm, List.count_eq_zero]
    intro ht
    have hboth := (List.mem_filter.1 ht).2
    simp [h] at hboth

theorem description_eq_append (g : Graph) (node : Term) :
    ∃ rest, (g.description node).triples = g.matching (some node) none ++ rest ∧
      ∀ t ∈ rest, t.subject ≠ node := by
  cases hreach : g.reach node with
  | nil =>
    have hself := g.mem_reach_self node
    rw [hreach] at hself
    cases hself
  | cons first others =>
    have hwalks := g.reach_walks node
    have hnodup := g.nodup_reach node
    rw [hreach] at hwalks hnodup
    cases hwalks with
    | skip hseen _ => cases hseen
    | take _ _ =>
      refine ⟨others.flatMap fun n => g.matching (some n) none, ?_, fun t ht => ?_⟩
      · unfold description ofTriples
        rw [hreach, List.flatMap_cons]
      · obtain ⟨n, hn, ht⟩ := List.mem_flatMap.1 ht
        rw [(mem_matching.1 ht).2]
        rintro rfl
        exact (List.nodup_cons.1 hnodup).1 hn

theorem reach_description (g : Graph) (node : Term) :
    (g.description node).reach node = g.reach node := by
  have hsame : (g.description node).Walks [] [node] (g.reach node) :=
    (g.reach_walks node).congr fun x hx => by rw [matching_description, if_pos hx]
  exact ((g.description node).reach_walks node).unique hsame

theorem description_description (g : Graph) (node : Term) :
    (g.description node).description node = g.description node := by
  refine congrArg ofTriples ?_
  rw [reach_description]
  refine List.flatMap_congr fun n hn => ?_
  rw [matching_description, if_pos hn]

end GraphMarshal.Graph

namespace GraphMarshal.Memory

/-- **Descriptions are concise and bounded.** Describing a resource of a graph in memory ends, and
gives exactly the triples of what the resource leads to, as often as the graph has them. Those of
one subject stand in the order of the graph, and those of the resource come first. Described in its
own description, the resource has the same description. -/
theorem describe_bounded (g : Graph) (d : Dialect) (id : Resource) :
    ∃ found described,
      g.Walks [] [id.toTerm] found ∧
      described = Graph.ofTriples (found.flatMap fun n => g.matching (some n) none) ∧
      ({ graph := g, dialect := d } : Memory).describe id = .ok described ∧
      described.triples.Perm (g.triples.filter fun t => g.LeadsTo id.toTerm t.subject) ∧
      (∀ s, described.matching (some s) none =
        if g.LeadsTo id.toTerm s then g.matching (some s) none else []) ∧
      (∃ rest, described.triples = g.matching (some id.toTerm) none ++ rest ∧
        ∀ t ∈ rest, t.subject ≠ id.toTerm) ∧
      ({ graph := described, dialect := d } : Memory).describe id = .ok described := by
  refine ⟨g.reach id.toTerm, g.description id.toTerm, g.reach_walks _, rfl, rfl,
    List.perm_iff_count.2 (g.count_description _), fun s => ?_, g.description_eq_append _, ?_⟩
  · rw [Graph.matching_description]
    exact if_congr Graph.mem_reach_iff rfl rfl
  · exact congrArg Except.ok (g.description_description _)

/-- Two blank nodes that lead to each other are described once, with the resource first. -/
example : ((Graph.ofTriples [⟨.blank "x", .iri "urn:p", .blank "y"⟩,
    ⟨.blank "y", .iri "urn:p", .blank "x"⟩, ⟨.iri "urn:a", .iri "urn:p", .blank "x"⟩,
    ⟨.iri "urn:a", .iri "urn:q", .iri "urn:b"⟩,
    ⟨.iri "urn:b", .iri "urn:p", .blank "z"⟩]).description
      (.iri "urn:a")).triples.map (·.subject) =
    [.iri "urn:a", .iri "urn:a", .blank "x", .blank "y"] := by
  decide +kernel

end GraphMarshal.Memory
