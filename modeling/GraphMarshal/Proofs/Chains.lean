import GraphMarshal.Proofs.Sheets

/-!
# Chains of cells

A list is read by going from cell to cell. `Follows` is this walk without a budget: it ends at
`rdf:nil`, at a cell met before and after a cell without a next one, so it ends in every graph. What
it meets depends on the cells alone, and a graph that says the same of them has the same list.

A list that is added to a graph is put on new cells. It reads as the items that it was written with,
and it changes no list of any other node, since nothing that was there leads to a new cell.
-/

namespace GraphMarshal.Graph

open Vocabulary

/-! ## Following cells -/

/-- The walk from a node along the first next cell of every cell, without a budget: it has met
`seen`, and it gives the cells that it meets from now on. -/
inductive Follows (g : Graph) : List Term → Term → List Term → Prop
  | stop {seen : List Term} {node : Term} : node.isNil ∨ node ∈ seen → Follows g seen node []
  | last {seen : List Term} {node : Term} : ¬(node.isNil ∨ node ∈ seen) →
    g.object? node Rdf.rest = none → Follows g seen node [node]
  | next {seen cells : List Term} {node succ : Term} : ¬(node.isNil ∨ node ∈ seen) →
    g.object? node Rdf.rest = some succ → Follows g (node :: seen) succ cells →
    Follows g seen node (node :: cells)

variable {g g' : Graph} {seen cells : List Term} {node head : Term}

theorem Follows.unique {cells' : List Term} (h : g.Follows seen node cells)
    (h' : g.Follows seen node cells') : cells = cells' := by
  induction h generalizing cells' with
  | stop hend =>
    cases h' with
    | stop _ => rfl
    | last hgo _ => exact absurd hend hgo
    | next hgo _ _ => exact absurd hend hgo
  | last hgo hrest =>
    cases h' with
    | stop hend => exact absurd hend hgo
    | last _ _ => rfl
    | next _ hrest' _ => rw [hrest] at hrest'; cases hrest'
  | next hgo hrest _ ih =>
    cases h' with
    | stop hend => exact absurd hend hgo
    | last _ hrest' => rw [hrest] at hrest'; cases hrest'
    | next _ hrest' h' =>
      rw [hrest] at hrest'
      cases hrest'
      rw [ih h']

theorem cellsFrom_follows : ∀ (n : Nat) (seen : List Term) (node : Term),
    (g.unmetTriples seen).length < n → g.Follows seen node (g.cellsFrom n seen node) := by
  intro n
  induction n with
  | zero => intro seen node h; omega
  | succ n ih =>
    intro seen node h
    unfold cellsFrom
    split
    · next hend => exact .stop hend
    next hgo =>
    cases hrest : g.object? node Rdf.rest with
    | none => exact .last hgo hrest
    | some succ =>
      -- A cell with a next one has a triple, which is met with the cell.
      have hlen := length_unmetTriples_cons (g := g) fun hseen => hgo (.inr hseen)
      have hpos := length_matching_pos hrest
      exact .next hgo hrest (ih (node :: seen) succ (by omega))

/-- **The cells of a list** are those that the walk from its head meets. -/
theorem cells_follows (g : Graph) (head : Term) : g.Follows [] head (g.cells head) := by
  apply cellsFrom_follows
  have hle : (g.unmetTriples []).length ≤ g.size := List.length_filter_le _ _
  omega

theorem Follows.congr (h : g.Follows seen node cells)
    (hsame : ∀ c ∈ cells, g'.object? c Rdf.rest = g.object? c Rdf.rest) :
    g'.Follows seen node cells := by
  induction h with
  | stop hend => exact .stop hend
  | last hgo hrest => exact .last hgo ((hsame _ List.mem_cons_self).trans hrest)
  | next hgo hrest _ ih =>
    obtain ⟨hnode, hcells⟩ := List.forall_mem_cons.1 hsame
    exact .next hgo (hnode.trans hrest) (ih hcells)

theorem Follows.nodup (h : g.Follows seen node cells) :
    cells.Nodup ∧ ∀ c ∈ cells, c ∉ seen := by
  induction h with
  | stop _ => simp
  | last hgo _ => exact ⟨List.nodup_singleton _, by simp_all⟩
  | next hgo _ _ ih =>
    obtain ⟨hnodup, hfresh⟩ := ih
    refine ⟨List.nodup_cons.2 ⟨fun hmem => hfresh _ hmem List.mem_cons_self, hnodup⟩, ?_⟩
    intro c hc hseen
    rcases List.mem_cons.1 hc with rfl | hc
    · exact hgo (.inr hseen)
    · exact hfresh c hc (List.mem_cons_of_mem _ hseen)

theorem Follows.cell_cases (h : g.Follows seen node cells) :
    ∀ c ∈ cells, c = node ∨ ∃ c' ∈ cells, g.object? c' Rdf.rest = some c := by
  induction h with
  | stop _ => simp
  | last _ _ => simp
  | @next seen cells node succ _ hrest _ ih =>
    intro c hc
    rcases List.mem_cons.1 hc with rfl | hc
    · exact .inl rfl
    rcases ih c hc with rfl | ⟨c', hc', hnext⟩
    · exact .inr ⟨node, List.mem_cons_self, hrest⟩
    · exact .inr ⟨c', List.mem_cons_of_mem node hc', hnext⟩

/-- Graphs that say the same of all cells of a list, and of its head, have the same list. -/
theorem listItems_congr (hlist : g'.isList head = g.isList head)
    (hrest : ∀ c ∈ g.cells head, g'.object? c Rdf.rest = g.object? c Rdf.rest)
    (hfirst : ∀ c ∈ g.cells head, g'.object? c Rdf.first = g.object? c Rdf.first) :
    g'.listItems head = g.listItems head := by
  have hcells : g'.cells head = g.cells head :=
    (g'.cells_follows head).unique ((g.cells_follows head).congr hrest)
  unfold listItems
  rw [hlist, hcells, List.filterMap_congr hfirst]

/-! ## Adding a list -/

/-- A term occurs in a graph. -/
def Mentions (g : Graph) (x : Term) : Prop :=
  ∃ t ∈ g.triples, x = t.subject ∨ x = t.predicate ∨ x = t.object

instance (g : Graph) (x : Term) : Decidable (g.Mentions x) := by unfold Mentions; infer_instance

/-- Cells on which a list can be added for a subject: different blank nodes that neither the graph
nor the subject has used before. -/
structure NewCells (g : Graph) (s : Term) (cells : List Term) : Prop where
  nodup : cells.Nodup
  blank : ∀ c ∈ cells, c.isBlank
  unmentioned : ∀ c ∈ cells, ¬g.Mentions c
  subject : s ∉ cells

theorem mentions_of_object? {c o : Term} {p : String} (h : g.object? c p = some o) :
    g.Mentions o := by
  obtain ⟨t, ht, -, -, rfl⟩ := mem_objects_iff.1 (mem_objects_of_object? h)
  exact ⟨t, ht, .inr (.inr rfl)⟩

section

variable {s p : Term} {entries : List (Term × Term)}

theorem length_chain (entries : List (Term × Term)) :
    (chain entries).length = 2 * entries.length := by
  induction entries with
  | nil => rfl
  | cons e entries ih => simp [chain, ih]; omega

theorem objects_addList (c : Term) (q : String) : (g.addList s p entries).objects c q =
    g.objects c q ++ (objectsOf [⟨s, p, headOf entries⟩] c q ++ objectsOf (chain entries) c q) := by
  show objectsOf (g.triples ++ listTriples s p entries) c q = _
  rw [objectsOf_append, listTriples, objectsOf_cons]
  rfl

/-- The link to the list says nothing of the subject but under its own predicate. -/
theorem objectsOf_link {o c : Term} {q : String} (h : p ≠ .iri q ∨ s ≠ c) :
    objectsOf [⟨s, p, o⟩] c q = [] := by
  unfold objectsOf
  rw [List.map_eq_nil_iff, List.filter_eq_nil_iff]
  intro t ht hfits
  obtain rfl := List.mem_singleton.1 ht
  obtain ⟨hs, hq⟩ := fits_iff.1 hfits
  cases p with
  | blank l => cases hq
  | literal l d tag => cases hq
  | iri i =>
    cases hq
    exact h.elim (fun hp => hp rfl) fun hne => hne hs

theorem objects_addList_old {q : String} (hp : p ≠ .iri q) (hnode : node ∉ entries.map (·.1)) :
    (g.addList s p entries).objects node q = g.objects node q := by
  have hchain : objectsOf (chain entries) node q = [] :=
    objectsOf_eq_nil _ fun t ht heq => hnode (heq ▸ subject_of_mem_chain ht)
  rw [objects_addList, objectsOf_link (.inl hp), hchain]
  simp

theorem objects_addList_new (hnew : g.NewCells s (entries.map (·.1))) {c : Term}
    (hc : c ∈ entries.map (·.1)) (q : String) :
    (g.addList s p entries).objects c q = objectsOf (chain entries) c q := by
  have hold : g.objects c q = [] :=
    objectsOf_eq_nil g.triples fun t ht heq => hnew.unmentioned c hc ⟨t, ht, .inl heq.symm⟩
  have hlink : s ≠ c := fun heq => hnew.subject (heq ▸ hc)
  rw [objects_addList, hold, objectsOf_link (.inr hlink)]
  simp

theorem chained_addList (hnew : g.NewCells s (entries.map (·.1))) :
    (g.addList s p entries).Chained entries :=
  chained_of_objects hnew.nodup fun _ hc => objects_addList_new hnew hc

theorem listItems_addList (hnew : g.NewCells s (entries.map (·.1))) :
    (g.addList s p entries).listItems (headOf entries) = some (entries.map (·.2)) := by
  cases hentries : entries with
  | nil => rfl
  | cons e rest =>
    have hchained := chained_addList (p := p) hnew
    rw [hentries] at hnew hchained
    apply listItems_chained (List.cons_ne_nil e rest) hchained _ hnew.nodup
    exact fun e' he' => hnew.blank e'.1 (List.mem_map_of_mem he')

theorem not_mem_cells_of_new (hnew : g.NewCells s (entries.map (·.1)))
    (hnode : node ∉ entries.map (·.1)) : ∀ c ∈ g.cells node, c ∉ entries.map (·.1) := by
  intro c hc hmem
  rcases (g.cells_follows node).cell_cases c hc with rfl | ⟨c', -, hnext⟩
  · exact hnode hmem
  · exact hnew.unmentioned c hmem (mentions_of_object? hnext)

theorem isList_addList_old (hfirst : p ≠ .iri Rdf.first) (hrest : p ≠ .iri Rdf.rest)
    (hnode : node ∉ entries.map (·.1)) :
    (g.addList s p entries).isList node = g.isList node := by
  unfold isList object?
  rw [objects_addList_old hfirst hnode, objects_addList_old hrest hnode]

theorem listItems_addList_old (hnew : g.NewCells s (entries.map (·.1)))
    (hfirst : p ≠ .iri Rdf.first) (hrest : p ≠ .iri Rdf.rest)
    (hnode : node ∉ entries.map (·.1)) :
    (g.addList s p entries).listItems node = g.listItems node := by
  have hcells := not_mem_cells_of_new hnew hnode
  apply listItems_congr (isList_addList_old hfirst hrest hnode)
  · intro c hc
    simp only [object?, objects_addList_old hrest (hcells c hc)]
  · intro c hc
    simp only [object?, objects_addList_old hfirst (hcells c hc)]

/-- **A list that is added reads as its items and disturbs no other list.** On new cells, whatever
lists the graph holds and whatever the items are, the old triples stay in front, the link and two
triples for each item come after them, and the head is the list of the items. If the link is neither
an item nor a next cell, the lists of all nodes but the new cells stay as they were, so those of all
nodes that the graph mentions. -/
theorem addList_reads (g : Graph) (s p : Term) (entries : List (Term × Term))
    (hnew : g.NewCells s (entries.map (·.1))) :
    (∃ added, (g.addList s p entries).triples = g.triples ++ added ∧
      added.length = 1 + 2 * entries.length ∧ ⟨s, p, headOf entries⟩ ∈ added) ∧
    (g.addList s p entries).isList (headOf entries) ∧
    (g.addList s p entries).listItems (headOf entries) = some (entries.map (·.2)) ∧
    (p ≠ .iri Rdf.first → p ≠ .iri Rdf.rest → ∀ node, node ∉ entries.map (·.1) →
      (g.addList s p entries).isList node = g.isList node ∧
      (g.addList s p entries).listItems node = g.listItems node) := by
  have hitems := listItems_addList (p := p) hnew
  refine ⟨⟨listTriples s p entries, rfl, ?_, List.mem_cons_self⟩, isList_of_listItems hitems,
    hitems, ?_⟩
  · rw [listTriples, List.length_cons, length_chain]
    omega
  · intro hfirst hrest node hnode
    exact ⟨isList_addList_old hfirst hrest hnode, listItems_addList_old hnew hfirst hrest hnode⟩

/-- A graph with a list that never ends. -/
def loopGraph : Graph := .ofTriples
  [⟨.blank "l", .iri Rdf.first, .string "x"⟩, ⟨.blank "l", .iri Rdf.rest, .blank "l"⟩]

/-- The endless list, the empty list and a text that comes twice, each on a cell of its own. -/
def loopEntries : List (Term × Term) :=
  [(.blank "c0", .blank "l"), (.blank "c1", .nil), (.blank "c2", .string "a"),
    (.blank "c3", .string "a")]

/-- The endless list can be an item of another list, and stays what it was. -/
theorem addList_reads_loop :
    loopGraph.NewCells (.blank "l") (loopEntries.map (·.1)) ∧
      (loopGraph.addList (.blank "l") (.iri "urn:p") loopEntries).listItems (.blank "c0") =
        some [.blank "l", .nil, .string "a", .string "a"] ∧
      (loopGraph.addList (.blank "l") (.iri "urn:p") loopEntries).listItems (.blank "l") =
        some [.string "x"] := by
  have hnew : loopGraph.NewCells (.blank "l") (loopEntries.map (·.1)) :=
    ⟨by decide, by decide, by decide, by decide⟩
  obtain ⟨-, -, hitems, hold⟩ :=
    addList_reads loopGraph (.blank "l") (.iri "urn:p") loopEntries hnew
  refine ⟨hnew, hitems, ?_⟩
  rw [(hold (by decide) (by decide) (.blank "l") (by decide)).2]
  decide

/-- A link that is a next cell makes a list of a node that was none. -/
example : (ofTriples [⟨.blank "l", .iri Rdf.first, .string "x"⟩]).isList (.blank "l") = false ∧
    ((ofTriples [⟨.blank "l", .iri Rdf.first, .string "x"⟩]).addList (.blank "l")
      (.iri Rdf.rest) []).isList (.blank "l") = true := by
  decide

end

end GraphMarshal.Graph
