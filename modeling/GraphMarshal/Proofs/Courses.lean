import GraphMarshal.Proofs.Chains
import Mathlib.Data.Finset.Card
import Mathlib.Data.List.Chain

/-!
# Courses

A graph may hold anything under `rdf:first` and `rdf:rest`: several objects, texts, nodes that it says
nothing of, cells that lead back. A course from a node goes along the first next cell of every node,
comes to no node twice and stays before `rdf:nil`. All courses from a node are beginnings of the
longest one, and this is what the walk from cell to cell meets. So the list of a node has the items
along its longest course, and no more of them than the graph has subjects.
-/

namespace GraphMarshal.Graph

open Vocabulary

variable {g : Graph} {node head succ : Term} {seen cells course : List Term}

/-- Nodes from a head on, each the first next cell of the one before it: none comes twice, and none
is `rdf:nil`. -/
structure Course (g : Graph) (head : Term) (course : List Term) : Prop where
  starts : ∀ c ∈ course.head?, c = head
  next : course.IsChain fun c succ => g.object? c Rdf.rest = some succ
  nodup : course.Nodup
  proper : ∀ c ∈ course, c ≠ .nil

namespace Course

theorem nil (g : Graph) (head : Term) : g.Course head [] where
  starts _ h := by cases h
  next := .nil
  nodup := .nil
  proper _ h := by cases h

theorem tail (h : g.Course head (node :: course)) (hrest : g.object? node Rdf.rest = some succ) :
    g.Course succ course where
  starts c hc := by
    obtain ⟨hnext, -⟩ := List.isChain_cons.1 h.next
    exact Option.some.inj ((hnext c hc).symm.trans hrest)
  next := (List.isChain_cons.1 h.next).2
  nodup := (List.nodup_cons.1 h.nodup).2
  proper c hc := h.proper c (List.mem_cons_of_mem node hc)

theorem cons (h : g.Course succ course) (hrest : g.object? node Rdf.rest = some succ)
    (hnode : node ≠ .nil) (hnew : node ∉ course) : g.Course node (node :: course) where
  starts c hc := by cases hc; rfl
  next := List.isChain_cons.2 ⟨fun c hc => by rw [h.starts c hc]; exact hrest, h.next⟩
  nodup := List.nodup_cons.2 ⟨hnew, h.nodup⟩
  proper := List.forall_mem_cons.2 ⟨hnode, h.proper⟩

theorem eq_nil (h : g.Course head (node :: course)) (hrest : g.object? node Rdf.rest = none) :
    course = [] := by
  cases course with
  | nil => rfl
  | cons c course =>
    have hnext := (List.isChain_cons.1 h.next).1 c rfl
    rw [hrest] at hnext
    cases hnext

end Course

theorem Follows.isCourse (h : g.Follows seen node cells) : g.Course node cells := by
  induction h with
  | stop _ => exact .nil g _
  | @last seen node hgo _ =>
    have hnode : node ≠ .nil := fun heq => hgo (.inl (decide_eq_true heq))
    exact ⟨fun c hc => by cases hc; rfl, .singleton _, List.nodup_singleton _,
      List.forall_mem_singleton.2 hnode⟩
  | @next seen cells node succ hgo hrest h ih =>
    have hnode : node ≠ .nil := fun heq => hgo (.inl (decide_eq_true heq))
    exact ih.cons hrest hnode fun hmem => h.nodup.2 node hmem List.mem_cons_self

/-- The walk goes as far as any course that avoids what it has met. -/
theorem Follows.longest (h : g.Follows seen node cells) (hc : g.Course node course)
    (hnew : ∀ c ∈ course, c ∉ seen) : course <+: cells := by
  induction h generalizing course with
  | stop hend =>
    cases course with
    | nil => exact List.prefix_rfl
    | cons c course =>
      obtain rfl := hc.starts c rfl
      rcases hend with hnil | hseen
      · exact absurd (of_decide_eq_true hnil) (hc.proper c List.mem_cons_self)
      · exact absurd hseen (hnew c List.mem_cons_self)
  | last _ hrest =>
    cases course with
    | nil => exact List.nil_prefix
    | cons c course =>
      obtain rfl := hc.starts c rfl
      rw [hc.eq_nil hrest]
  | @next seen cells node succ _ hrest _ ih =>
    cases course with
    | nil => exact List.nil_prefix
    | cons c course =>
      obtain rfl := hc.starts c rfl
      refine (List.prefix_cons_inj c).2 (ih (hc.tail hrest) fun d hd hseen => ?_)
      rcases List.mem_cons.1 hseen with rfl | hseen
      · exact (List.nodup_cons.1 hc.nodup).1 hd
      · exact hnew d (List.mem_cons_of_mem c hd) hseen

/-! ## Items -/

/-- The nodes that a graph says something of. -/
def subjects (g : Graph) : Finset Term := (g.triples.map (·.subject)).toFinset

theorem mem_subjects_of_object? {c o : Term} {p : String} (h : g.object? c p = some o) :
    c ∈ g.subjects := by
  obtain ⟨t, ht, hsubject, -⟩ := mem_objects_iff.1 (mem_objects_of_object? h)
  exact List.mem_toFinset.2 (List.mem_map.2 ⟨t, ht, hsubject⟩)

/-- Different nodes have no more first objects than the graph has subjects. -/
theorem length_filterMap_object?_le (p : String) (h : cells.Nodup) :
    (cells.filterMap fun c => g.object? c p).length ≤ g.subjects.card := by
  have hsub : (cells.filter fun c => (g.object? c p).isSome).toFinset ⊆ g.subjects := by
    intro c hc
    obtain ⟨o, ho⟩ := Option.isSome_iff_exists.1 (List.mem_filter.1 (List.mem_toFinset.1 hc)).2
    exact mem_subjects_of_object? ho
  calc (cells.filterMap fun c => g.object? c p).length
      = (cells.filter fun c => (g.object? c p).isSome).length := by
        rw [List.length_filterMap_eq_countP, List.countP_eq_length_filter]
    _ = (cells.filter fun c => (g.object? c p).isSome).toFinset.card :=
        (List.toFinset_card_of_nodup (h.filter _)).symm
    _ ≤ g.subjects.card := Finset.card_le_card hsub

/-- **The list of a node has the items along its longest course.** In every graph, whatever its
chains are, the walk from a node that starts a list ends, along a course of which every course from
the node is a beginning; the list has, in order, the first item of each node on it that has one, and
no more items than the graph has subjects. A node that starts no list has none. -/
theorem listItems_course (g : Graph) (head : Term) :
    (g.isList head → ∃ cells items, g.Follows [] head cells ∧
      g.Course head cells ∧ (∀ course, g.Course head course → course <+: cells) ∧
      items = (cells.filterMap fun c => g.object? c Rdf.first) ∧
      g.listItems head = some items ∧ items.length ≤ g.subjects.card) ∧
    (¬g.isList head → g.listItems head = none) := by
  constructor
  · intro hlist
    have hwalk := g.cells_follows head
    refine ⟨g.cells head, _, hwalk, hwalk.isCourse, fun course hc => ?_, rfl, if_pos hlist, ?_⟩
    · exact hwalk.longest hc fun c _ => List.not_mem_nil
    · exact length_filterMap_object?_le Rdf.first hwalk.nodup.1
  · exact fun hlist => if_neg hlist

/-- A cell with two items and two next cells, then one without an item, then a text that leads back
to the first one. -/
def knotGraph : Graph := .ofTriples
  [⟨.blank "l", .iri Rdf.first, .string "a"⟩, ⟨.blank "l", .iri Rdf.first, .string "b"⟩,
    ⟨.blank "l", .iri Rdf.rest, .blank "m"⟩, ⟨.blank "l", .iri Rdf.rest, .nil⟩,
    ⟨.blank "m", .iri Rdf.rest, .string "x"⟩, ⟨.string "x", .iri Rdf.first, .string "c"⟩,
    ⟨.string "x", .iri Rdf.rest, .blank "l"⟩]

/-- The text is a node on the way, though it starts no list itself. -/
theorem listItems_course_knot :
    knotGraph.isList (.blank "l") ∧
      (∀ course, knotGraph.Course (.blank "l") course →
        course <+: [.blank "l", .blank "m", .string "x"]) ∧
      knotGraph.listItems (.blank "l") = some [.string "a", .string "c"] ∧
      ¬knotGraph.isList (.string "x") ∧ knotGraph.listItems (.string "x") = none := by
  have hlist : knotGraph.isList (.blank "l") := by decide
  have htext : ¬knotGraph.isList (.string "x") := by decide
  obtain ⟨cells, items, hwalk, -, hlongest, rfl, hitems, -⟩ :=
    (listItems_course knotGraph (.blank "l")).1 hlist
  have hcells : cells = [.blank "l", .blank "m", .string "x"] :=
    (hwalk.unique (knotGraph.cells_follows _)).trans (by decide)
  rw [hcells] at hlongest hitems
  exact ⟨hlist, hlongest, hitems, htext, (listItems_course knotGraph (.string "x")).2 htext⟩

end GraphMarshal.Graph
