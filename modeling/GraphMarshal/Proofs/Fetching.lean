import GraphMarshal.Proofs.Chains
import GraphMarshal.Proofs.Closure
import Mathlib.Data.List.Nodup
import Mathlib.Data.List.Perm.Subperm

/-!
# Lists fetched cell by cell

A list can be read in a graph that holds it, or by asking a source for one cell after the other.
Where the source describes every resource by what the graph says of it, perhaps among triples about
other nodes, both walks meet the same cells, so they give the same items however malformed the chain
is, and the source is asked for each cell once. The description of a node from which blank nodes
lead to the list holds all of it, as far as its cells are blank nodes themselves.
-/

namespace GraphMarshal

open Vocabulary

/-- The source describes every resource by the triples that the graph has about it, in their order,
besides triples about other nodes. -/
def Source.Presents (src : Source) (g : Graph) : Prop :=
  ∀ n, ∃ d, src.describe n = .ok d ∧
    d.matching (some n.toTerm) none = g.matching (some n.toTerm) none

theorem Memory.presents (g : Graph) (d : Dialect) :
    ({ graph := g, dialect := d } : Memory).toSource.Presents g := by
  intro n
  refine ⟨g.description n.toTerm, rfl, ?_⟩
  rw [Graph.matching_description, if_pos (g.mem_reach_self _)]

/-- The world in which a source has been asked to describe cells, one after the other. -/
def World.asked (w : World) (s : SourceRef) (cells : List Term) : World :=
  { w with calls :=
      ((cells.filterMap Resource.ofTerm?).map fun c => (s, .describe c)).reverse ++ w.calls }

namespace Graph

variable {g d : Graph} {seen cells : List Term} {node head : Term}

theorem object?_of_matching (h : d.matching (some node) none = g.matching (some node) none)
    (p : String) : d.object? node p = g.object? node p := by
  have hp := congrArg (List.filter (fits (some node) (some p))) h
  rw [filter_fits_matching, filter_fits_matching, if_pos rfl, if_pos rfl] at hp
  unfold object? objects
  rw [hp]

/-- Nothing is said of a literal. -/
theorem object?_of_literal (hsubjects : ∀ t ∈ g.triples, t.subject.isResource)
    (hnode : Resource.ofTerm? node = none) (p : String) : g.object? node p = none := by
  unfold object?
  rw [List.head?_eq_none_iff]
  apply objectsOf_eq_nil
  rintro t ht rfl
  have hresource := hsubjects t ht
  cases hs : t.subject <;> simp_all [Resource.ofTerm?, Term.isResource, Term.isLiteral]

/-! ## One cell after the other -/

theorem Follows.knows {src : Source} (hsubjects : ∀ t ∈ g.triples, t.subject.isResource)
    (hpresents : src.Presents g) (h : g.Follows seen node cells) :
    ∀ c ∈ cells, c = node ∨ src.Knows c := by
  intro c hc
  refine (h.cell_cases c hc).imp_right fun ⟨c', _, hnext⟩ => ?_
  cases hid : Resource.ofTerm? c' with
  | none =>
    rw [object?_of_literal hsubjects hid] at hnext
    cases hnext
  | some id =>
    obtain ⟨d, hd, hsame⟩ := hpresents id
    rw [Resource.toTerm_of_ofTerm? hid] at hsame
    rw [← object?_of_matching hsame] at hnext
    intro n hn
    exact src.describe_nodes id d hd n
      (mem_objectResources_of_objects (mem_objects_of_object? hnext) hn)

/-- The cells that can be asked for are the first one and different nodes of the source. -/
theorem Follows.length_asked_le {src : Source}
    (hsubjects : ∀ t ∈ g.triples, t.subject.isResource) (hpresents : src.Presents g)
    (h : g.Follows seen node cells) :
    (cells.filterMap Resource.ofTerm?).length ≤ src.nodes.length + 1 := by
  have hnodup : (cells.filterMap Resource.ofTerm?).Nodup := by
    refine List.Nodup.filterMap (fun a b r ha hb => ?_) h.nodup.1
    rw [← Resource.toTerm_of_ofTerm? ha, Resource.toTerm_of_ofTerm? hb]
  have hsubset : cells.filterMap Resource.ofTerm? ⊆
      (Resource.ofTerm? node).toList ++ src.nodes := by
    intro r hr
    obtain ⟨c, hc, hid⟩ := List.mem_filterMap.1 hr
    rcases h.knows hsubjects hpresents c hc with rfl | hk
    · exact List.mem_append_left _ (Option.mem_toList.2 hid)
    · exact List.mem_append_right _ (hk r hid)
  have hle := (hnodup.subperm hsubset).length_le
  have hone : (Resource.ofTerm? node).toList.length ≤ 1 := by
    cases Resource.ofTerm? node <;> simp
  rw [List.length_append] at hle
  omega

end Graph

namespace Engine

variable {g : Graph} {s : SourceRef}

theorem walkFrom_cell {seen : List Term} {node : Term} {id : Resource} {w : World}
    (hpresents : (w.source s).Presents g) (hgo : ¬(node.isNil ∨ node ∈ seen))
    (hid : Resource.ofTerm? node = some id) (n : Nat) :
    walkFrom s (n + 1) seen node w = (match g.object? node Rdf.rest with
      | none => pure (g.object? node Rdf.first).toList
      | some succ => do
        pure ((g.object? node Rdf.first).toList ++ (← walkFrom s n (node :: seen) succ)))
      (w.asked s [node]) := by
  have hdescribe : Run.describe s id w =
      .ok ((w.source s).describe id) { w with calls := (s, .describe id) :: w.calls } := rfl
  have hasked : w.asked s [node] = { w with calls := (s, .describe id) :: w.calls } := by
    simp [World.asked, hid]
  obtain ⟨d, hd, hsame⟩ := hpresents id
  rw [Resource.toTerm_of_ofTerm? hid] at hsame
  conv_lhs => unfold walkFrom
  rw [if_neg hgo, hid, hasked]
  dsimp only
  rw [Run.bind_apply_ok hdescribe, hd]
  have hobject := Graph.object?_of_matching hsame
  cases hnext : g.object? node Rdf.rest <;> simp only [hobject, hnext]

/-- Asking for one cell after the other follows the chain. A step is used up by every cell that can
be asked for, and one by the end. -/
theorem walkFrom_fetches (hsubjects : ∀ t ∈ g.triples, t.subject.isResource)
    {seen cells : List Term} {node : Term} (h : g.Follows seen node cells) :
    ∀ {n : Nat} {w : World}, (w.source s).Presents g →
      (cells.filterMap Resource.ofTerm?).length < n →
      walkFrom s n seen node w =
        .ok (cells.filterMap fun c => g.object? c Rdf.first) (w.asked s cells) := by
  have hitems : ∀ (c : Term) (cs : List Term), (c :: cs).filterMap (fun c => g.object? c Rdf.first)
      = (g.object? c Rdf.first).toList ++ cs.filterMap fun c => g.object? c Rdf.first := by
    intro c cs
    cases hc : g.object? c Rdf.first <;> simp [hc]
  induction h with
  | @stop seen node hend =>
    intro n w _ hn
    obtain ⟨n, rfl⟩ : ∃ k, n = k + 1 := ⟨n - 1, by omega⟩
    unfold walkFrom
    rw [if_pos hend]
    rfl
  | @last seen node hgo hrest =>
    intro n w hpresents hn
    obtain ⟨n, rfl⟩ : ∃ k, n = k + 1 := ⟨n - 1, by omega⟩
    cases hid : Resource.ofTerm? node with
    | none =>
      unfold walkFrom
      rw [if_neg hgo, hid]
      simp [Graph.object?_of_literal hsubjects hid, World.asked, hid]
    | some id =>
      rw [walkFrom_cell hpresents hgo hid, hrest, hitems]
      simp
  | @next seen cells node succ hgo hrest _ ih =>
    intro n w hpresents hn
    obtain ⟨id, hid⟩ : ∃ id, Resource.ofTerm? node = some id := by
      cases hid : Resource.ofTerm? node with
      | none => rw [Graph.object?_of_literal hsubjects hid] at hrest; cases hrest
      | some id => exact ⟨id, rfl⟩
    rw [List.filterMap_cons_some hid, List.length_cons] at hn
    obtain ⟨n, rfl⟩ : ∃ k, n = k + 1 := ⟨n - 1, by omega⟩
    have hlater := ih (n := n) (w := w.asked s [node]) hpresents (by omega)
    rw [walkFrom_cell hpresents hgo hid, hrest]
    dsimp only
    rw [Run.bind_apply_ok hlater, hitems]
    simp [World.asked, hid]

/-- **The walk through a source** gives the items of the chain in the graph that it presents. -/
theorem walkList_fetches (hsubjects : ∀ t ∈ g.triples, t.subject.isResource) {w : World}
    (hpresents : (w.source s).Presents g) (head : Term) :
    walkList s head w = .ok ((g.cells head).filterMap fun c => g.object? c Rdf.first)
      (w.asked s (g.cells head)) := by
  have hfollows := g.cells_follows head
  have hle := hfollows.length_asked_le hsubjects hpresents
  unfold walkList
  rw [Run.bind_apply_ok (Run.get_apply w)]
  exact walkFrom_fetches hsubjects hfollows hpresents (by omega)

end Engine

/-! ## Within a description -/

namespace Graph

variable {g : Graph} {seen cells : List Term} {node cell head : Term}

/-- A node of a chain that contributes to it: it has an item or a next cell. -/
def Links (g : Graph) (c : Term) : Prop :=
  (g.object? c Rdf.first).isSome ∨ (g.object? c Rdf.rest).isSome

instance (g : Graph) : DecidablePred g.Links := fun c => by unfold Links; infer_instance

theorem object?_description_none {s : Term} {p : String} (h : g.object? s p = none) :
    (g.description node).object? s p = none := by
  unfold object? at h ⊢
  rw [List.head?_eq_none_iff, List.eq_nil_iff_forall_not_mem] at h ⊢
  exact fun o ho => h o (objects_description_subset ho)

/-- The description of a node says of every cell what the graph says, if the node leads to the first
cell and all others that contribute are blank. -/
theorem Follows.object?_description (h : g.Follows seen cell cells)
    (hcell : cell ∈ cells → g.Links cell → cell ∈ g.reach node)
    (hblank : ∀ c ∈ cells, g.Links c → c.isBlank) :
    ∀ c ∈ cells, ∀ p ∈ [Rdf.first, Rdf.rest],
      (g.description node).object? c p = g.object? c p := by
  have hsame : ∀ c, (g.Links c → c ∈ g.reach node) → ∀ p ∈ [Rdf.first, Rdf.rest],
      (g.description node).object? c p = g.object? c p := by
    intro c hc p hp
    by_cases hlinks : g.Links c
    · exact Graph.object?_description (hc hlinks) p
    · simp only [Links, not_or, Option.not_isSome_iff_eq_none] at hlinks
      have hnone : g.object? c p = none := by
        rcases List.mem_cons.1 hp with rfl | hp
        · exact hlinks.1
        · exact List.mem_singleton.1 hp ▸ hlinks.2
      rw [hnone, object?_description_none hnone]
  induction h with
  | stop _ => exact fun c hc => nomatch hc
  | last _ _ => exact List.forall_mem_singleton.2 (hsame _ (hcell List.mem_cons_self))
  | @next seen cells cell succ _ hrest _ ih =>
    have hreach := hcell List.mem_cons_self
    refine List.forall_mem_cons.2 ⟨hsame cell hreach, ?_⟩
    apply ih
    · intro hsucc hlinks
      have hcellReach : cell ∈ g.reach node := hreach (.inr (by rw [hrest]; rfl))
      have hsuccBlank := hblank succ (List.mem_cons_of_mem cell hsucc) hlinks
      exact mem_reach_of_object hcellReach (mem_objects_of_object? hrest) hsuccBlank
    · exact fun c hc => hblank c (List.mem_cons_of_mem cell hc)

/-- **The description of a node holds the lists** of blank nodes that the node leads to. -/
theorem listItems_description (hhead : head ≠ .nil → g.LeadsTo node head)
    (hblank : ∀ c ∈ g.cells head, g.Links c → c.isBlank) :
    (g.description node).listItems head = g.listItems head := by
  by_cases hnil : head = .nil
  · rw [hnil]
    rfl
  have hreach : head ∈ g.reach node := mem_reach_iff.2 (hhead hnil)
  have hsame := (g.cells_follows head).object?_description (fun _ _ => hreach) hblank
  apply listItems_congr
  · unfold isList
    rw [Graph.object?_description hreach, Graph.object?_description hreach]
  · exact fun c hc => hsame c hc _ (by simp)
  · exact fun c hc => hsame c hc _ (by simp)

end Graph

namespace Engine

/-- **A list reads alike in a graph, cell by cell and in a description.** Where nothing is said of
literals and a source presents the graph, walking from a list through the source succeeds with the
items of the list in the graph, and does nothing but ask for each of its cells once. If a resource
leads to the list through blank nodes, and all its cells that contribute are blank, then the
description of the resource in memory gives the same items, also for a reading of the resource. -/
theorem walkList_listItems (g : Graph) (hsubjects : ∀ t ∈ g.triples, t.subject.isResource)
    (s : SourceRef) (w : World) (hpresents : (w.source s).Presents g) (head : Term)
    (hlist : g.isList head) :
    ∃ items, g.listItems head = some items ∧
      walkList s head w = .ok items (w.asked s (g.cells head)) ∧ (g.cells head).Nodup ∧
      ∀ (d : Dialect) (id : Resource), (head ≠ .nil → g.LeadsTo id.toTerm head) →
        (∀ c ∈ g.cells head, g.Links c → c.isBlank) →
        ∃ described, ({ graph := g, dialect := d } : Memory).describe id = .ok described ∧
          described.listItems head = some items ∧
          ∀ (source : SourceRef) (m : MemberBinding) (w' : World),
            listElements ⟨source, id, described⟩ m head w' = .ok (some items) w' := by
  obtain ⟨items, hitems⟩ : ∃ items, g.listItems head = some items := by
    unfold Graph.listItems
    rw [if_pos hlist]
    exact ⟨_, rfl⟩
  refine ⟨items, hitems, ?_, (g.cells_follows head).nodup.1, fun d id hhead hblank => ?_⟩
  · rw [walkList_fetches hsubjects hpresents head]
    unfold Graph.listItems at hitems
    rw [if_pos hlist] at hitems
    rw [Option.some.inj hitems]
  · have hdescribed := (Graph.listItems_description hhead hblank).trans hitems
    refine ⟨g.description id.toTerm, rfl, hdescribed, fun source m w' => ?_⟩
    unfold listElements
    rw [if_pos (Graph.isList_of_listItems hdescribed), hdescribed]
    rfl

/-- A chain whose first cell has two items and two next cells, whose second one has no item, and
whose third one goes back to the first. -/
def tangledGraph : Graph := .ofTriples [
  ⟨.iri "urn:a", .iri "urn:p", .blank "x"⟩,
  ⟨.blank "x", .iri Rdf.first, .string "1"⟩, ⟨.blank "x", .iri Rdf.first, .string "2"⟩,
  ⟨.blank "x", .iri Rdf.rest, .blank "y"⟩, ⟨.blank "x", .iri Rdf.rest, .nil⟩,
  ⟨.blank "y", .iri Rdf.rest, .blank "z"⟩,
  ⟨.blank "z", .iri Rdf.first, .string "3"⟩, ⟨.blank "z", .iri Rdf.rest, .blank "x"⟩]

/-- A world that reads from it. -/
def tangledWorld : World where
  namespaces := .wellKnown
  sources := #[({ graph := tangledGraph } : Memory).toSource]

/-- Both walks, and the description, give the first item of the first cell and that of the third. -/
theorem walkList_listItems_tangled :
    (∀ t ∈ tangledGraph.triples, t.subject.isResource) ∧
      (tangledWorld.source ⟨0⟩).Presents tangledGraph ∧ tangledGraph.isList (.blank "x") ∧
      tangledGraph.LeadsTo (.iri "urn:a") (.blank "x") ∧
      (∀ c ∈ tangledGraph.cells (.blank "x"), tangledGraph.Links c → c.isBlank) ∧
      walkList ⟨0⟩ (.blank "x") tangledWorld = .ok [.string "1", .string "3"]
        (tangledWorld.asked ⟨0⟩ [.blank "x", .blank "y", .blank "z"]) ∧
      ∃ described, ({ graph := tangledGraph } : Memory).describe (.iri "urn:a") = .ok described ∧
        described.listItems (.blank "x") = some [.string "1", .string "3"] := by
  have hsubjects : ∀ t ∈ tangledGraph.triples, t.subject.isResource := by decide
  have hpresents : (tangledWorld.source ⟨0⟩).Presents tangledGraph :=
    Memory.presents tangledGraph .unknown
  have hlist : tangledGraph.isList (.blank "x") := by decide
  have hleads : tangledGraph.LeadsTo (.iri "urn:a") (.blank "x") := by decide +kernel
  have hblank : ∀ c ∈ tangledGraph.cells (.blank "x"), tangledGraph.Links c → c.isBlank := by
    decide
  obtain ⟨items, hitems, hwalk, -, hdescription⟩ := walkList_listItems tangledGraph hsubjects ⟨0⟩
    tangledWorld hpresents (.blank "x") hlist
  have hvalue : tangledGraph.listItems (.blank "x") = some [.string "1", .string "3"] := by decide
  have hcells : tangledGraph.cells (.blank "x") = [.blank "x", .blank "y", .blank "z"] := by decide
  obtain rfl := Option.some.inj (hitems.symm.trans hvalue)
  rw [hcells] at hwalk
  obtain ⟨described, hd, hin, -⟩ := hdescription .unknown (.iri "urn:a") (fun _ => hleads) hblank
  exact ⟨hsubjects, hpresents, hlist, hleads, hblank, hwalk, described, hd, hin⟩

end Engine

end GraphMarshal
