import GraphMarshal.Proofs.Chains
import GraphMarshal.Proofs.Closure
import GraphMarshal.Proofs.RoundTrip
import Mathlib.Algebra.GroupWithZero.Nat

/-!
# Graphs of one record

The graph of a record is about the record and the cells of its lists, and about nothing else. How
many triples it has is told by the values alone. Every list hangs on the record by its first cell,
and every other cell on the one before, so the description of the record meets all cells and is the
whole graph again.
-/

namespace GraphMarshal

open Vocabulary

/-! ## Counting triples -/

/-- The triples that a value of a member takes: one, or one for each element, or a link and two for
each item of a list. -/
def MemberBinding.tripleCount (m : MemberBinding) : Value → Nat
  | .list vs => if m.ordered then 1 + 2 * vs.length else vs.length
  | _ => 1

theorem MemberBinding.tripleCount_of_not_list {m : MemberBinding} {v : Value}
    (hv : ∀ items, v ≠ .list items) : m.tripleCount v = 1 := by
  unfold tripleCount
  split
  · exact absurd rfl (hv _)
  · rfl

/-- The triples that a record takes for the members of a binding: what is empty takes none. -/
def Record.tripleCount (s : Schema) (rec : Record) (b : TypeBinding) : Nat :=
  (b.members.filterMap fun m => (rec.written s m.name).map m.tripleCount).sum

theorem Entry.length_triples (e : Entry) (s : Term) :
    (e.triples s).length = e.objects.length + 2 * e.cells.length := by
  rw [Entry.triples, List.length_append, List.length_map, Graph.length_chain]

theorem Sheet.length_triples (sh : Sheet) :
    sh.triples.length = 1 + (sh.entries.map fun e => (e.triples sh.subject).length).sum := by
  rw [Sheet.triples, List.length_cons, List.length_flatMap, Nat.add_comm]

namespace Entry.Holds

variable {T : Value → Term → Prop} {m : MemberBinding} {v : Value} {e : Entry}

theorem length_triples (h : Entry.Holds T m v e) (s : Term) :
    (e.triples s).length = m.tripleCount v := by
  rw [Entry.length_triples]
  cases h with
  | single hv _ => rw [m.tripleCount_of_not_list hv]; rfl
  | bag ho hts =>
    rw [MemberBinding.tripleCount, ho, hts.length_eq]
    rfl
  | chain ho hts =>
    have hlen := hts.length_eq
    rw [List.length_map] at hlen
    rw [MemberBinding.tripleCount, if_pos ho, hlen]
    rfl

theorem headOf_mem (h : Entry.Holds T m v e) (hne : e.cells ≠ []) :
    Graph.headOf e.cells ∈ e.objects := by
  cases h with
  | single => exact absurd rfl hne
  | bag => exact absurd rfl hne
  | chain => exact List.mem_singleton_self _

end Entry.Holds

/-! ## Cells that are led to -/

namespace Graph

variable {g : Graph} {node : Term}

theorem isSome_object?_of_mem {s o : Term} {p : String} (h : ⟨s, .iri p, o⟩ ∈ g.triples) :
    (g.object? s p).isSome := by
  unfold object?
  rw [List.isSome_head?]
  exact List.ne_nil_of_mem (mem_objects_iff.2 ⟨_, h, rfl, rfl, rfl⟩)

theorem isList_of_mem_chain {cells : List (Term × Term)} (hchain : ∀ t ∈ chain cells, t ∈ g.triples)
    (hblank : ∀ c ∈ cells.map (·.1), c.isBlank) : ∀ c ∈ cells.map (·.1), g.isList c := by
  induction cells with
  | nil => exact fun c hc => by cases hc
  | cons entry cells ih =>
    obtain ⟨cell, item⟩ := entry
    rw [List.map_cons, List.forall_mem_cons] at hblank ⊢
    rw [chain, List.forall_mem_cons, List.forall_mem_cons] at hchain
    obtain ⟨hfirst, hrest, hchain⟩ := hchain
    refine ⟨?_, ih hchain hblank.2⟩
    unfold isList
    rw [isResource_of_isBlank hblank.1, isSome_object?_of_mem hfirst, isSome_object?_of_mem hrest]
    exact Bool.or_true _

theorem leadsTo_chain {cells : List (Term × Term)} (hchain : ∀ t ∈ chain cells, t ∈ g.triples)
    (hblank : ∀ c ∈ cells.map (·.1), c.isBlank)
    (hhead : cells ≠ [] → g.LeadsTo node (headOf cells)) :
    ∀ c ∈ cells.map (·.1), g.LeadsTo node c := by
  induction cells with
  | nil => exact fun c hc => by cases hc
  | cons entry cells ih =>
    obtain ⟨cell, item⟩ := entry
    rw [List.map_cons, List.forall_mem_cons] at hblank ⊢
    rw [chain, List.forall_mem_cons, List.forall_mem_cons] at hchain
    obtain ⟨-, hrest, hchain⟩ := hchain
    have hcell : g.LeadsTo node cell := hhead (List.cons_ne_nil _ _)
    refine ⟨hcell, ih hchain hblank.2 fun hne => ?_⟩
    obtain ⟨⟨next, item'⟩, cells, rfl⟩ := List.exists_cons_of_ne_nil hne
    exact .blank (t := ⟨cell, .iri Rdf.rest, next⟩) hcell hrest (hblank.2 next List.mem_cons_self)

theorem description_perm (h : ∀ t ∈ g.triples, g.LeadsTo node t.subject) :
    (g.description node).triples.Perm g.triples := by
  refine List.perm_iff_count.2 fun t => ?_
  rw [count_description, List.filter_eq_self.2 fun u hu => decide_eq_true (h u hu)]

theorem matching_description_of_leadsTo (h : ∀ t ∈ g.triples, g.LeadsTo node t.subject) (s : Term)
    (p : Option String) : (g.description node).matching (some s) p = g.matching (some s) p := by
  rw [matching_description]
  split
  · rfl
  · next hs =>
    refine (List.filter_eq_nil_iff.2 fun t ht hfits => hs (mem_reach_iff.2 ?_)).symm
    exact subject_of_fits hfits ▸ h t ht

end Graph

namespace Sheet

variable {sh : Sheet} {g : Graph} {e : Entry}

theorem mem_of_mem_entry (hg : g.triples = sh.triples) (he : e ∈ sh.entries) :
    ∀ t ∈ e.triples sh.subject, t ∈ g.triples := fun t ht => by
  rw [hg]
  exact List.mem_cons_of_mem _ (List.mem_flatMap.2 ⟨e, he, ht⟩)

/-- If every list of a sheet is linked, the subject leads to its cells, and each of them starts a
list. -/
theorem leadsTo_cell (hg : g.triples = sh.triples) (hblank : ∀ c ∈ sh.cellTerms, c.isBlank)
    (hlinked : ∀ e ∈ sh.entries, e.cells ≠ [] → Graph.headOf e.cells ∈ e.objects) :
    ∀ c ∈ sh.cellTerms, g.LeadsTo sh.subject c ∧ g.isList c := by
  intro c hc
  obtain ⟨e, he, hc⟩ := List.mem_flatMap.1 hc
  have hblank : ∀ c ∈ e.cellTerms, c.isBlank := fun c hc =>
    hblank c (List.mem_flatMap.2 ⟨e, he, hc⟩)
  have hwritten := mem_of_mem_entry hg he
  have hchain : ∀ t ∈ Graph.chain e.cells, t ∈ g.triples := fun t ht =>
    hwritten t (List.mem_append_right _ ht)
  refine ⟨Graph.leadsTo_chain hchain hblank (fun hne => ?_) c hc,
    Graph.isList_of_mem_chain hchain hblank c hc⟩
  -- The walk along the cells starts at the link from the subject to the first of them.
  have hlink : ⟨sh.subject, .iri e.predicate, Graph.headOf e.cells⟩ ∈ g.triples :=
    hwritten _ (List.mem_append_left _ (List.mem_map_of_mem (hlinked e he hne)))
  refine .blank (t := ⟨_, _, Graph.headOf e.cells⟩) .self hlink (hblank _ ?_)
  obtain ⟨⟨cell, item⟩, cells, hcells⟩ := List.exists_cons_of_ne_nil hne
  rw [Entry.cellTerms, hcells]
  exact List.mem_cons_self

end Sheet

/-! ## Written records -/

namespace Rendered

variable {cx : Setting} {T : MemberBinding → Value → Term → Prop} {w : World} {r : RecordRef}
  {g : Graph} {rec : Record} {b : TypeBinding} {k : Resource} {sh : Sheet}
  (h : Rendered cx T w r g rec b k sh)

include h

theorem subject_cases {t : Triple} (ht : t ∈ g.triples) :
    t.subject = k.toTerm ∨ t.subject ∈ sh.cellTerms := by
  rw [← h.subject]
  exact subject_of_mem_sheet (h.triples ▸ ht)

theorem hasSubject_eq_false {j : Resource} (hj : j ≠ k) (hcells : j.toTerm ∉ sh.cellTerms) :
    g.hasSubject j.toTerm = false := by
  have hg : g.triples = [sh].flatMap Sheet.triples := by simpa using h.triples
  refine hasSubject_other hg ?_ (by simpa using hcells)
  rw [List.forall_mem_singleton, h.subject]
  exact fun heq => hj (Resource.toTerm_injective heq).symm

theorem size_eq : g.size = 1 + rec.tripleCount cx.schema b := by
  have hentries : sh.entries.map (fun e => (e.triples sh.subject).length) =
      (Engine.writtenValues cx b rec).map fun v => v.1.tripleCount v.2 :=
    map_eq_map_of_forall₂ h.entries.flip fun _ _ he => he.length_triples _
  rw [Graph.size, h.triples, Sheet.length_triples, hentries, Engine.writtenValues_eq,
    List.map_filterMap]
  unfold Record.tripleCount
  congr
  funext m
  cases rec.written cx.schema m.name <;> rfl

theorem leadsTo_cell (hblank : ∀ c ∈ sh.cellTerms, c.isBlank) :
    ∀ c ∈ sh.cellTerms, g.LeadsTo k.toTerm c ∧ g.isList c := by
  rw [← h.subject]
  refine Sheet.leadsTo_cell h.triples hblank fun e he => ?_
  obtain ⟨v, -, hholds⟩ := exists_of_forall₂_right h.entries he
  exact hholds.headOf_mem

theorem leadsTo_subject (hblank : ∀ c ∈ sh.cellTerms, c.isBlank) :
    ∀ t ∈ g.triples, g.LeadsTo k.toTerm t.subject := by
  intro t ht
  rcases h.subject_cases ht with hself | hcell
  · rw [hself]
    exact .self
  · exact (h.leadsTo_cell hblank _ hcell).1

end Rendered

namespace Engine

/-- **The graph of a record is about the record alone.** Its subjects are the record and new cells,
so no other resource is one, unless it is labelled like a cell to come. It has one triple for the
class and for each member as many as the value takes. The record leads to every cell, which starts a
list, and its description in this graph has all triples of the graph and answers like it. -/
theorem toGraph_selfContained (cx : Setting) (w w₁ : World) (r : RecordRef) (g : Graph)
    (hrun : toGraph cx r w = .ok g w₁) :
    ∃ rec b k cells,
      w.heap.record? r = some rec ∧ w₁.bindings.get? rec.type = some b ∧
      w₁.heap.id? r = some k ∧
      Numbered w.generated w₁.generated cells ∧
      (∀ t ∈ g.triples, t.subject = k.toTerm ∨ t.subject ∈ cells) ∧
      (∀ j : Resource, j ≠ k → j.Older w.generated → g.hasSubject j.toTerm = false) ∧
      g.size = 1 + rec.tripleCount cx.schema b ∧
      (∀ c ∈ cells, g.LeadsTo k.toTerm c ∧ g.isList c) ∧
      ∀ d : Dialect, ∃ described,
        ({ graph := g, dialect := d } : Memory).describe k = .ok described ∧
        described.triples.Perm g.triples ∧
        ∀ s p, described.matching (some s) p = g.matching (some s) p := by
  have hwrites : naming.Keeps (toGraph cx r) (toGraph cx r) _ w := toGraph_rendered
  obtain ⟨-, ⟨rec, b, k, sh, hrendered, hcells, i, hbefore⟩, -⟩ := hwrites.ok hrun
  have hleads := hrendered.leadsTo_subject hcells.isBlank
  refine ⟨{ rec with id := i }, b, k, sh.cellTerms, hbefore, hrendered.binding,
    Heap.id?_eq_some.2 ⟨rec, hrendered.record, hrendered.id⟩, hcells,
    fun t ht => hrendered.subject_cases ht,
    fun j hj hold => hrendered.hasSubject_eq_false hj (hold.not_mem hcells), hrendered.size_eq,
    hrendered.leadsTo_cell hcells.isBlank, fun d => ⟨g.description k.toTerm, rfl, ?_, ?_⟩⟩
  · exact Graph.description_perm hleads
  · exact Graph.matching_description_of_leadsTo hleads

/-- What is known of the first note once it is written. -/
def noteWritten (_ : Graph) (w₁ : World) : Bool :=
  w₁.heap.id? ⟨0⟩ = some (.iri "http://ex/a") ∧ w₁.bindings.get? "Note" = some noteBinding

/-- The first note takes nine triples: its class, its title, five for two tags in order and one for
each link. The note that it links to is no subject. -/
theorem toGraph_selfContained_note : ∃ g w₁,
    toGraph noteSetting ⟨0⟩ noteWorld = .ok g w₁ ∧ g.size = 9 ∧
    g.hasSubject (.iri "http://ex/b") = false ∧
    ∃ described, ({ graph := g } : Memory).describe (.iri "http://ex/a") = .ok described ∧
      described.triples.Perm g.triples := by
  obtain ⟨g, w₁, hrun, hwritten⟩ :=
    Run.exists_ok (p := noteWritten) (x := toGraph noteSetting ⟨0⟩ noteWorld) (by decide +kernel)
  obtain ⟨hid, hbinding⟩ := of_decide_eq_true hwritten
  refine ⟨g, w₁, hrun, ?_⟩
  obtain ⟨rec, b, k, cells, hrec, hb, hk, -, -, hothers, hsize, -, hdescribe⟩ :=
    toGraph_selfContained noteSetting noteWorld w₁ ⟨0⟩ g hrun
  obtain rfl : firstNote = rec := Option.some.inj hrec
  obtain rfl : noteBinding = b := Option.some.inj (hbinding.symm.trans hb)
  obtain rfl : Resource.iri "http://ex/a" = k := Option.some.inj (hid.symm.trans hk)
  obtain ⟨described, hdescribed, hperm, -⟩ := hdescribe .unknown
  refine ⟨hsize.trans (by decide +kernel), ?_, described, hdescribed, hperm⟩
  exact hothers (.iri "http://ex/b") (by decide) (Resource.older_of_not_isBlank _ rfl)

end Engine

end GraphMarshal
