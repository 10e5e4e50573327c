import GraphMarshal.Proofs.Description
import Mathlib.Data.List.Nodup

/-!
# Graphs made of sheets

A sheet is what is written of one record: its class, the objects of its members and the cells of its
lists. In a graph made of sheets that share no subject and no cell, the objects of a subject are
those on its sheet, every list is chained up as on its sheet, and nothing is said of any other node.
-/

namespace GraphMarshal

open Vocabulary

/-! ## Objects of triples -/

/-- The objects that triples give for a subject and a predicate. -/
def objectsOf (ts : List Triple) (s : Term) (p : String) : List Term :=
  (ts.filter (Graph.fits (some s) (some p))).map (·.object)

section

variable {s : Term} {p : String}

theorem objectsOf_append (ts us : List Triple) :
    objectsOf (ts ++ us) s p = objectsOf ts s p ++ objectsOf us s p := by
  simp only [objectsOf, List.filter_append, List.map_append]

theorem objectsOf_cons (t : Triple) (ts : List Triple) :
    objectsOf (t :: ts) s p = objectsOf [t] s p ++ objectsOf ts s p := objectsOf_append [t] ts

theorem objectsOf_flatMap {α : Type} (l : List α) (f : α → List Triple) :
    objectsOf (l.flatMap f) s p = l.flatMap fun a => objectsOf (f a) s p := by
  simp only [objectsOf, List.filter_flatMap, List.map_flatMap]

theorem objectsOf_eq_nil (ts : List Triple) (h : ∀ t ∈ ts, t.subject ≠ s) :
    objectsOf ts s p = [] := by
  unfold objectsOf
  rw [List.map_eq_nil_iff, List.filter_eq_nil_iff]
  intro t ht hfits
  simp only [Graph.fits, Bool.and_eq_true, decide_eq_true_eq] at hfits
  exact h t ht hfits.1

theorem objectsOf_single (q : String) (o : Term) :
    objectsOf [⟨s, .iri q, o⟩] s p = if q = p then [o] else [] := by
  unfold objectsOf
  by_cases h : q = p
  · simp [Graph.fits, Term.iri?, h]
  · simp [Graph.fits, Term.iri?, h]

theorem objectsOf_statements (q : String) (os : List Term) :
    objectsOf (os.map fun o => ⟨s, .iri q, o⟩) s p = if q = p then os else [] := by
  induction os with
  | nil => simp [objectsOf]
  | cons o os ih =>
    rw [List.map_cons, objectsOf_cons, ih, objectsOf_single]
    split <;> rfl

theorem flatMap_eq_of_nodup_flatMap {α β γ : Type} {l : List α} {f : α → List β} {g : α → List γ}
    {a : α} {x : β} (hnd : (l.flatMap f).Nodup) (ha : a ∈ l) (hx : x ∈ f a)
    (h : ∀ b ∈ l, x ∉ f b → g b = []) :
    l.flatMap g = g a := by
  obtain ⟨l₁, l₂, rfl⟩ := List.mem_iff_append.1 ha
  rw [List.flatMap_append, List.flatMap_cons] at hnd
  have h₁ : l₁.flatMap g = [] := List.flatMap_eq_nil_iff.2 fun b hb => by
    refine h b (List.mem_append_left _ hb) fun hxb => ?_
    exact List.disjoint_of_nodup_append hnd (List.mem_flatMap.2 ⟨b, hb, hxb⟩)
      (List.mem_append_left _ hx)
  have h₂ : l₂.flatMap g = [] := List.flatMap_eq_nil_iff.2 fun b hb => by
    refine h b (List.mem_append_right _ (List.mem_cons_of_mem _ hb)) fun hxb => ?_
    exact List.disjoint_of_nodup_append hnd.of_append_right hx (List.mem_flatMap.2 ⟨b, hb, hxb⟩)
  rw [List.flatMap_append, List.flatMap_cons, h₁, h₂, List.nil_append, List.append_nil]

/-- Where only one element of a list gives anything, the list gives that. -/
theorem flatMap_eq_of_unique {α β : Type} {l : List α} {f : α → List β} {a : α} (ha : a ∈ l)
    (hnd : l.Nodup) (h : ∀ b ∈ l, b ≠ a → f b = []) : l.flatMap f = f a := by
  refine flatMap_eq_of_nodup_flatMap (f := fun b => [b]) (x := a) (by simpa using hnd) ha
    List.mem_cons_self
    fun b hb hab => h b hb fun heq => hab ?_
  rw [heq]
  exact List.mem_cons_self

end

/-! ## Sheets -/

/-- What is written for the value of a member: the objects of its predicate, and the cells of a list
with their items. -/
structure Entry where
  predicate : String
  objects : List Term
  cells : List (Term × Term) := []

structure Sheet where
  subject : Term
  classIri : String
  entries : List Entry

def Entry.triples (s : Term) (e : Entry) : List Triple :=
  e.objects.map (fun o => ⟨s, .iri e.predicate, o⟩) ++ Graph.chain e.cells

def Entry.cellTerms (e : Entry) : List Term := e.cells.map (·.1)

namespace Sheet

def triples (sh : Sheet) : List Triple :=
  ⟨sh.subject, .iri Rdf.type, .iri sh.classIri⟩ :: sh.entries.flatMap (Entry.triples sh.subject)

/-- The cells of all lists on a sheet. -/
def cellTerms (sh : Sheet) : List Term := sh.entries.flatMap Entry.cellTerms

/-- Sheets that share no subject and no cell. -/
structure Apart (sheets : List Sheet) : Prop where
  subjects : (sheets.map subject).Nodup
  cells : (sheets.flatMap cellTerms).Nodup
  blank : ∀ c ∈ sheets.flatMap cellTerms, c.isBlank
  disjoint : ∀ sh ∈ sheets, sh.subject ∉ sheets.flatMap cellTerms

end Sheet

section

variable {sheets : List Sheet} {sh : Sheet} {e : Entry} {g : Graph} {node : Term} {p : String}

theorem subject_of_mem_chain {cells : List (Term × Term)} {t : Triple}
    (ht : t ∈ Graph.chain cells) :
    t.subject ∈ cells.map (·.1) := by
  induction cells with
  | nil => cases ht
  | cons c cells ih =>
    obtain ⟨cell, item⟩ := c
    rcases List.mem_cons.1 ht with rfl | ht
    · exact List.mem_cons_self
    rcases List.mem_cons.1 ht with rfl | ht
    · exact List.mem_cons_self
    · exact List.mem_cons_of_mem _ (ih ht)

theorem subject_of_mem_entry {s : Term} {t : Triple} (ht : t ∈ e.triples s) :
    t.subject = s ∨ t.subject ∈ e.cellTerms := by
  rcases List.mem_append.1 ht with ht | ht
  · obtain ⟨o, -, rfl⟩ := List.mem_map.1 ht
    exact .inl rfl
  · exact .inr (subject_of_mem_chain ht)

theorem subject_of_mem_sheet {t : Triple} (ht : t ∈ sh.triples) :
    t.subject = sh.subject ∨ t.subject ∈ sh.cellTerms := by
  rcases List.mem_cons.1 ht with rfl | ht
  · exact .inl rfl
  · obtain ⟨e, he, ht⟩ := List.mem_flatMap.1 ht
    exact (subject_of_mem_entry ht).imp_right fun hc => List.mem_flatMap.2 ⟨e, he, hc⟩

theorem mem_sheetCells (hsh : sh ∈ sheets) (hc : node ∈ sh.cellTerms) :
    node ∈ sheets.flatMap Sheet.cellTerms :=
  List.mem_flatMap.2 ⟨sh, hsh, hc⟩

/-! ## Subjects -/

theorem objects_sheet (ha : Sheet.Apart sheets) (hg : g.triples = sheets.flatMap Sheet.triples)
    (hsh : sh ∈ sheets) :
    g.objects sh.subject p = objectsOf sh.triples sh.subject p := by
  show objectsOf g.triples sh.subject p = _
  rw [hg, objectsOf_flatMap]
  refine flatMap_eq_of_unique hsh (List.Nodup.of_map _ ha.subjects)
    fun sh' hsh' hne => objectsOf_eq_nil _ fun t ht heq => ?_
  rcases subject_of_mem_sheet ht with h | h
  · exact hne (List.inj_on_of_nodup_map ha.subjects hsh' hsh (h.symm.trans heq))
  · exact ha.disjoint sh hsh (heq ▸ mem_sheetCells hsh' h)

theorem objectsOf_sheet (ha : Sheet.Apart sheets) (hsh : sh ∈ sheets) :
    objectsOf sh.triples sh.subject p =
      (if Rdf.type = p then [.iri sh.classIri] else []) ++
        sh.entries.flatMap fun e => if e.predicate = p then e.objects else [] := by
  unfold Sheet.triples
  rw [objectsOf_cons, objectsOf_single, objectsOf_flatMap]
  congr 1
  refine List.flatMap_congr fun e he => ?_
  unfold Entry.triples
  rw [objectsOf_append, objectsOf_statements, objectsOf_eq_nil (Graph.chain e.cells)
    fun t ht heq => ?_,
    List.append_nil]
  refine ha.disjoint sh hsh (heq ▸ mem_sheetCells hsh ?_)
  exact List.mem_flatMap.2 ⟨e, he, subject_of_mem_chain ht⟩

/-- The entries of a sheet are for different predicates, none of them that of classes. -/
structure Sheet.Proper (sh : Sheet) : Prop where
  predicates : (sh.entries.map (·.predicate)).Nodup
  untyped : ∀ e ∈ sh.entries, e.predicate ≠ Rdf.type

theorem objects_entry (ha : Sheet.Apart sheets) (hg : g.triples = sheets.flatMap Sheet.triples)
    (hsh : sh ∈ sheets) (hp : sh.Proper) (he : e ∈ sh.entries) :
    g.objects sh.subject e.predicate = e.objects := by
  rw [objects_sheet ha hg hsh, objectsOf_sheet ha hsh, if_neg (Ne.symm (hp.untyped e he)),
    List.nil_append,
    flatMap_eq_of_unique he (List.Nodup.of_map _ hp.predicates) fun e' he' hne => ?_, if_pos rfl]
  exact if_neg fun heq => hne (List.inj_on_of_nodup_map hp.predicates he' he heq)

theorem objects_class (ha : Sheet.Apart sheets) (hg : g.triples = sheets.flatMap Sheet.triples)
    (hsh : sh ∈ sheets) (hp : sh.Proper) : g.objects sh.subject Rdf.type = [.iri sh.classIri] := by
  rw [objects_sheet ha hg hsh, objectsOf_sheet ha hsh, if_pos rfl,
    List.flatMap_eq_nil_iff.2 fun e he => ?_,
    List.append_nil]
  exact if_neg (hp.untyped e he)

theorem objects_absent (ha : Sheet.Apart sheets) (hg : g.triples = sheets.flatMap Sheet.triples)
    (hsh : sh ∈ sheets) (ht : p ≠ Rdf.type) (hp : ∀ e ∈ sh.entries, e.predicate ≠ p) :
    g.objects sh.subject p = [] := by
  rw [objects_sheet ha hg hsh, objectsOf_sheet ha hsh, if_neg (Ne.symm ht), List.nil_append,
    List.flatMap_eq_nil_iff]
  exact fun e he => if_neg (hp e he)

theorem hasSubject_sheet (hg : g.triples = sheets.flatMap Sheet.triples) (hsh : sh ∈ sheets) :
    g.hasSubject sh.subject := by
  unfold Graph.hasSubject
  rw [hg, List.any_eq_true]
  exact ⟨_, List.mem_flatMap.2 ⟨sh, hsh, List.mem_cons_self⟩, by simp⟩

theorem hasSubject_other (hg : g.triples = sheets.flatMap Sheet.triples)
    (hs : ∀ sh ∈ sheets, sh.subject ≠ node) (hc : node ∉ sheets.flatMap Sheet.cellTerms) :
    g.hasSubject node = false := by
  unfold Graph.hasSubject
  rw [hg, List.any_eq_false]
  intro t ht heq
  obtain ⟨sh, hsh, ht⟩ := List.mem_flatMap.1 ht
  have heq : t.subject = node := by simpa using heq
  rcases subject_of_mem_sheet ht with h | h
  · exact hs sh hsh (h.symm.trans heq)
  · exact hc (heq ▸ mem_sheetCells hsh h)

/-! ## Lists -/

theorem objectsOf_chain_cons {cell item : Term} {cells : List (Term × Term)} {s : Term} :
    objectsOf (Graph.chain ((cell, item) :: cells)) s p =
      objectsOf [⟨cell, .iri Rdf.first, item⟩] s p ++
        (objectsOf [⟨cell, .iri Rdf.rest, Graph.headOf cells⟩] s p ++
        objectsOf (Graph.chain cells) s p) := by
  rw [Graph.chain, objectsOf_cons, objectsOf_cons ⟨cell, _, _⟩ (Graph.chain cells)]

theorem chained_of_objects : ∀ {cells : List (Term × Term)}, (cells.map (·.1)).Nodup →
    (∀ c ∈ cells.map (·.1), ∀ p, g.objects c p = objectsOf (Graph.chain cells) c p) →
    g.Chained cells
  | [], _, _ => trivial
  | (cell, item) :: cells, hnd, h => by
    rw [List.map_cons, List.nodup_cons] at hnd
    have hcell : ∀ {p}, objectsOf (Graph.chain cells) cell p = [] :=
      objectsOf_eq_nil _ fun t ht heq =>
      hnd.1 (heq ▸ subject_of_mem_chain ht)
    have hobjects := h cell List.mem_cons_self
    refine ⟨?_, ?_, chained_of_objects hnd.2 fun c hc p => ?_⟩
    · unfold Graph.object?
      rw [hobjects, objectsOf_chain_cons, objectsOf_single, if_pos rfl]
      rfl
    · unfold Graph.object?
      rw [hobjects, objectsOf_chain_cons, objectsOf_single, objectsOf_single,
        if_neg (by decide), if_pos rfl]
      rfl
    · have hne : ∀ {t : Triple}, t.subject = cell → t.subject ≠ c :=
        fun ht heq => hnd.1 (ht ▸ heq ▸ hc)
      rw [h c (List.mem_cons_of_mem _ hc), objectsOf_chain_cons, objectsOf_eq_nil [_],
        objectsOf_eq_nil [_],
        List.nil_append, List.nil_append]
      · exact fun t ht => hne (by rw [List.mem_singleton.1 ht])
      · exact fun t ht => hne (by rw [List.mem_singleton.1 ht])

theorem objects_cell (ha : Sheet.Apart sheets) (hg : g.triples = sheets.flatMap Sheet.triples)
    (hsh : sh ∈ sheets) (he : e ∈ sh.entries) {c : Term} (hc : c ∈ e.cellTerms) :
    g.objects c p = objectsOf (Graph.chain e.cells) c p := by
  have hcsh : c ∈ sh.cellTerms := List.mem_flatMap.2 ⟨e, he, hc⟩
  have hsubject : ∀ sh' ∈ sheets, sh'.subject ≠ c := fun sh' hsh' heq =>
    ha.disjoint sh' hsh' (heq ▸ mem_sheetCells hsh hcsh)
  show objectsOf g.triples c p = _
  rw [hg, objectsOf_flatMap, flatMap_eq_of_nodup_flatMap ha.cells hsh hcsh fun sh' hsh' hnot => ?_]
  · unfold Sheet.triples
    rw [objectsOf_cons, objectsOf_eq_nil [_] fun t ht heq => ?_, List.nil_append, objectsOf_flatMap,
      flatMap_eq_of_nodup_flatMap ((List.nodup_flatMap.1 ha.cells).1 sh hsh) he hc
        fun e' he' hnot => ?_]
    · unfold Entry.triples
      rw [objectsOf_append, objectsOf_eq_nil _ fun t ht heq => ?_, List.nil_append]
      obtain ⟨o, -, rfl⟩ := List.mem_map.1 ht
      exact hsubject sh hsh heq
    · refine objectsOf_eq_nil _ fun t ht heq => ?_
      rcases subject_of_mem_entry ht with h | h
      · exact hsubject sh hsh (h.symm.trans heq)
      · exact hnot (heq ▸ h)
    · rw [List.mem_singleton.1 ht] at heq
      exact hsubject sh hsh heq
  · refine objectsOf_eq_nil _ fun t ht heq => ?_
    rcases subject_of_mem_sheet ht with h | h
    · exact hsubject sh' hsh' (h.symm.trans heq)
    · exact hnot (heq ▸ h)

/-- **Lists stand in the graph** as on their sheets. -/
theorem chained_sheet (ha : Sheet.Apart sheets) (hg : g.triples = sheets.flatMap Sheet.triples)
    (hsh : sh ∈ sheets) (he : e ∈ sh.entries) : g.Chained e.cells := by
  refine chained_of_objects ?_ fun c hc p => objects_cell ha hg hsh he hc
  exact (List.nodup_flatMap.1 ((List.nodup_flatMap.1 ha.cells).1 sh hsh)).1 e he

theorem listItems_sheet (ha : Sheet.Apart sheets) (hg : g.triples = sheets.flatMap Sheet.triples)
    (hsh : sh ∈ sheets) (he : e ∈ sh.entries) (hne : e.cells ≠ [])
    (hhead : Graph.headOf e.cells ∈ g.objects sh.subject p) :
    (Graph.headOf e.cells).isBlank ∧
      (g.description sh.subject).listItems (Graph.headOf e.cells) = some (e.cells.map (·.2)) := by
  have hblank : ∀ c ∈ e.cells, c.1.isBlank := fun c hc =>
    ha.blank _ (mem_sheetCells hsh (List.mem_flatMap.2 ⟨e, he, List.mem_map_of_mem hc⟩))
  have hheadBlank : (Graph.headOf e.cells).isBlank := by
    obtain ⟨c, rest, hcells⟩ := List.exists_cons_of_ne_nil hne
    rw [hcells]
    exact hblank c (hcells ▸ List.mem_cons_self)
  have hreach : Graph.headOf e.cells ∈ g.reach sh.subject :=
    Graph.mem_reach_of_object (g.mem_reach_self _) hhead hheadBlank
  have hchained := Graph.chained_description (fun _ => hreach) hblank (chained_sheet ha hg hsh he)
  have hnodup : (e.cells.map (·.1)).Nodup :=
    (List.nodup_flatMap.1 ((List.nodup_flatMap.1 ha.cells).1 sh hsh)).1 e he
  exact ⟨hheadBlank, Graph.listItems_chained hne hchained hblank hnodup⟩

theorem object?_first_none (ha : Sheet.Apart sheets) (hg : g.triples = sheets.flatMap Sheet.triples)
    (hc : node ∉ sheets.flatMap Sheet.cellTerms)
    (hp : ∀ sh ∈ sheets, sh.subject = node → ∀ e ∈ sh.entries, e.predicate ≠ Rdf.first) :
    g.object? node Rdf.first = none := by
  unfold Graph.object?
  rw [List.head?_eq_none_iff]
  by_cases hs : ∃ sh ∈ sheets, sh.subject = node
  · obtain ⟨sh, hsh, rfl⟩ := hs
    exact objects_absent ha hg hsh (by decide) (hp sh hsh rfl)
  · exact Graph.objects_of_not_hasSubject
      (hasSubject_other hg (fun sh hsh heq => hs ⟨sh, hsh, heq⟩) hc) Rdf.first

end

end GraphMarshal
