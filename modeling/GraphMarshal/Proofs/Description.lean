import GraphMarshal.Graph.Collection
import GraphMarshal.Proofs.Budgets

/-!
# Descriptions and lists

The description of a node holds the whole of what the graph says about every node that it reaches
through blank nodes, and nothing about any other node. So the items of a list whose cells are blank
nodes are found in the description of the node that the list hangs from.
-/

namespace GraphMarshal.Graph

open Vocabulary

/-! ## Reach -/

/-- What a walk over blank nodes finds: each node once, all of the stack, and every blank object of
what it finds. -/
structure Reached (g : Graph) (seen stack found : List Term) : Prop where
  nodup : found.Nodup
  fresh : ∀ x ∈ found, x ∉ seen
  stack : ∀ x ∈ stack, x ∈ seen ∨ x ∈ found
  closed : ∀ x ∈ found, ∀ t ∈ g.matching (some x) none, t.object.isBlank → t.object ∈ seen ∨
    t.object ∈ found

theorem Reached.nil (g : Graph) (seen : List Term) : g.Reached seen [] [] where
  nodup := List.nodup_nil
  fresh _ hx := by cases hx
  stack _ hx := by cases hx
  closed _ hx := by cases hx

theorem Reached.take {g : Graph} {seen stack found : List Term} {node : Term} (hnew : node ∉ seen)
    (hr : g.Reached (node :: seen)
      ((((g.matching (some node) none).map (·.object)).filter Term.isBlank).reverse ++ stack)
      found) :
    g.Reached seen (node :: stack) (node :: found) := by
  have move : ∀ {x}, x ∈ node :: seen ∨ x ∈ found → x ∈ seen ∨ x ∈ node :: found := fun {x} hx => by
    rcases hx with hx | hx
    · rcases List.mem_cons.1 hx with rfl | hx
      · exact .inr List.mem_cons_self
      · exact .inl hx
    · exact .inr (List.mem_cons_of_mem _ hx)
  refine ⟨List.nodup_cons.2 ⟨fun hx => hr.fresh node hx List.mem_cons_self, hr.nodup⟩, ?_, ?_, ?_⟩
  · intro x hx
    rcases List.mem_cons.1 hx with rfl | hx
    · exact hnew
    · exact fun hs => hr.fresh x hx (List.mem_cons_of_mem _ hs)
  · intro x hx
    rcases List.mem_cons.1 hx with rfl | hx
    · exact .inr List.mem_cons_self
    · exact move (hr.stack x (List.mem_append_right _ hx))
  · intro x hx t ht hb
    rcases List.mem_cons.1 hx with rfl | hx
    · refine move (hr.stack t.object (List.mem_append_left _ (List.mem_reverse.2 ?_)))
      exact List.mem_filter.2 ⟨List.mem_map_of_mem ht, hb⟩
    · exact move (hr.closed x hx t ht hb)

theorem reachFrom_reached {g : Graph} : ∀ (n : Nat) (seen stack : List Term),
    stack.length + (g.unmetTriples seen).length ≤ n →
    g.Reached seen stack (g.reachFrom n seen stack) := by
  intro n
  induction n with
  | zero =>
    intro seen stack h
    have hnil : stack = [] := List.eq_nil_of_length_eq_zero (by omega)
    subst hnil
    exact .nil g seen
  | succ n ih =>
    intro seen stack h
    cases stack with
    | nil => exact .nil g seen
    | cons node stack =>
      rw [List.length_cons] at h
      unfold reachFrom
      split
      · next hseen =>
        have hr := ih seen stack (by omega)
        refine ⟨hr.nodup, hr.fresh, fun x hx => ?_, hr.closed⟩
        rcases List.mem_cons.1 hx with rfl | hx
        · exact .inl hseen
        · exact hr.stack x hx
      · next hnew =>
        have hlen := length_unmetTriples_cons (g := g) hnew
        have hfound := List.length_filter_le Term.isBlank
          ((g.matching (some node) none).map (·.object))
        rw [List.length_map] at hfound
        refine .take hnew (ih (node :: seen) _ ?_)
        rw [List.length_append, List.length_reverse]
        omega

theorem reach_reached (g : Graph) (node : Term) : g.Reached [] [node] (g.reach node) := by
  refine reachFrom_reached _ _ _ ?_
  have hle : (g.unmetTriples []).length ≤ g.size := List.length_filter_le _ _
  rw [List.length_singleton]
  omega

theorem nodup_reach (g : Graph) (node : Term) : (g.reach node).Nodup := (g.reach_reached node).nodup

theorem mem_reach_self (g : Graph) (node : Term) : node ∈ g.reach node :=
  ((g.reach_reached node).stack node (List.mem_singleton_self node)).resolve_left List.not_mem_nil

theorem mem_reach_of_object {g : Graph} {node s o : Term} {p : String} (hs : s ∈ g.reach node)
    (ho : o ∈ g.objects s p) (hb : o.isBlank) : o ∈ g.reach node := by
  obtain ⟨t, ht, rfl⟩ := List.mem_map.1 ho
  refine ((g.reach_reached node).closed s hs t ?_ hb).resolve_left List.not_mem_nil
  simp only [matching, List.mem_filter, fits, Bool.and_true] at ht ⊢
  simp_all

/-! ## Descriptions -/

theorem filter_fits_matching {g : Graph} {s n : Term} {p : Option String} :
    (g.matching (some n) none).filter (fits (some s) p) =
      if n = s then g.matching (some s) p else [] := by
  unfold matching
  rw [List.filter_filter]
  split
  · next h =>
    subst h
    refine List.filter_congr fun t _ => ?_
    simp only [fits, Bool.and_true]
    cases decide (t.subject = n) <;> simp
  · next h =>
    rw [List.filter_eq_nil_iff]
    intro t _ ht
    simp only [fits, Bool.and_true, Bool.and_eq_true, decide_eq_true_eq] at ht
    exact h (ht.2.symm.trans ht.1.1)

theorem flatMap_ite_of_nodup {α β : Type} [DecidableEq α] {l : List α} (h : l.Nodup) (a : α)
    (bs : List β) :
    (l.flatMap fun x => if x = a then bs else []) = if a ∈ l then bs else [] := by
  induction l with
  | nil => rfl
  | cons x l ih =>
    rw [List.nodup_cons] at h
    rw [List.flatMap_cons, ih h.2]
    by_cases hx : x = a
    · subst hx
      rw [if_pos rfl, if_neg h.1, if_pos List.mem_cons_self, List.append_nil]
    · rw [if_neg hx, List.nil_append]
      simp [Ne.symm hx]

theorem matching_description (g : Graph) (node s : Term) (p : Option String) :
    (g.description node).matching (some s) p =
      if s ∈ g.reach node then g.matching (some s) p else [] := by
  show ((g.reach node).flatMap fun n => g.matching (some n) none).filter (fits (some s) p) = _
  rw [List.filter_flatMap]
  simp only [filter_fits_matching]
  exact flatMap_ite_of_nodup (g.nodup_reach node) s _

theorem objects_description {g : Graph} {node s : Term} (hs : s ∈ g.reach node) (p : String) :
    (g.description node).objects s p = g.objects s p := by
  unfold objects
  rw [matching_description, if_pos hs]

theorem objects_description_subset {g : Graph} {node s : Term} {p : String} {o : Term}
    (ho : o ∈ (g.description node).objects s p) : o ∈ g.objects s p := by
  unfold objects at ho ⊢
  rw [matching_description] at ho
  split at ho
  · exact ho
  · cases ho

theorem object?_description {g : Graph} {node s : Term} (hs : s ∈ g.reach node) (p : String) :
    (g.description node).object? s p = g.object? s p := by
  unfold object?
  rw [objects_description hs]

theorem hasSubject_eq_matching (g : Graph) (s : Term) :
    g.hasSubject s = !(g.matching (some s) none).isEmpty := by
  unfold hasSubject matching fits
  induction g.triples with
  | nil => rfl
  | cons t ts ih =>
    by_cases h : t.subject = s
    · simp [h]
    · simpa [h] using ih

theorem hasSubject_description (g : Graph) (node : Term) :
    (g.description node).hasSubject node = g.hasSubject node := by
  rw [hasSubject_eq_matching, hasSubject_eq_matching, matching_description,
    if_pos (g.mem_reach_self node)]

theorem mem_predicatesOf {g : Graph} {s : Term} {p : String} :
    p ∈ g.predicatesOf s ↔ g.objects s p ≠ [] := by
  unfold predicatesOf
  rw [mem_distinct, List.mem_filterMap]
  constructor
  · rintro ⟨t, ht, hp⟩
    obtain ⟨hmem, hsubject⟩ := mem_matching.1 ht
    exact List.ne_nil_of_mem (mem_objects_iff.2 ⟨t, hmem, hsubject, hp, rfl⟩)
  · intro hne
    obtain ⟨o, ho⟩ := List.exists_mem_of_ne_nil _ hne
    obtain ⟨t, ht, hsubject, hp, -⟩ := mem_objects_iff.1 ho
    exact ⟨t, mem_matching.2 ⟨ht, hsubject⟩, hp⟩

/-! ## Chains -/

/-- The cells are chained up with their items: each has its item and the next cell. -/
def Chained (g : Graph) : List (Term × Term) → Prop
  | [] => True
  | (cell, item) :: rest =>
    g.object? cell Rdf.first = some item ∧ g.object? cell Rdf.rest = some (headOf rest) ∧
      Chained g rest

theorem isNil_of_isBlank {t : Term} (h : t.isBlank) : t.isNil = false := by
  cases t with
  | blank l => rfl
  | iri i => cases h
  | literal s d tag => cases h

theorem isResource_of_isBlank {t : Term} (h : t.isBlank) : t.isResource := by
  cases t with
  | blank l => rfl
  | iri i => cases h
  | literal s d tag => cases h

theorem cellsFrom_chained {g : Graph} : ∀ {entries : List (Term × Term)} {n : Nat}
    {seen : List Term},
    Chained g entries → (∀ e ∈ entries, e.1.isBlank) → (entries.map (·.1)).Nodup →
    (∀ e ∈ entries, e.1 ∉ seen) → entries.length < n →
    g.cellsFrom n seen (headOf entries) = entries.map (·.1)
  | [], n + 1, seen, _, _, _, _, _ => by
    unfold cellsFrom
    rw [if_pos (.inl rfl)]
    rfl
  | (cell, item) :: rest, n + 1, seen, hc, hb, hnd, hs, hn => by
    obtain ⟨-, hrest, hc⟩ := hc
    have hcell : ¬ (cell.isNil = true ∨ cell ∈ seen) := by
      rw [isNil_of_isBlank (hb _ List.mem_cons_self)]
      rintro (h | h)
      · cases h
      · exact hs _ List.mem_cons_self h
    rw [List.map_cons, List.nodup_cons] at hnd
    have ih : g.cellsFrom n (cell :: seen) (headOf rest) = rest.map (·.1) := cellsFrom_chained hc
      (fun e he => hb e (List.mem_cons_of_mem _ he)) hnd.2
      (fun e he hmem => by
        rcases List.mem_cons.1 hmem with h | h
        · exact hnd.1 (List.mem_map.2 ⟨e, he, h⟩)
        · exact hs e (List.mem_cons_of_mem _ he) h)
      (by rw [List.length_cons] at hn; omega)
    unfold cellsFrom headOf
    rw [if_neg hcell, hrest]
    dsimp only
    rw [ih]
    rfl

theorem filterMap_first_chained {g : Graph} : ∀ {entries : List (Term × Term)}, Chained g entries →
    (entries.map (·.1)).filterMap (fun c => g.object? c Rdf.first) = entries.map (·.2)
  | [], _ => rfl
  | (cell, item) :: rest, hc => by
    obtain ⟨hfirst, -, hc⟩ := hc
    rw [List.map_cons, List.filterMap_cons, hfirst, List.map_cons, filterMap_first_chained hc]

theorem isList_of_listItems {g : Graph} {head : Term} {ts : List Term}
    (h : g.listItems head = some ts) : g.isList head := by
  unfold listItems at h
  split at h
  · assumption
  · cases h

/-- **A chain reads as the list of its items.** -/
theorem listItems_chained {g : Graph} {entries : List (Term × Term)} (hne : entries ≠ [])
    (hc : Chained g entries) (hb : ∀ e ∈ entries, e.1.isBlank) (hnd : (entries.map (·.1)).Nodup) :
    g.listItems (headOf entries) = some (entries.map (·.2)) := by
  have hlist : g.isList (headOf entries) := by
    obtain ⟨⟨cell, item⟩, rest, rfl⟩ := List.exists_cons_of_ne_nil hne
    unfold isList headOf
    rw [hc.1, hc.2.1, isResource_of_isBlank (hb _ List.mem_cons_self)]
    simp
  have hcells : g.cells (headOf entries) = entries.map (·.1) := by
    rw [← g.cells_of_le (headOf entries) (Nat.le_add_right (g.size + 1) entries.length)]
    exact cellsFrom_chained hc hb hnd (fun _ _ => List.not_mem_nil) (by omega)
  unfold listItems
  rw [if_pos hlist, hcells, filterMap_first_chained hc]

/-- A chain of blank cells that a node leads to stands in the description of the node. -/
theorem chained_description {g : Graph} {node : Term} : ∀ {entries : List (Term × Term)},
    (entries ≠ [] → headOf entries ∈ g.reach node) → (∀ e ∈ entries, e.1.isBlank) →
    Chained g entries →
    Chained (g.description node) entries
  | [], _, _, _ => trivial
  | (cell, item) :: rest, hhead, hb, hc => by
    obtain ⟨hfirst, hrest, hc⟩ := hc
    have hcell : cell ∈ g.reach node := hhead (List.cons_ne_nil _ _)
    refine ⟨?_, ?_, chained_description (fun hne => ?_)
      (fun e he => hb e (List.mem_cons_of_mem _ he)) hc⟩
    · rw [object?_description hcell, hfirst]
    · rw [object?_description hcell, hrest]
    · obtain ⟨⟨next, item'⟩, rest', rfl⟩ := List.exists_cons_of_ne_nil hne
      exact mem_reach_of_object hcell (mem_objects_of_object? hrest)
        (hb _ (List.mem_cons_of_mem _ List.mem_cons_self))

end GraphMarshal.Graph
