import GraphMarshal.Graph
import GraphMarshal.Proofs.Order

/-!
# Graphs as sets

`dedupe` sorts the triples of a graph and then drops those that equal their neighbour. That no
triple is left twice rests on the order: equal triples are neighbours once the triples are sorted,
since the order takes only equal triples for equal. What is left is strictly sorted, and of all
lists with the same triples only one is.
-/

namespace GraphMarshal.Graph

variable {t : Triple} {l l' ts : List Triple}

/-! ## Dropping neighbours -/

@[simp] theorem mem_collapse : t ∈ collapse l ↔ t ∈ l := by
  fun_induction collapse l with
  | case1 => rfl
  | case2 => rfl
  | case3 u rest ih => simp [ih]
  | case4 u v rest _ ih => rw [List.mem_cons, ih, List.mem_cons (a := t) (b := u)]

theorem pairwise_collapse (h : l.Pairwise fun t u => (compare t u).isLE) :
    (collapse l).Pairwise fun t u => compare t u = .lt := by
  fun_induction collapse l with
  | case1 => exact .nil
  | case2 t => exact List.pairwise_singleton _ t
  | case3 t rest ih => exact ih h.tail
  | case4 t u rest hne ih =>
    obtain ⟨hle, hrest⟩ := List.pairwise_cons.1 h
    have hlt : compare t u = .lt := by
      refine (Ordering.isLE_iff_eq_lt_or_eq_eq.1 (hle u List.mem_cons_self)).resolve_right ?_
      rwa [Std.compare_eq_iff_eq]
    refine List.Pairwise.cons (fun v hv => ?_) (ih hrest)
    -- What is left of the rest is its next triple or comes after that one.
    rcases List.mem_cons.1 (mem_collapse.1 hv) with rfl | hv
    · exact hlt
    · exact Std.TransCmp.lt_of_lt_of_isLE hlt ((List.pairwise_cons.1 hrest).1 v hv)

theorem collapse_of_pairwise (h : l.Pairwise fun t u => compare t u = .lt) : collapse l = l := by
  fun_induction collapse l with
  | case1 => rfl
  | case2 => rfl
  | case3 t rest ih =>
    exact absurd ((List.pairwise_cons.1 h).1 t List.mem_cons_self) (Triple.compare_self_ne_lt t)
  | case4 t u rest _ ih => rw [ih h.tail]

/-! ## Sorting -/

theorem pairwise_sortTriples (ts : List Triple) :
    (sortTriples ts).Pairwise fun t u => (compare t u).isLE :=
  @List.pairwise_mergeSort Triple (fun t u => (compare t u).isLE)
    (fun _ _ _ => Triple.isLE_trans) Triple.isLE_total ts

theorem mem_sortTriples : t ∈ sortTriples ts ↔ t ∈ ts := (List.mergeSort_perm _ _).mem_iff

theorem sortTriples_of_pairwise (h : ts.Pairwise fun t u => compare t u = .lt) :
    sortTriples ts = ts :=
  List.mergeSort_of_pairwise (h.imp fun htu => by rw [htu]; rfl)

/-! ## Sets of triples -/

theorem nodup_of_pairwise (h : l.Pairwise fun t u => compare t u = .lt) : l.Nodup :=
  h.imp fun {t u} htu => by
    rintro rfl
    exact Triple.compare_self_ne_lt t htu

theorem eq_of_pairwise_of_mem_iff (h : l.Pairwise fun t u => compare t u = .lt)
    (h' : l'.Pairwise fun t u => compare t u = .lt) (hmem : ∀ t, t ∈ l ↔ t ∈ l') : l = l' := by
  have hperm : l.Perm l' :=
    (List.perm_ext_iff_of_nodup (nodup_of_pairwise h) (nodup_of_pairwise h')).2 hmem
  refine List.Perm.eq_of_pairwise (fun t u _ _ htu hut => ?_) h h' hperm
  exact absurd hut (Std.OrientedCmp.not_lt_of_lt htu)

theorem pairwise_dedupe (g : Graph) : g.dedupe.triples.Pairwise fun t u => compare t u = .lt :=
  pairwise_collapse (pairwise_sortTriples g.triples)

theorem mem_dedupe {g : Graph} : t ∈ g.dedupe.triples ↔ t ∈ g.triples :=
  mem_collapse.trans mem_sortTriples

theorem dedupe_dedupe (g : Graph) : g.dedupe.dedupe = g.dedupe := by
  have htriples : collapse (sortTriples g.dedupe.triples) = g.dedupe.triples := by
    rw [sortTriples_of_pairwise g.pairwise_dedupe, collapse_of_pairwise g.pairwise_dedupe]
  show { g.dedupe with triples := collapse (sortTriples g.dedupe.triples) } = g.dedupe
  rw [htriples]

/-- **Deduplication is canonical**: two graphs have the same triples after it, in the same order,
exactly if they held the same set of triples before. What is left is every triple of the graph once,
strictly sorted by subject, predicate and object, and doing it again changes nothing. Underneath,
comparing terms follows a strict total order, by kind first and then by the bytes of the texts. -/
theorem dedupe_canonical :
    (∀ g g' : Graph, g.dedupe.triples = g'.dedupe.triples ↔ ∀ t, t ∈ g.triples ↔ t ∈ g'.triples) ∧
      (∀ g : Graph, g.dedupe.triples.Pairwise Triple.Before ∧ g.dedupe.triples.Nodup ∧
        (∀ t, t ∈ g.dedupe.triples ↔ t ∈ g.triples) ∧ g.dedupe.dedupe = g.dedupe) ∧
      IsStrictTotalOrder Term Term.Before ∧
      ∀ t u : Term, (compare t u = .lt ↔ t.Before u) ∧ (compare t u = .eq ↔ t = u) ∧
        (compare t u = .gt ↔ u.Before t) := by
  refine ⟨fun g g' => ⟨fun h t => ?_, fun h => ?_⟩, fun g => ⟨?_, ?_, fun t => mem_dedupe, ?_⟩,
    Term.isStrictTotalOrder_before, fun t u => ⟨Term.compare_eq_lt_iff, Std.compare_eq_iff_eq, ?_⟩⟩
  · rw [← mem_dedupe, h, mem_dedupe]
  · refine eq_of_pairwise_of_mem_iff g.pairwise_dedupe g'.pairwise_dedupe fun t => ?_
    rw [mem_dedupe, mem_dedupe]
    exact h t
  · exact g.pairwise_dedupe.imp Triple.compare_eq_lt_iff.1
  · exact nodup_of_pairwise g.pairwise_dedupe
  · exact g.dedupe_dedupe
  · rw [Std.OrientedCmp.gt_iff_lt, Term.compare_eq_lt_iff]

end GraphMarshal.Graph
