import GraphMarshal.Proofs.Reading
import GraphMarshal.Source.Memory

/-!
# Budgets that are never used up

The walks over type declarations, list cells and blank nodes run on a budget and answer silently
when it ends. Each of them has a variant that every step lowers: the declared types, cells or
triples that the walk has not met. Any two budgets that cover the variant give the same answer, so
the budgets chosen decide nothing, whatever cycles the data has.
-/

namespace GraphMarshal

/-! ## Lineages -/

namespace Schema

/-- The declared types that a walk has not entered. -/
def unentered (s : Schema) (l : Lineage) : List TypeDecl :=
  s.types.filter fun d => d.name ∉ l.entered

variable {s : Schema}

theorem length_unentered_le {l l' : Lineage} (h : ∀ t ∈ l.entered, t ∈ l'.entered) :
    (s.unentered l').length ≤ (s.unentered l).length := by
  unfold unentered
  rw [← List.countP_eq_length_filter, ← List.countP_eq_length_filter]
  refine List.countP_mono_left fun d _ hd => ?_
  simp only [decide_eq_true_eq] at hd ⊢
  exact fun hm => hd (h _ hm)

theorem exists_decl_of_parents {ty : TypeName} (h : s.parents ty ≠ []) :
    ∃ d ∈ s.types, d.name = ty := by
  unfold parents descriptor find? at h
  cases hd : s.types.find? fun d => d.name = ty with
  | none => rw [hd] at h; exact absurd rfl h
  | some d => exact ⟨d, List.mem_of_find?_eq_some hd, by simpa using List.find?_some hd⟩

theorem length_unentered_enter_lt {l : Lineage} {d : TypeDecl} (hd : d ∈ s.types)
    (hnew : d.name ∉ l.entered) :
    (s.unentered { l with entered := l.entered ++ [d.name] }).length < (s.unentered l).length := by
  refine length_filter_lt (fun a ha => ?_) hd ?_ ?_
  · simp only [List.mem_append, not_or, decide_eq_true_eq] at ha ⊢
    exact ha.1
  · simpa using hnew
  · simp

theorem foldl_visit_entered {n : Nat} (ih : ∀ l ty, ∀ t ∈ l.entered, t ∈ (s.visit n l ty).entered) :
    ∀ (tys : List TypeName) (l : Lineage), ∀ t ∈ l.entered, t ∈ (tys.foldl (s.visit n) l).entered
  | [], _, _, ht => ht
  | ty :: tys, l, t, ht => foldl_visit_entered ih tys _ t (ih l ty t ht)

theorem visit_entered (n : Nat) : ∀ l ty, ∀ t ∈ l.entered, t ∈ (s.visit n l ty).entered := by
  induction n with
  | zero => intro l ty t ht; exact ht
  | succ n ih =>
    intro l ty t ht
    unfold visit
    split
    · exact ht
    · exact foldl_visit_entered ih _ _ t (List.mem_append_left _ ht)

theorem foldl_visit_of_le {n m : Nat}
    (ih : ∀ l ty, (s.unentered l).length < n → s.visit m l ty = s.visit n l ty) :
    ∀ (tys : List TypeName) (l : Lineage), (s.unentered l).length < n →
      tys.foldl (s.visit m) l = tys.foldl (s.visit n) l
  | [], _, _ => rfl
  | ty :: tys, l, h => by
    rw [List.foldl_cons, List.foldl_cons, ih l ty h]
    refine foldl_visit_of_le ih tys _ ?_
    exact Nat.lt_of_le_of_lt (length_unentered_le (visit_entered n l ty)) h

theorem visit_of_le : ∀ {n m : Nat} (l : Lineage) (ty : TypeName),
    (s.unentered l).length < n → n ≤ m →
    s.visit m l ty = s.visit n l ty := by
  intro n
  induction n with
  | zero => intro m l ty h _; exact absurd h (Nat.not_lt_zero _)
  | succ n ih =>
    intro m l ty h hm
    obtain ⟨m, rfl⟩ : ∃ k, m = k + 1 := ⟨m - 1, by omega⟩
    unfold visit
    split
    · rfl
    next hnew =>
    have hfold : ∀ tys, tys = s.parents ty →
        tys.foldl (s.visit m) { l with entered := l.entered ++ [ty] } =
          tys.foldl (s.visit n) { l with entered := l.entered ++ [ty] } := by
      intro tys htys
      by_cases hp : tys = []
      · rw [hp]; rfl
      -- A type with parents is declared, so entering it lowers the variant.
      obtain ⟨d, hd, rfl⟩ := exists_decl_of_parents (htys ▸ hp)
      refine foldl_visit_of_le (fun l' ty' hl' => ih l' ty' hl' (by omega)) tys _ ?_
      have hlt := length_unentered_enter_lt hd hnew
      omega
    rw [hfold _ rfl]

/-- **A lineage needs no budget**: raising it changes nothing, also where parents form cycles. -/
theorem lineage_of_le (s : Schema) (ty : TypeName) {n : Nat} (h : s.types.length + 2 ≤ n) :
    s.visit n {} ty = s.lineage ty := by
  have hle : (s.unentered {}).length ≤ s.types.length := List.length_filter_le _ _
  exact visit_of_le {} ty (by omega) h

end Schema

/-! ## List cells -/

namespace Graph

variable {g : Graph}

/-- The triples whose subjects a walk has not met. -/
def unmetTriples (g : Graph) (seen : List Term) : List Triple :=
  g.triples.filter fun t => t.subject ∉ seen

/-- Meeting a subject takes its triples away. -/
theorem length_unmetTriples_cons {seen : List Term} {node : Term} (h : node ∉ seen) :
    (g.unmetTriples (node :: seen)).length + (g.matching (some node) none).length =
      (g.unmetTriples seen).length := by
  unfold unmetTriples matching fits
  induction g.triples with
  | nil => rfl
  | cons t ts ih =>
    by_cases ht : t.subject = node
    · subst ht; simp [h]; simp at ih; omega
    · by_cases hs : t.subject ∈ seen <;> simp [ht, hs] <;> simp at ih <;> omega

theorem length_matching_pos {node next : Term} {p : String} (h : g.object? node p = some next) :
    0 < (g.matching (some node) none).length := by
  obtain ⟨t, ht, hsubject, -⟩ := mem_objects_iff.1 (mem_objects_of_object? h)
  exact List.length_pos_of_mem (mem_matching.2 ⟨ht, hsubject⟩)

theorem cellsFrom_of_le : ∀ {n m : Nat} (seen : List Term) (node : Term),
    (g.unmetTriples seen).length < n → n ≤ m →
    g.cellsFrom m seen node = g.cellsFrom n seen node := by
  intro n
  induction n with
  | zero => intro m seen node h _; exact absurd h (Nat.not_lt_zero _)
  | succ n ih =>
    intro m seen node h hm
    obtain ⟨m, rfl⟩ : ∃ k, m = k + 1 := ⟨m - 1, by omega⟩
    unfold cellsFrom
    split
    · rfl
    next hend =>
    rw [not_or] at hend
    cases hnext : g.object? node Vocabulary.Rdf.rest with
    | none => rfl
    | some next =>
      have hlen := length_unmetTriples_cons (g := g) hend.2
      have hpos := length_matching_pos hnext
      dsimp only
      rw [ih (node :: seen) next (by omega) (by omega)]

/-- **The cells of a list need no budget**, also where the chain is cyclic or dangling. -/
theorem cells_of_le (g : Graph) (head : Term) {n : Nat} (h : g.size + 1 ≤ n) :
    g.cellsFrom n [] head = g.cells head := by
  have hle : (g.unmetTriples []).length ≤ g.size := List.length_filter_le _ _
  exact cellsFrom_of_le [] head (by omega) h

/-! ## Blank nodes -/

theorem reachFrom_of_le : ∀ {n m : Nat} (seen stack : List Term),
    stack.length + (g.unmetTriples seen).length ≤ n → n ≤ m →
    g.reachFrom m seen stack = g.reachFrom n seen stack := by
  intro n
  induction n with
  | zero =>
    intro m seen stack h _
    have hnil : stack = [] := List.eq_nil_of_length_eq_zero (by omega)
    subst hnil
    cases m <;> rfl
  | succ n ih =>
    intro m seen stack h hm
    obtain ⟨m, rfl⟩ : ∃ k, m = k + 1 := ⟨m - 1, by omega⟩
    cases stack with
    | nil => rfl
    | cons node stack =>
      rw [List.length_cons] at h
      unfold reachFrom
      split
      · exact ih seen stack (by omega) (by omega)
      · next hnew =>
        -- A node pushes at most as many nodes as it has triples.
        have hlen := length_unmetTriples_cons (g := g) hnew
        have hfound := List.length_filter_le Term.isBlank
          ((g.matching (some node) none).map (·.object))
        rw [List.length_map] at hfound
        dsimp only
        rw [ih (node :: seen) _ (by rw [List.length_append, List.length_reverse]; omega) (by omega)]

/-- **A description needs no budget**, also where blank nodes form cycles. -/
theorem reach_of_le (g : Graph) (node : Term) {n : Nat} (h : g.size + 1 ≤ n) :
    g.reachFrom n [] [node] = g.reach node := by
  have hle : (g.unmetTriples []).length ≤ g.size := List.length_filter_le _ _
  exact reachFrom_of_le [] [node] (by rw [List.length_singleton]; omega) h

end Graph

end GraphMarshal
