import GraphMarshal.Proofs.Budgets
import Mathlib.Logic.Relation

/-!
# Ancestry

A type extends what parents lead to from it. The walk from a type runs without a budget in `Visits`.
It enters what the type extends, each type once, and leaves a type when its parents have been
visited. A type that is met while it is still open is passed over, so the order in which types are
left is that of a hierarchy only where there is no cycle: then the open types are those that the
type at hand is an ancestor of, and what it extends is left before it.
-/

namespace GraphMarshal.Schema

variable {s : Schema} {ty : TypeName} {tys : List TypeName} {l l' : Lineage}

/-- A type extends itself, its parents, their parents and so on. -/
def Extends (s : Schema) : TypeName → TypeName → Prop :=
  Relation.ReflTransGen fun ty parent => parent ∈ s.parents ty

/-- No two different types of a set extend each other. -/
def AcyclicOn (s : Schema) (p : TypeName → Prop) : Prop :=
  ∀ a b, p a → p b → s.Extends a b → s.Extends b a → a = b

/-- The walk over a list of types, without a budget: a type entered before is passed over, a new one
is entered, its parents are visited, and then it is left. -/
inductive Visits (s : Schema) : List TypeName → Lineage → Lineage → Prop
  | done {l : Lineage} : Visits s [] l l
  | skip {ty : TypeName} {tys : List TypeName} {l l' : Lineage} : ty ∈ l.entered →
    Visits s tys l l' → Visits s (ty :: tys) l l'
  | enter {ty : TypeName} {tys : List TypeName} {l l₁ l' : Lineage} : ty ∉ l.entered →
    Visits s (s.parents ty) { l with entered := l.entered ++ [ty] } l₁ →
    Visits s tys { l₁ with left := l₁.left ++ [ty] } l' → Visits s (ty :: tys) l l'

/-! ## Walks -/

theorem Visits.unique {l₁ l₂ : Lineage} (h : s.Visits tys l l₁) (h' : s.Visits tys l l₂) :
    l₁ = l₂ := by
  induction h generalizing l₂ with
  | done => cases h'; rfl
  | skip hold _ ih =>
    cases h' with
    | skip _ h' => exact ih h'
    | enter hnew _ _ => exact absurd hold hnew
  | enter hnew _ _ ihp ih =>
    cases h' with
    | skip hold _ => exact absurd hold hnew
    | enter _ hp h' =>
      obtain rfl := ihp hp
      exact ih h'

theorem Visits.cons {l₁ : Lineage} (h : s.Visits [ty] l l₁) (h' : s.Visits tys l₁ l') :
    s.Visits (ty :: tys) l l' := by
  cases h with
  | skip hold hdone => cases hdone; exact .skip hold h'
  | enter hnew hp hdone => cases hdone; exact .enter hnew hp h'

theorem foldl_visits {n : Nat}
    (ih : ∀ l ty, (s.unentered l).length < n → s.Visits [ty] l (s.visit n l ty)) :
    ∀ (tys : List TypeName) (l : Lineage), (s.unentered l).length < n →
      s.Visits tys l (tys.foldl (s.visit n) l)
  | [], _, _ => .done
  | ty :: tys, l, h => by
    have hlt : (s.unentered (s.visit n l ty)).length < n :=
      Nat.lt_of_le_of_lt (length_unentered_le (visit_entered n l ty)) h
    exact (ih l ty h).cons (foldl_visits ih tys _ hlt)

/-- Every walk ends: a type with parents is declared, and entering it leaves fewer to enter. -/
theorem visit_visits (n : Nat) : ∀ l ty, (s.unentered l).length < n →
    s.Visits [ty] l (s.visit n l ty) := by
  induction n with
  | zero => exact fun _ _ h => absurd h (Nat.not_lt_zero _)
  | succ n ih =>
    intro l ty h
    unfold visit
    split
    · next hold => exact .skip hold .done
    next hnew =>
    refine .enter hnew ?_ .done
    by_cases hp : s.parents ty = []
    · rw [hp]
      exact .done
    · obtain ⟨d, hd, rfl⟩ := exists_decl_of_parents hp
      have hlt := length_unentered_enter_lt hd hnew
      exact foldl_visits ih _ _ (by omega)

theorem lineage_visits (s : Schema) (ty : TypeName) : s.Visits [ty] {} (s.lineage ty) := by
  have hle : (s.unentered {}).length ≤ s.types.length := List.length_filter_le _ _
  exact visit_visits _ {} ty (by omega)

/-- What a walk adds to the types entered and to those left is the same up to order, and new. -/
theorem Visits.grows (h : s.Visits tys l l') : ∃ entered left, l'.entered = l.entered ++ entered ∧
    l'.left = l.left ++ left ∧ left.Perm entered ∧ entered.Nodup ∧
    ∀ t ∈ entered, t ∉ l.entered := by
  induction h with
  | done => exact ⟨[], [], by simp⟩
  | skip _ _ ih => exact ih
  | @enter ty tys l l₁ l' hnew _ _ ihp ih =>
    obtain ⟨entered₁, left₁, he₁, hl₁, hperm₁, hnodup₁, hnew₁⟩ := ihp
    obtain ⟨entered₂, left₂, he₂, hl₂, hperm₂, hnodup₂, hnew₂⟩ := ih
    refine ⟨ty :: entered₁ ++ entered₂, left₁ ++ ty :: left₂, ?_, ?_, ?_, ?_, ?_⟩
    · rw [he₂, he₁]
      simp
    · rw [hl₂, hl₁]
      simp
    · exact List.perm_middle.trans ((hperm₁.append hperm₂).cons ty)
    · have hty : ty ∉ entered₁ := fun hin => hnew₁ ty hin (by simp)
      refine List.nodup_append.2 ⟨List.nodup_cons.2 ⟨hty, hnodup₁⟩, hnodup₂, ?_⟩
      rintro t ht _ ht' rfl
      refine hnew₂ t ht' ?_
      rw [he₁]
      simpa [or_assoc] using Or.inr ht
    · intro t ht hold
      rcases List.mem_append.1 ht with ht | ht
      · rcases List.mem_cons.1 ht with rfl | ht
        · exact hnew hold
        · exact hnew₁ t ht (List.mem_append_left _ hold)
      · refine hnew₂ t ht ?_
        rw [he₁]
        simp [hold]

theorem Visits.entered (h : s.Visits tys l l') {t : TypeName} (ht : t ∈ l.entered) :
    t ∈ l'.entered := by
  obtain ⟨entered, -, he, -⟩ := h.grows
  rw [he]
  exact List.mem_append_left _ ht

theorem Visits.extends (h : s.Visits tys l l') :
    ∀ t ∈ l'.entered, t ∈ l.entered ∨ ∃ ty ∈ tys, s.Extends ty t := by
  induction h with
  | done => exact fun t ht => .inl ht
  | skip _ _ ih =>
    exact fun t ht => (ih t ht).imp_right fun ⟨ty, hty, hext⟩ =>
      ⟨ty, List.mem_cons_of_mem _ hty, hext⟩
  | @enter ty tys l l₁ l' _ _ _ ihp ih =>
    intro t ht
    rcases ih t ht with ht | ⟨ty', hty', hext⟩
    · rcases ihp t ht with ht | ⟨parent, hparent, hext⟩
      · rcases List.mem_append.1 ht with ht | ht
        · exact .inl ht
        · rw [List.mem_singleton.1 ht]
          exact .inr ⟨ty, List.mem_cons_self, .refl⟩
      · exact .inr ⟨ty, List.mem_cons_self, .head hparent hext⟩
    · exact .inr ⟨ty', List.mem_cons_of_mem _ hty', hext⟩

theorem Visits.closed (h : s.Visits tys l l') : (∀ ty ∈ tys, ty ∈ l'.entered) ∧
    ∀ t ∈ l'.entered, t ∈ l.entered ∨ ∀ parent ∈ s.parents t, parent ∈ l'.entered := by
  induction h with
  | done => exact ⟨fun _ h => (by cases h), fun t ht => .inl ht⟩
  | skip hold h ih => exact ⟨List.forall_mem_cons.2 ⟨h.entered hold, ih.1⟩, ih.2⟩
  | @enter ty tys l l₁ l' _ hp h ihp ih =>
    have hty : ty ∈ l₁.entered := hp.entered (List.mem_append_right _ (List.mem_singleton_self ty))
    refine ⟨List.forall_mem_cons.2 ⟨h.entered hty, ih.1⟩, fun t ht => ?_⟩
    rcases ih.2 t ht with ht | hparents
    · rcases ihp.2 t ht with ht | hparents
      · rcases List.mem_append.1 ht with ht | ht
        · exact .inl ht
        · rw [List.mem_singleton.1 ht]
          exact .inr fun parent hparent => h.entered (ihp.1 parent hparent)
      · exact .inr fun parent hparent => h.entered (hparents parent hparent)
    · exact .inr hparents

theorem isA_iff {ancestor : TypeName} : s.isA ty ancestor ↔ s.Extends ty ancestor := by
  have hvisits := s.lineage_visits ty
  unfold isA
  rw [decide_eq_true_eq]
  constructor
  · intro h
    rcases hvisits.extends ancestor h with h | ⟨ty', hty', hext⟩
    · cases h
    · rw [← List.mem_singleton.1 hty']
      exact hext
  · intro h
    obtain ⟨hself, hclosed⟩ := hvisits.closed
    induction h with
    | refl => exact hself ty (List.mem_singleton_self ty)
    | tail _ hparent ih => exact (hclosed _ ih).resolve_left List.not_mem_nil _ hparent

theorem mem_entered {ancestor : TypeName} :
    ancestor ∈ (s.lineage ty).entered ↔ s.Extends ty ancestor := by
  rw [← isA_iff]
  exact decide_eq_true_iff.symm

/-- Whether what a type extends is free of cycles is seen from its lineage. -/
theorem acyclicOn_iff : s.AcyclicOn (s.Extends ty) ↔ ∀ a ∈ (s.lineage ty).entered,
    ∀ b ∈ (s.lineage ty).entered, s.isA a b → s.isA b a → a = b := by
  unfold AcyclicOn
  simp only [mem_entered, isA_iff]
  exact ⟨fun h a ha b hb => h a b ha hb, fun h a b ha hb => h a ha b hb⟩

instance : Decidable (s.AcyclicOn (s.Extends ty)) := decidable_of_iff _ acyclicOn_iff.symm

theorem isA_refl (s : Schema) (ty : TypeName) : s.isA ty ty := isA_iff.2 .refl

theorem isA_trans {a b c : TypeName} (hab : s.isA a b) (hbc : s.isA b c) : s.isA a c :=
  isA_iff.2 ((isA_iff.1 hab).trans (isA_iff.1 hbc))

/-- A lineage leaves each type that it enters once. -/
theorem lineage_left (s : Schema) (ty : TypeName) : (s.lineage ty).entered.Nodup ∧
    (s.lineage ty).left.Perm (s.lineage ty).entered := by
  obtain ⟨entered, left, he, hl, hperm, hnodup, -⟩ := (s.lineage_visits ty).grows
  rw [he, hl]
  exact ⟨hnodup, hperm⟩

/-! ## Order -/

/-- A type has been entered and not left. -/
def Lineage.Open (l : Lineage) (t : TypeName) : Prop := t ∈ l.entered ∧ t ∉ l.left

theorem Visits.open_iff (h : s.Visits tys l l') {t : TypeName} : l'.Open t ↔ l.Open t := by
  obtain ⟨entered, left, he, hl, hperm, -, hnew⟩ := h.grows
  unfold Lineage.Open
  rw [he, hl, List.mem_append, List.mem_append, hperm.mem_iff]
  constructor
  · rintro ⟨hentered, hleft⟩
    rw [not_or] at hleft
    exact ⟨hentered.resolve_right hleft.2, hleft.1⟩
  · rintro ⟨hentered, hleft⟩
    exact ⟨.inl hentered, not_or.2 ⟨hleft, fun hin => hnew t hin hentered⟩⟩

/-- What has been left is closed under extending, and no type of it extends a later one. The types
that are open extend those that are to be visited. -/
structure Orderly (s : Schema) (tys : List TypeName) (l : Lineage) : Prop where
  entered : ∀ t ∈ l.left, t ∈ l.entered
  closed : ∀ t ∈ l.left, ∀ a, s.Extends t a → a ∈ l.left
  sorted : l.left.Pairwise fun a b => ¬s.Extends a b
  below : ∀ t, l.Open t → ∀ v ∈ tys, s.Extends t v

namespace Orderly

theorem start (s : Schema) (tys : List TypeName) : s.Orderly tys {} where
  entered _ h := by cases h
  closed _ h := by cases h
  sorted := .nil
  below _ h := by cases h.1

theorem tail (h : s.Orderly (ty :: tys) l) : s.Orderly tys l :=
  { h with below := fun t ht v hv => h.below t ht v (List.mem_cons_of_mem _ hv) }

theorem open_enter (h : s.Orderly (ty :: tys) l) (hnew : ty ∉ l.entered) {t : TypeName} :
    Lineage.Open { l with entered := l.entered ++ [ty] } t ↔ l.Open t ∨ t = ty := by
  have hty : ty ∉ l.left := fun hin => hnew (h.entered ty hin)
  unfold Lineage.Open
  rw [List.mem_append, List.mem_singleton]
  constructor
  · rintro ⟨hin | heq, hleft⟩
    · exact .inl ⟨hin, hleft⟩
    · exact .inr heq
  · rintro (⟨hin, hleft⟩ | rfl)
    · exact ⟨.inl hin, hleft⟩
    · exact ⟨.inr rfl, hty⟩

theorem enter (h : s.Orderly (ty :: tys) l) (hnew : ty ∉ l.entered) :
    s.Orderly (s.parents ty) { l with entered := l.entered ++ [ty] } where
  entered t ht := List.mem_append_left _ (h.entered t ht)
  closed := h.closed
  sorted := h.sorted
  below t ht v hv := by
    rcases (h.open_enter hnew).1 ht with ht | rfl
    · exact (h.below t ht ty List.mem_cons_self).tail hv
    · exact .single hv

/-- Where there is no cycle, all that a type extends has been left when its parents have been
visited, but for the type itself. -/
theorem left_of_extends {l₁ : Lineage} (hacyclic : s.AcyclicOn (s.Extends ty))
    (h : s.Orderly (ty :: tys) l) (hnew : ty ∉ l.entered)
    (hvisits : s.Visits (s.parents ty) { l with entered := l.entered ++ [ty] } l₁)
    (h₁ : s.Orderly [] l₁) {a : TypeName} (ha : s.Extends ty a) : a = ty ∨ a ∈ l₁.left := by
  induction ha with
  | refl => exact .inl rfl
  | @tail c a hc hparent ih =>
    rcases ih with rfl | hleft
    · by_cases hin : a ∈ l₁.left
      · exact .inr hin
      · have hopen : l₁.Open a := ⟨hvisits.closed.1 a hparent, hin⟩
        -- A parent that is open extends the type, which extends it.
        rcases (h.open_enter hnew).1 (hvisits.open_iff.1 hopen) with hopen | heq
        · have hback : s.Extends a c := h.below a hopen c List.mem_cons_self
          exact .inl (hacyclic a c (.single hparent) .refl hback (.single hparent))
        · exact .inl heq
    · exact .inr (h₁.closed c hleft a (.single hparent))

theorem leave {l₁ : Lineage} (hacyclic : s.AcyclicOn (s.Extends ty))
    (h : s.Orderly (ty :: tys) l) (hnew : ty ∉ l.entered)
    (hvisits : s.Visits (s.parents ty) { l with entered := l.entered ++ [ty] } l₁)
    (h₁ : s.Orderly [] l₁) : s.Orderly tys { l₁ with left := l₁.left ++ [ty] } := by
  have hopen : l₁.Open ty := hvisits.open_iff.2 ((h.open_enter hnew).2 (.inr rfl))
  refine ⟨fun t ht => ?_, fun t ht a ha => ?_, ?_, fun t ht v hv => ?_⟩
  · rcases List.mem_append.1 ht with ht | ht
    · exact h₁.entered t ht
    · rw [List.mem_singleton.1 ht]
      exact hopen.1
  · rcases List.mem_append.1 ht with ht | ht
    · exact List.mem_append_left _ (h₁.closed t ht a ha)
    · rw [List.mem_singleton.1 ht] at ha
      rcases left_of_extends hacyclic h hnew hvisits h₁ ha with rfl | hleft
      · simp
      · exact List.mem_append_left _ hleft
  · refine List.pairwise_append.2 ⟨h₁.sorted, List.pairwise_singleton _ _, ?_⟩
    intro a ha b hb hext
    rw [List.mem_singleton.1 hb] at hext
    exact hopen.2 (h₁.closed a ha ty hext)
  · have hne : t ≠ ty := fun heq => ht.2 (by simp [heq])
    have ht₁ : l₁.Open t := ⟨ht.1, fun hin => ht.2 (List.mem_append_left _ hin)⟩
    have hold : l.Open t :=
      ((h.open_enter hnew).1 (hvisits.open_iff.1 ht₁)).resolve_right hne
    exact h.below t hold v (List.mem_cons_of_mem _ hv)

end Orderly

/-- **A walk without cycles is orderly**: it leaves no type before one that it extends. -/
theorem Visits.orderly {root : TypeName} (hacyclic : s.AcyclicOn (s.Extends root))
    (h : s.Visits tys l l') (htys : ∀ v ∈ tys, s.Extends root v) (hl : s.Orderly tys l) :
    s.Orderly [] l' := by
  induction h with
  | done => exact hl
  | skip _ _ ih => exact ih (fun v hv => htys v (List.mem_cons_of_mem _ hv)) hl.tail
  | @enter ty tys l l₁ l' hnew hvisits _ ihp ih =>
    have hty : s.Extends root ty := htys ty List.mem_cons_self
    have hl₁ : s.Orderly [] l₁ := ihp (fun v hv => hty.tail hv) (hl.enter hnew)
    have hbelow : s.AcyclicOn (s.Extends ty) := fun a b ha hb =>
      hacyclic a b (hty.trans ha) (hty.trans hb)
    exact ih (fun v hv => htys v (List.mem_cons_of_mem _ hv)) (hl.leave hbelow hnew hvisits hl₁)

theorem lineage_sorted (hacyclic : s.AcyclicOn (s.Extends ty)) :
    (s.lineage ty).left.Pairwise fun a b => ¬s.Extends a b := by
  have hself : ∀ v ∈ [ty], s.Extends ty v := fun v hv => by
    rw [List.mem_singleton.1 hv]
    exact .refl
  exact ((s.lineage_visits ty).orderly hacyclic hself (.start s [ty])).sorted

end GraphMarshal.Schema
