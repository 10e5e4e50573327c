import GraphMarshal.Engine.Candidates
import GraphMarshal.Proofs.Ancestry
import Mathlib.Data.List.Induction

/-!
# Refining by a set of classes

A record is made an instance of the type that a fold over the classes of its resource comes to. What
a class adds is compared with the type so far only, but since extending is transitive this suffices:
the fold comes to a type that no other asserted one strictly extends. Where the types asserted are
comparable this is the one that extends all the others, so neither the order of the classes counts
nor how often one is stated.
-/

namespace GraphMarshal.Schema

variable {s : Schema} {typeFor : String → Option TypeName} {requested : TypeName}
  {classes : List String}

/-- A type that classes assert besides the requested one, which it extends. -/
def Asserts (s : Schema) (typeFor : String → Option TypeName) (requested : TypeName)
    (classes : List String) (ty : TypeName) : Prop :=
  (∃ iri ∈ classes, typeFor iri = some ty) ∧ ty ≠ requested ∧ s.isA ty requested

/-- The type that extends all that classes assert, if they assert any. -/
def Refines (s : Schema) (typeFor : String → Option TypeName) (requested : TypeName)
    (classes : List String) : Option TypeName → Prop
  | none => ∀ ty, ¬s.Asserts typeFor requested classes ty
  | some ty => s.Asserts typeFor requested classes ty ∧
      ∀ other, s.Asserts typeFor requested classes other → s.isA ty other

theorem asserts_concat {iri : String} {ty : TypeName} :
    s.Asserts typeFor requested (classes ++ [iri]) ty ↔ s.Asserts typeFor requested classes ty ∨
      typeFor iri = some ty ∧ ty ≠ requested ∧ s.isA ty requested := by
  unfold Asserts
  simp only [List.mem_append, List.mem_singleton, or_and_right, exists_or, exists_eq_left]

theorem Refines.congr {classes' : List String} {current : Option TypeName}
    (h : s.Refines typeFor requested classes current)
    (hsame : ∀ ty,
      s.Asserts typeFor requested classes' ty ↔ s.Asserts typeFor requested classes ty) :
    s.Refines typeFor requested classes' current := by
  cases current with
  | none => exact fun ty hty => h ty ((hsame ty).1 hty)
  | some cur => exact ⟨(hsame cur).2 h.1, fun other ho => h.2 other ((hsame other).1 ho)⟩

theorem Refines.unique {o o' : Option TypeName}
    (hacyclic : ∀ a b, s.Asserts typeFor requested classes a →
      s.Asserts typeFor requested classes b → s.isA a b → s.isA b a → a = b)
    (h : s.Refines typeFor requested classes o) (h' : s.Refines typeFor requested classes o') :
    o = o' := by
  cases o with
  | none =>
    cases o' with
    | none => rfl
    | some b => exact absurd h'.1 (h b)
  | some a =>
    cases o' with
    | none => exact absurd h.1 (h' a)
    | some b => rw [hacyclic a b h.1 h'.1 (h.2 b h'.1) (h'.2 a h.1)]

/-- What the fold over classes makes of the type so far. -/
def refineBy (s : Schema) (typeFor : String → Option TypeName) (requested : TypeName)
    (current : Option TypeName) (iri : String) : Option TypeName :=
  match typeFor iri with
  | none => current
  | some ty =>
    if ty = requested then current
    else if s.isA ty requested then
      match current with
      | none => some ty
      | some cur => if s.isA ty cur then some ty else some cur
    else current

theorem refinement_concat (iri : String) : s.refinement typeFor requested (classes ++ [iri]) =
    s.refineBy typeFor requested (s.refinement typeFor requested classes) iri :=
  List.foldl_concat ..

/-- A type that classes assert and that no other one asserted extends without being extended by it,
if they assert any. -/
def MostSpecific (s : Schema) (typeFor : String → Option TypeName) (requested : TypeName)
    (classes : List String) : Option TypeName → Prop
  | none => ∀ ty, ¬s.Asserts typeFor requested classes ty
  | some ty => s.Asserts typeFor requested classes ty ∧
      ∀ other, s.Asserts typeFor requested classes other → s.isA other ty → s.isA ty other

/-- Among comparable types a most specific one extends all others. -/
theorem MostSpecific.refines {o : Option TypeName}
    (hcomparable : ∀ a b, s.Asserts typeFor requested classes a →
      s.Asserts typeFor requested classes b → s.isA a b ∨ s.isA b a)
    (h : s.MostSpecific typeFor requested classes o) : s.Refines typeFor requested classes o := by
  cases o with
  | none => exact h
  | some ty =>
    refine ⟨h.1, fun other ho => ?_⟩
    rcases hcomparable ty other h.1 ho with hext | hext
    · exact hext
    · exact h.2 other ho hext

/-- One more class keeps the type so far, unless it asserts a type that extends it. -/
theorem mostSpecific_refineBy {iri : String} {current : Option TypeName}
    (h : s.MostSpecific typeFor requested classes current) :
    s.MostSpecific typeFor requested (classes ++ [iri])
      (s.refineBy typeFor requested current iri) := by
  have hkept : (∀ ty, typeFor iri = some ty → ty ≠ requested → ¬s.isA ty requested) →
      s.MostSpecific typeFor requested (classes ++ [iri]) current := by
    intro hnone
    have hsame : ∀ ty, s.Asserts typeFor requested (classes ++ [iri]) ty ↔
        s.Asserts typeFor requested classes ty := fun ty =>
      asserts_concat.trans (or_iff_left fun ⟨hfor, hne, hisA⟩ => hnone ty hfor hne hisA)
    cases current <;> simpa only [MostSpecific, hsame] using h
  unfold refineBy
  split
  · next hfor => exact hkept fun ty hty => by rw [hfor] at hty; cases hty
  next ty hfor =>
  split
  · next heq => exact hkept fun t ht hne => by rw [hfor] at ht; cases ht; exact absurd heq hne
  next hne =>
  split
  case isFalse hisA => exact hkept fun t ht _ => by rw [hfor] at ht; cases ht; exact hisA
  next hisA =>
  have hnew : s.Asserts typeFor requested (classes ++ [iri]) ty :=
    asserts_concat.2 (.inr ⟨hfor, hne, hisA⟩)
  -- Besides what was asserted before there is only the new type.
  have hcases : ∀ {other}, s.Asserts typeFor requested (classes ++ [iri]) other →
      s.Asserts typeFor requested classes other ∨ other = ty := fun ho =>
    (asserts_concat.1 ho).imp_right fun ⟨ht, _⟩ => Option.some.inj (ht.symm.trans hfor)
  cases current with
  | none =>
    refine ⟨hnew, fun other ho _ => ?_⟩
    rcases hcases ho with ho | rfl
    · exact absurd ho (h other)
    · exact s.isA_refl other
  | some cur =>
    obtain ⟨hcur, hspecific⟩ := h
    dsimp only
    split
    · next hty =>
      -- What extends the new type extends the one that it replaces, which so extends it.
      refine ⟨hnew, fun other ho hext => ?_⟩
      rcases hcases ho with ho | rfl
      · exact isA_trans hty (hspecific other ho (isA_trans hext hty))
      · exact s.isA_refl other
    · next hty =>
      refine ⟨asserts_concat.2 (.inl hcur), fun other ho hext => ?_⟩
      rcases hcases ho with ho | rfl
      · exact hspecific other ho hext
      · exact absurd hext hty

/-- **The fold over the classes comes to a most specific type**, whatever their order is. -/
theorem mostSpecific_refinement : s.MostSpecific typeFor requested classes
    (s.refinement typeFor requested classes) := by
  induction classes using List.reverseRecOn with
  | nil => exact fun ty ⟨⟨iri, hiri, _⟩, _⟩ => List.not_mem_nil hiri
  | append_singleton classes iri ih =>
    rw [refinement_concat]
    exact mostSpecific_refineBy ih

theorem asserts_of_refinement {ty : TypeName}
    (h : s.refinement typeFor requested classes = some ty) :
    s.Asserts typeFor requested classes ty := by
  have hspecific : s.MostSpecific typeFor requested classes
      (s.refinement typeFor requested classes) := mostSpecific_refinement
  rw [h] at hspecific
  exact hspecific.1

/-- **It comes to the type that extends all others**, where the types asserted are comparable. -/
theorem refines_refinement
    (hcomparable : ∀ a b, s.Asserts typeFor requested classes a →
      s.Asserts typeFor requested classes b → s.isA a b ∨ s.isA b a) :
    s.Refines typeFor requested classes (s.refinement typeFor requested classes) :=
  mostSpecific_refinement.refines hcomparable

theorem refinement_congr {classes' : List String}
    (hacyclic : ∀ a b, s.Asserts typeFor requested classes a →
      s.Asserts typeFor requested classes b → s.isA a b → s.isA b a → a = b)
    (hcomparable : ∀ a b, s.Asserts typeFor requested classes a →
      s.Asserts typeFor requested classes b → s.isA a b ∨ s.isA b a)
    (hsame : ∀ iri, iri ∈ classes' ↔ iri ∈ classes) :
    s.refinement typeFor requested classes' = s.refinement typeFor requested classes := by
  have hasserts : ∀ ty,
      s.Asserts typeFor requested classes' ty ↔ s.Asserts typeFor requested classes ty := by
    intro ty
    unfold Asserts
    simp only [hsame]
  have hrefines' : s.Refines typeFor requested classes' (s.refinement typeFor requested classes') :=
    refines_refinement fun a b ha hb => hcomparable a b ((hasserts a).1 ha) ((hasserts b).1 hb)
  have hrefines := refines_refinement hcomparable
  exact (hrefines'.congr fun ty => (hasserts ty).symm).unique hacyclic hrefines

end GraphMarshal.Schema
