import GraphMarshal.Proofs.Literals
import Mathlib.Data.Finset.Card

/-!
# Choosing a literal

A single-valued member of a scalar kind chooses among the literal objects of its predicate as among
a set: neither their order, nor how often one is stated, nor the resources beside them count. Where
languages count the choice is by the language of the member. Where they do not, untagged literals
come before those in the default language and these before all others. The member has a value if one
literal is left, and if several are left the error says how many.
-/

namespace GraphMarshal

/-! ## Sets of literals -/

/-- The literals among objects. -/
def literalsOf (objects : List Term) : Finset Term :=
  (objects.filter fun t => t.isLiteral).toFinset

/-- The terms with a tag, or with none. -/
def tagged (tag : Option String) (ts : Finset Term) : Finset Term :=
  ts.filter fun t => t.language = tag

/-- The untagged terms, else those in a language, else all. -/
def preferred (lang : String) (ts : Finset Term) : Finset Term :=
  if (tagged none ts).Nonempty then tagged none ts
  else if (tagged (some lang) ts).Nonempty then tagged (some lang) ts
  else ts

/-- The literals among objects that a single-valued member of a scalar kind is left with. -/
def MemberBinding.choice (c : Config) (m : MemberBinding) (objects : List Term) : Finset Term :=
  if c.languageAware then tagged m.language (literalsOf objects)
  else preferred c.defaultLanguage (literalsOf objects)

theorem Kind.admits_of_isScalar {k : Kind} (h : k.isScalar) (t : Term) :
    k.admits t = t.isLiteral := by
  unfold admits
  rw [if_pos h]

theorem toFinset_filter_language (tag : Option String) (ts : List Term) :
    (ts.filter fun t => t.language = tag).toFinset = tagged tag ts.toFinset := by
  rw [List.toFinset_filter]
  simp [tagged]

theorem exists_filter_language (tag : Option String) (ts : List Term) :
    (!(ts.filter fun t => t.language = tag).isEmpty) = true ↔ (tagged tag ts.toFinset).Nonempty := by
  rw [← toFinset_filter_language, List.toFinset_nonempty_iff, Bool.not_eq_true',
    ← Bool.not_eq_true, List.isEmpty_iff]

theorem toFinset_preferLanguage (lang : String) (ts : List Term) :
    (preferLanguage lang ts).toFinset = preferred lang ts.toFinset := by
  have huntagged := exists_filter_language none ts
  have htagged := exists_filter_language (some lang) ts
  unfold preferLanguage preferred
  dsimp only
  simp only [huntagged, htagged]
  split
  · exact toFinset_filter_language none ts
  · split
    · exact toFinset_filter_language (some lang) ts
    · rfl

theorem nodup_preferLanguage {ts : List Term} (h : ts.Nodup) (lang : String) :
    (preferLanguage lang ts).Nodup := by
  unfold preferLanguage
  dsimp only
  split
  · exact h.filter _
  · split
    · exact h.filter _
    · exact h

namespace MemberBinding

variable {c : Config} {m : MemberBinding} {objects : List Term}

theorem nodup_candidates : (m.candidates c objects).Nodup := by
  have hadmitted : ((distinct objects).filter m.kind.admits).Nodup :=
    (nodup_distinct objects).filter _
  unfold candidates
  dsimp only
  split
  · exact hadmitted
  · split
    · exact hadmitted.filter _
    · exact nodup_preferLanguage hadmitted _

theorem toFinset_admitted (hkind : m.kind.isScalar) :
    ((distinct objects).filter m.kind.admits).toFinset = literalsOf objects := by
  ext t
  simp [literalsOf, Kind.admits_of_isScalar hkind]

theorem toFinset_candidates (hkind : m.kind.isScalar) :
    (m.candidates c objects).toFinset = m.choice c objects := by
  have hliteral : ((distinct objects).filter m.kind.admits).any Term.isResource = false := by
    rw [List.any_eq_false]
    intro t ht hresource
    have hlit := (List.mem_filter.1 ht).2
    rw [Kind.admits_of_isScalar hkind] at hlit
    unfold Term.isResource at hresource
    rw [hlit] at hresource
    exact Bool.false_ne_true hresource
  unfold candidates choice
  dsimp only
  rw [hliteral, if_neg Bool.false_ne_true]
  split
  · rw [toFinset_filter_language, toFinset_admitted hkind]
  · rw [toFinset_preferLanguage, toFinset_admitted hkind]

theorem length_candidates (hkind : m.kind.isScalar) :
    (m.candidates c objects).length = (m.choice c objects).card := by
  rw [← toFinset_candidates hkind, List.toFinset_card_of_nodup nodup_candidates]

theorem isLiteral_of_mem_choice {t : Term} (h : t ∈ m.choice c objects) : t.isLiteral := by
  have hmem : t ∈ literalsOf objects := by
    unfold choice preferred tagged at h
    split at h
    · exact Finset.mem_of_mem_filter t h
    · split at h
      · exact Finset.mem_of_mem_filter t h
      · split at h
        · exact Finset.mem_of_mem_filter t h
        · exact h
  exact (List.mem_filter.1 (List.mem_toFinset.1 hmem)).2

end MemberBinding

namespace Engine

/-- **A literal is chosen as from a set.** A single-valued member of a scalar kind has no value if
it is left with no literal, the value of the literal if it is left with one, and is ambiguous
otherwise, by as many literals as it is left with. -/
theorem memberValue_chooses (cx : Setting) (read : Reader) (rd : Reading) (m : MemberBinding)
    (objects : List Term) (hkind : m.kind.isScalar) (hsingle : m.collection = false) :
    (m.choice cx.config objects = ∅ → memberValue cx read rd m objects = pure none) ∧
      (∀ t, m.choice cx.config objects = {t} →
        memberValue cx read rd m objects = Run.ofExcept (Literal.decode t m.kind)) ∧
      (2 ≤ (m.choice cx.config objects).card → memberValue cx read rd m objects =
        Run.fail (.ambiguousValue m.name (m.choice cx.config objects).card)) := by
  have hset : (m.candidates cx.config objects).toFinset = m.choice cx.config objects :=
    MemberBinding.toFinset_candidates hkind
  have hcard : (m.candidates cx.config objects).length = (m.choice cx.config objects).card :=
    MemberBinding.length_candidates hkind
  have hvalue : memberValue cx read rd m objects = singleValue cx read rd m objects := by
    unfold memberValue
    rw [hsingle, if_neg Bool.false_ne_true]
  have hliteral : ∀ t ∈ m.choice cx.config objects, t.isLiteral := fun t =>
    MemberBinding.isLiteral_of_mem_choice
  rw [hvalue]
  unfold singleValue
  rw [← hcard]
  rw [← hset] at hcard hliteral ⊢
  generalize m.candidates cx.config objects = ts at hcard hliteral ⊢
  rcases ts with _ | ⟨u, _ | ⟨u', us⟩⟩
  · refine ⟨fun _ => rfl, fun t ht => ?_, fun htwo => absurd htwo (by simp)⟩
    exact absurd ht.symm (Finset.singleton_ne_empty t)
  · refine ⟨fun hnone => ?_, fun t ht => ?_, fun htwo => absurd htwo (by simp)⟩
    · exact absurd hnone (Finset.singleton_ne_empty u)
    · obtain rfl : u = t := Finset.singleton_injective ht
      exact termValue_literal (hliteral u (by simp))
  · refine ⟨fun hnone => absurd hnone (by simp), fun t ht => ?_, fun _ => rfl⟩
    rw [ht, Finset.card_singleton] at hcard
    exact absurd hcard (by simp)

/-- Two untagged names are stated, one of them twice, besides a resource and a name in French. -/
def nicknames : List Term :=
  [.string "Bob", .iri "urn:bob", .langString "Robert" "fr", .string "Rob", .string "Bob"]

def nickname : MemberBinding where
  name := "nickname"
  kind := .string
  predicate := "urn:nickname"
  collection := false
  ordered := false
  language := none
  lazy := false
  xsdUri := false

def nicknameSetting : Setting where
  config := { defaultLanguage := "fr" }
  schema := { types := [] }

def nicknameReading : Reading where
  source := ⟨0⟩
  id := .iri "urn:bob"
  graph := {}

/-- Untagged names come before those in the default language, and two of them are ambiguous. -/
theorem memberValue_chooses_nickname :
    nickname.kind.isScalar ∧ nickname.collection = false ∧
      (nickname.choice nicknameSetting.config nicknames).card = 2 ∧
      memberValue nicknameSetting (readWithin nicknameSetting ⟨0⟩ 0) nicknameReading nickname
        nicknames = Run.fail (.ambiguousValue "nickname" 2) := by
  have hcard : (nickname.choice nicknameSetting.config nicknames).card = 2 := by decide +kernel
  have hchooses := memberValue_chooses nicknameSetting (readWithin nicknameSetting ⟨0⟩ 0)
    nicknameReading nickname nicknames rfl rfl
  refine ⟨rfl, rfl, hcard, ?_⟩
  rw [hchooses.2.2 (by rw [hcard])]
  rw [hcard]
  rfl

end Engine

end GraphMarshal
