import GraphMarshal.Triple
import Mathlib.Order.Defs.Unbundled
import Mathlib.Tactic.SplitIfs

/-!
# The order of terms

Texts compare by code point, and so as the bytes of their UTF-8 form do: a greater code point never
has lesser bytes. Terms are ordered by kind and then part by part. Comparing them takes only equal
terms for equal and gives a strict total order, the one that `Before` lists case by case.
-/

namespace GraphMarshal

/-! ## Texts -/

namespace Text

/-- The bytes of a text in UTF-8. -/
def bytes (s : String) : List UInt8 := s.toUTF8.data.toList

/-- Texts in the order of their bytes. -/
def Before (s t : String) : Prop := bytes s < bytes t

theorem bytes_eq (s : String) : bytes s = s.toList.flatMap String.utf8EncodeChar := by
  unfold bytes
  conv => lhs; rw [← String.ofList_toList (s := s)]
  rw [String.toUTF8_eq_toByteArray, String.toByteArray_ofList, List.utf8Encode,
    List.data_toByteArray]

theorem ofNat_cons_lt {x y : Nat} {xs ys : List UInt8} (hx : x < 256) (hy : y < 256) :
    UInt8.ofNat x :: xs < UInt8.ofNat y :: ys ↔ x < y ∨ x = y ∧ xs < ys := by
  rw [List.cons_lt_cons_iff, UInt8.lt_iff_toNat_lt, ← UInt8.toNat_inj, UInt8.toNat_ofNat',
    UInt8.toNat_ofNat', Nat.mod_eq_of_lt hx, Nat.mod_eq_of_lt hy]

/-- The greater of two characters has the greater bytes, whatever follows. -/
theorem utf8EncodeChar_append_lt {c d : Char} (h : c < d) (us vs : List UInt8) :
    String.utf8EncodeChar c ++ us < String.utf8EncodeChar d ++ vs := by
  have hcd : c.val.toNat < d.val.toNat := h
  have hd : d.val.toNat < 0x110000 := by
    rcases d.valid with h | ⟨-, h⟩ <;> omega
  unfold String.utf8EncodeChar
  generalize c.val.toNat = m at hcd
  generalize d.val.toNat = n at hcd hd
  -- Each byte is a digit to base 64 of the code point, as long as one quotient comes from another.
  have hsecond : ∀ k : Nat, k / 4096 = k / 64 / 64 := fun k => by omega
  have hthird : ∀ k : Nat, k / 262144 = k / 64 / 64 / 64 := fun k => by omega
  simp only [hsecond, hthird]
  split_ifs <;>
    simp (disch := omega) only [List.cons_append, List.nil_append, ofNat_cons_lt] <;> omega

theorem utf8EncodeChar_ne_nil (c : Char) : String.utf8EncodeChar c ≠ [] := by
  unfold String.utf8EncodeChar
  dsimp only
  split_ifs <;> exact List.cons_ne_nil _ _

theorem flatMap_utf8EncodeChar_lt {cs ds : List Char} (h : cs < ds) :
    cs.flatMap String.utf8EncodeChar < ds.flatMap String.utf8EncodeChar := by
  induction cs generalizing ds with
  | nil =>
    cases ds with
    | nil => exact absurd h (List.lt_irrefl [])
    | cons d ds =>
      obtain ⟨b, bs, hb⟩ := List.exists_cons_of_ne_nil (utf8EncodeChar_ne_nil d)
      rw [List.flatMap_nil, List.flatMap_cons, hb]
      exact List.nil_lt_cons b _
  | cons c cs ih =>
    cases ds with
    | nil => exact absurd h (List.not_lt_nil _)
    | cons d ds =>
      rw [List.flatMap_cons, List.flatMap_cons]
      rcases List.cons_lt_cons_iff.1 h with hcd | ⟨rfl, hrest⟩
      · exact utf8EncodeChar_append_lt hcd _ _
      · exact List.append_left_lt (ih hrest)

theorem compare_eq_lt_iff {s t : String} : compare s t = .lt ↔ Before s t := by
  have hcompare : ∀ {s t : String}, compare s t = .lt ↔ s < t := compareOfLessAndEq_eq_lt
  have hbytes : ∀ {s t : String}, s < t → Before s t := fun {s t} h => by
    unfold Before
    rw [bytes_eq, bytes_eq]
    exact flatMap_utf8EncodeChar_lt h
  refine ⟨fun h => hbytes (hcompare.1 h), fun h => ?_⟩
  cases hst : compare s t with
  | lt => rfl
  | eq =>
    rw [Std.compare_eq_iff_eq] at hst
    subst hst
    exact absurd h (List.lt_irrefl _)
  | gt =>
    rw [Std.OrientedCmp.gt_iff_lt] at hst
    exact absurd (hbytes (hcompare.1 hst)) (List.lt_asymm h)

end Text

/-! ## Terms -/

namespace Term

/-- The order of terms, rule by rule. -/
inductive Before : Term → Term → Prop
  | blank {a b : String} : Text.Before a b → Before (.blank a) (.blank b)
  | blank_iri {a i : String} : Before (.blank a) (.iri i)
  | blank_literal {a s : String} {d : Datatype} {tag : Option String} :
      Before (.blank a) (.literal s d tag)
  | iri {i j : String} : Text.Before i j → Before (.iri i) (.iri j)
  | iri_literal {i s : String} {d : Datatype} {tag : Option String} :
      Before (.iri i) (.literal s d tag)
  | lexical {s s' : String} {d d' : Datatype} {tag tag' : Option String} :
      Text.Before s s' → Before (.literal s d tag) (.literal s' d' tag')
  | datatype {s : String} {d d' : Datatype} {tag tag' : Option String} :
      Text.Before d.iri d'.iri → Before (.literal s d tag) (.literal s d' tag')
  | untagged {s tag : String} {d : Datatype} : Before (.literal s d none) (.literal s d (some tag))
  | tag {s tag tag' : String} {d : Datatype} : Text.Before tag tag' →
      Before (.literal s d (some tag)) (.literal s d (some tag'))

/-! ### Keys -/

/-- The place of the kind of a term. -/
def rank : Term → Nat
  | .blank _ => 0
  | .iri _ => 1
  | .literal .. => 2

/-- The label, the IRI or the lexical form of a term. -/
def label : Term → String
  | .blank a => a
  | .iri i => i
  | .literal s _ _ => s

/-- The datatype of a literal; resources count as having an empty one. -/
def datatypeIri : Term → String
  | .literal _ d _ => d.iri
  | _ => ""

def compareKeys : Term → Term → Ordering :=
  compareLex (compareOn rank)
    (compareLex (compareOn label) (compareLex (compareOn datatypeIri) (compareOn language)))

instance : Std.TransCmp compareKeys := inferInstanceAs (Std.TransCmp (compareLex _ _))

theorem eq_of_keys {t u : Term} (hrank : t.rank = u.rank) (hlabel : t.label = u.label)
    (hdatatype : t.datatypeIri = u.datatypeIri) (hlanguage : t.language = u.language) : t = u := by
  cases t <;> cases u <;> cases hrank <;> cases hlabel <;> cases hlanguage
  · rfl
  · rfl
  · next d _ d' => rw [show d = d' from congrArg Datatype.mk hdatatype]

instance : Std.LawfulEqCmp compareKeys where
  compare_self := Std.ReflCmp.compare_self
  eq_of_compare {t u} h := by
    unfold compareKeys at h
    simp only [compareLex_eq_eq, compareOn, Std.compare_eq_iff_eq] at h
    exact eq_of_keys h.1 h.2.1 h.2.2.1 h.2.2.2

theorem compareTag_eq (a b : Option String) : compareTag a b = compare a b := by
  cases a <;> cases b <;> rfl

theorem compare_eq_keys (t u : Term) : compare t u = compareKeys t u := by
  have hthen : ∀ o : Ordering, o.then (.then .eq .eq) = o := by decide
  cases t with
  | blank a =>
    cases u with
    | blank b => exact (hthen _).symm
    | _ => rfl
  | iri i =>
    cases u with
    | iri j => exact (hthen _).symm
    | _ => rfl
  | literal s d tag =>
    cases u with
    | literal s' d' tag' =>
      show (compare s s').then ((compare d.iri d'.iri).then (compareTag tag tag')) = _
      rw [compareTag_eq]
      rfl
    | _ => rfl

instance : Std.TransOrd Term where
  eq_swap {t u} := by
    rw [compare_eq_keys, compare_eq_keys]
    exact Std.OrientedCmp.eq_swap
  isLE_trans {t u v} htu huv := by
    rw [compare_eq_keys] at htu huv ⊢
    exact Std.TransCmp.isLE_trans htu huv

instance : Std.LawfulEqOrd Term where
  compare_self {t} := by
    rw [compare_eq_keys]
    exact Std.ReflCmp.compare_self
  eq_of_compare {t u} h := by
    rw [compare_eq_keys] at h
    exact Std.LawfulEqCmp.eq_of_compare h

/-! ### Rules -/

theorem compareTag_eq_lt_iff {a b : Option String} : compareTag a b = .lt ↔
    (a = none ∧ ∃ tag, b = some tag) ∨ ∃ s t, a = some s ∧ b = some t ∧ Text.Before s t := by
  cases a <;> cases b <;> simp [compareTag, Text.compare_eq_lt_iff]

theorem compare_literal_eq_lt_iff {s s' : String} {d d' : Datatype} {tag tag' : Option String} :
    compare (literal s d tag) (literal s' d' tag') = .lt ↔
      Text.Before s s' ∨ s = s' ∧ (Text.Before d.iri d'.iri ∨ d = d' ∧
        ((tag = none ∧ ∃ t, tag' = some t) ∨
          ∃ t t', tag = some t ∧ tag' = some t' ∧ Text.Before t t')) := by
  have hparts : compare (literal s d tag) (literal s' d' tag') =
    (compare s s').then ((compare d.iri d'.iri).then (compareTag tag tag')) := rfl
  have hdatatype : d.iri = d'.iri ↔ d = d' := ⟨congrArg Datatype.mk, congrArg Datatype.iri⟩
  rw [hparts, Ordering.then_eq_lt, Ordering.then_eq_lt, Std.compare_eq_iff_eq,
    Std.compare_eq_iff_eq, Text.compare_eq_lt_iff, Text.compare_eq_lt_iff, compareTag_eq_lt_iff,
    hdatatype]

theorem compare_eq_lt_iff {t u : Term} : compare t u = .lt ↔ Before t u := by
  constructor
  · intro h
    cases t with
    | blank a =>
      cases u with
      | blank b => exact .blank (Text.compare_eq_lt_iff.1 h)
      | iri i => exact .blank_iri
      | literal s d tag => exact .blank_literal
    | iri i =>
      cases u with
      | blank b => cases h
      | iri j => exact .iri (Text.compare_eq_lt_iff.1 h)
      | literal s d tag => exact .iri_literal
    | literal s d tag =>
      cases u with
      | blank b => cases h
      | iri j => cases h
      | literal s' d' tag' =>
        rcases compare_literal_eq_lt_iff.1 h with
          hs | ⟨rfl, hd | ⟨rfl, ⟨rfl, t, rfl⟩ | ⟨t, t', rfl, rfl, htag⟩⟩⟩
        · exact .lexical hs
        · exact .datatype hd
        · exact .untagged
        · exact .tag htag
  · intro h
    cases h with
    | blank h => exact Text.compare_eq_lt_iff.2 h
    | blank_iri => rfl
    | blank_literal => rfl
    | iri h => exact Text.compare_eq_lt_iff.2 h
    | iri_literal => rfl
    | lexical h => exact compare_literal_eq_lt_iff.2 (.inl h)
    | datatype h => exact compare_literal_eq_lt_iff.2 (.inr ⟨rfl, .inl h⟩)
    | untagged =>
      exact compare_literal_eq_lt_iff.2 (.inr ⟨rfl, .inr ⟨rfl, .inl ⟨rfl, _, rfl⟩⟩⟩)
    | tag h =>
      exact compare_literal_eq_lt_iff.2 (.inr ⟨rfl, .inr ⟨rfl, .inr ⟨_, _, rfl, rfl, h⟩⟩⟩)

theorem isStrictTotalOrder_before : IsStrictTotalOrder Term Before where
  trichotomous t u htu hut := by
    rw [← compare_eq_lt_iff] at htu hut
    cases h : compare t u with
    | lt => exact absurd h htu
    | eq => exact Std.compare_eq_iff_eq.1 h
    | gt => exact absurd (Std.OrientedCmp.lt_of_gt h) hut
  irrefl t h := by
    have hself : compare t t = .eq := Std.ReflCmp.compare_self
    rw [← compare_eq_lt_iff, hself] at h
    cases h
  trans t u v htu huv := by
    rw [← compare_eq_lt_iff] at htu huv ⊢
    exact Std.TransCmp.lt_trans htu huv

end Term

/-! ## Triples -/

namespace Triple

/-- Triples in the order of their subjects, then predicates, then objects. -/
def Before (t u : Triple) : Prop :=
  t.subject.Before u.subject ∨ t.subject = u.subject ∧
    (t.predicate.Before u.predicate ∨ t.predicate = u.predicate ∧ t.object.Before u.object)

instance : Std.TransOrd Triple :=
  inferInstanceAs (Std.TransCmp (compareLex (compareOn subject)
    (compareLex (compareOn predicate) (compareOn object))))

instance : Std.LawfulEqOrd Triple where
  compare_self := Std.ReflCmp.compare_self
  eq_of_compare {t u} h := by
    have hparts : (compare t.subject u.subject).then
      ((compare t.predicate u.predicate).then (compare t.object u.object)) = .eq := h
    rw [Ordering.then_eq_eq, Ordering.then_eq_eq, Std.compare_eq_iff_eq, Std.compare_eq_iff_eq,
      Std.compare_eq_iff_eq] at hparts
    obtain ⟨hs, hp, ho⟩ := hparts
    cases t
    cases u
    rw [mk.injEq]
    exact ⟨hs, hp, ho⟩

theorem compare_self_ne_lt (t : Triple) : compare t t ≠ .lt := by
  rw [Std.compare_self]
  exact Ordering.noConfusion

theorem isLE_trans {t u v : Triple} (htu : (compare t u).isLE) (huv : (compare u v).isLE) :
    (compare t v).isLE :=
  Std.TransCmp.isLE_trans htu huv

theorem isLE_total (t u : Triple) : ((compare t u).isLE || (compare u t).isLE) = true := by
  have hswap : compare u t = (compare t u).swap := Std.OrientedCmp.eq_swap
  rw [hswap]
  cases compare t u <;> rfl

theorem compare_eq_lt_iff {t u : Triple} : compare t u = .lt ↔ Before t u := by
  have hparts : compare t u = (compare t.subject u.subject).then
    ((compare t.predicate u.predicate).then (compare t.object u.object)) := rfl
  rw [hparts, Ordering.then_eq_lt, Ordering.then_eq_lt, Std.compare_eq_iff_eq,
    Std.compare_eq_iff_eq, Term.compare_eq_lt_iff, Term.compare_eq_lt_iff, Term.compare_eq_lt_iff]
  rfl

end Triple

end GraphMarshal
