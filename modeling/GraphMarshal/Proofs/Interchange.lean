import GraphMarshal.Term.Json
import Mathlib.Data.List.Perm.Basic
import Mathlib.Logic.Relation

/-!
# The JSON form of triples

A writer of JSON may order the members of an object freely, add members of its own, and leave out
the language of a literal that has none. Each such liberty is a step of a relation on JSON values,
and the equivalence closure of the steps is what a reader sees: related values are read alike, and a
value is read as a triple exactly if it is related to what is written for that triple.
-/

namespace GraphMarshal

open Relation

namespace Json

variable {α : Type} {l l' : List (String × Json)} {key other : String} {v v' j j' : Json}

/-- One value has the members of an object in it, at any depth, in another order than the other. -/
inductive Reorders : Json → Json → Prop
  | members {l l' : List (String × Json)} : l.Perm l' → Reorders (.object l) (.object l')
  | member {before after : List (String × Json)} {key : String} {v v' : Json} : Reorders v v' →
      Reorders (.object (before ++ (key, v) :: after)) (.object (before ++ (key, v') :: after))
  | item {before after : List Json} {v v' : Json} : Reorders v v' →
      Reorders (.array (before ++ v :: after)) (.array (before ++ v' :: after))

/-! ## Members by key -/

theorem uniqueMember?_perm (h : l.Perm l') : uniqueMember? l key = uniqueMember? l' key := by
  have hperm := h.filter (fun e => e.1 = key)
  unfold uniqueMember?
  generalize l.filter (fun e => e.1 = key) = m at hperm ⊢
  generalize l'.filter (fun e => e.1 = key) = m' at hperm ⊢
  match m, m' with
  | [], m' => rw [hperm.symm.eq_nil]
  | [e], m' => rw [List.singleton_perm.1 hperm]
  | _ :: _ :: _, [] => exact absurd hperm.length_eq (by simp)
  | _ :: _ :: _, [_] => exact absurd hperm.length_eq (by simp)
  | _ :: _ :: _, _ :: _ :: _ => rfl

theorem uniqueMember?_cons_of_ne (h : other ≠ key) :
    uniqueMember? ((other, v) :: l) key = uniqueMember? l key := by
  simp [uniqueMember?, h]

theorem filter_key_eq_nil : l.filter (fun e => e.1 = key) = [] ↔ ∀ e ∈ l, e.1 ≠ key := by
  simp [List.filter_eq_nil_iff]

theorem uniqueMember?_eq_some_none : uniqueMember? l key = some none ↔ ∀ e ∈ l, e.1 ≠ key := by
  rw [← filter_key_eq_nil, uniqueMember?]
  generalize l.filter (fun e => e.1 = key) = m
  match m with
  | [] => simp
  | [_] => simp
  | _ :: _ :: _ => simp

theorem uniqueMember?_cons_self :
    uniqueMember? ((key, v) :: l) key =
      if ∀ e ∈ l, e.1 ≠ key then some (some v) else none := by
  simp only [← filter_key_eq_nil, uniqueMember?, List.filter_cons, decide_true, if_true]
  generalize l.filter (fun e => e.1 = key) = m
  match m with
  | [] => rfl
  | _ :: _ => rfl

theorem mem_of_uniqueMember? (h : uniqueMember? l key = some (some v)) : (key, v) ∈ l := by
  unfold uniqueMember? at h
  split at h
  next => cases h
  next e hone =>
    have he : e ∈ l.filter (fun e => e.1 = key) := by simp [hone]
    simp only [Option.some.injEq] at h
    simp only [List.mem_filter, decide_eq_true_eq] at he
    obtain ⟨he, rfl⟩ := he
    exact h ▸ he
  next => cases h

/-- A member that is not repeated can be put first. -/
theorem exists_perm_of_uniqueMember? (h : uniqueMember? l key = some (some v)) :
    ∃ rest, l.Perm ((key, v) :: rest) ∧ ∀ e ∈ rest, e.1 ≠ key := by
  obtain ⟨before, after, rfl⟩ := List.append_of_mem (mem_of_uniqueMember? h)
  refine ⟨before ++ after, List.perm_middle, ?_⟩
  rw [uniqueMember?_perm List.perm_middle, uniqueMember?_cons_self] at h
  by_contra hne
  rw [if_neg hne] at h
  cases h

/-- What a reader makes of the member of a key, or of its absence, unless the key is repeated. -/
def field? (l : List (String × Json)) (key : String) (read : Option Json → Option α) : Option α :=
  (uniqueMember? l key).bind read

theorem field?_perm {read : Option Json → Option α} (h : l.Perm l') :
    field? l key read = field? l' key read := by
  rw [field?, uniqueMember?_perm h, field?]

theorem field?_cons_of_ne {read : Option Json → Option α} (h : other ≠ key) :
    field? ((other, v) :: l) key read = field? l key read := by
  rw [field?, uniqueMember?_cons_of_ne h, field?]

theorem field?_congr {before after : List (String × Json)} (key : String)
    (read : Option Json → Option α) (h : read (some v) = read (some v')) :
    field? (before ++ (other, v) :: after) key read =
      field? (before ++ (other, v') :: after) key read := by
  rw [field?_perm List.perm_middle, field?_perm (l := before ++ (other, v') :: after)
    List.perm_middle]
  by_cases hother : other = key
  · subst hother
    simp only [field?, uniqueMember?_cons_self]
    split
    · exact h
    · rfl
  · rw [field?_cons_of_ne hother, field?_cons_of_ne hother]

theorem field?_eq_none {read : Option Json → Option α} (hmem : (key, v) ∈ l)
    (h : read (some v) = none) : field? l key read = none := by
  obtain ⟨before, after, rfl⟩ := List.append_of_mem hmem
  rw [field?_perm List.perm_middle, field?, uniqueMember?_cons_self]
  split
  · exact h
  · rfl

theorem exists_perm_of_members (fields : List (String × Json))
    (hkeys : (fields.map Prod.fst).Nodup)
    (h : ∀ e ∈ fields, uniqueMember? l e.1 = some (some e.2)) :
    ∃ rest, l.Perm (rest ++ fields) ∧ ∀ e ∈ rest, e.1 ∉ fields.map Prod.fst := by
  induction fields generalizing l with
  | nil => exact ⟨l, by simp, by simp⟩
  | cons field fields ih =>
    obtain ⟨l₁, hl, hother⟩ := exists_perm_of_uniqueMember? (h field (by simp))
    obtain ⟨hfirst, hkeys⟩ := List.nodup_cons.1 hkeys
    have hfields : ∀ e ∈ fields, uniqueMember? l₁ e.1 = some (some e.2) := fun e he => by
      have hne : field.1 ≠ e.1 := fun heq => hfirst (heq ▸ List.mem_map_of_mem he)
      rw [← uniqueMember?_cons_of_ne hne, ← uniqueMember?_perm hl]
      exact h e (List.mem_cons_of_mem _ he)
    obtain ⟨rest, hrest, hunknown⟩ := ih hkeys hfields
    refine ⟨rest, hl.trans ((hrest.cons _).trans List.perm_middle.symm), fun e he => ?_⟩
    simp only [List.map_cons, List.mem_cons, not_or]
    exact ⟨hother e (hrest.mem_iff.2 (List.mem_append_left _ he)), hunknown e he⟩

theorem eqvGen_append {α β : Type} {R : β → β → Prop} (f : List α → β) {extra l : List α}
    (h : ∀ e ∈ extra, ∀ l, R (f l) (f (e :: l))) : EqvGen R (f (extra ++ l)) (f l) := by
  induction extra with
  | nil => exact .refl _
  | cons e extra ih =>
    have hstep := EqvGen.rel _ _ (h e (by simp) (extra ++ l))
    exact (hstep.symm _ _).trans _ _ _ (ih fun e he => h e (List.mem_cons_of_mem _ he))

theorem Reorders.single (h : Reorders v v') :
    Reorders (.object [(key, v)]) (.object [(key, v')]) :=
  @Reorders.member [] [] key v v' h

theorem Reorders.string? (h : Reorders j j') : j.string? = j'.string? := by
  cases h <;> rfl

end Json

open Json

namespace Term

variable {l l' : List (String × Json)} {key : String} {v v' j j' : Json} {t : Term}

/-- The keys that name the kind of a term. -/
def kinds : List String := ["BlankNode", "Iri", "Literal"]

/-- The keys of a literal. -/
def literalKeys : List String := ["lexical", "datatype", "language"]

/-- The liberties that the JSON form of a term gives. -/
inductive Redrafts : Json → Json → Prop
  | order {j j' : Json} : Reorders j j' → Redrafts j j'
  | unknown {key : String} {v : Json} {l : List (String × Json)} : key ∉ literalKeys →
      Redrafts (.object [("Literal", .object l)]) (.object [("Literal", .object ((key, v) :: l))])
  | language {l : List (String × Json)} : (∀ e ∈ l, e.1 ≠ "language") →
      Redrafts (.object [("Literal", .object l)])
        (.object [("Literal", .object (("language", .null) :: l))])

theorem literalOfJson?_object : literalOfJson? (.object l) =
    (field? l "lexical" (·.bind string?)).bind fun s =>
      (field? l "datatype" (·.bind string?)).bind fun d =>
        (field? l "language" languageOfJson?).bind fun tag => some (.literal s ⟨d⟩ tag) := by
  simp only [literalOfJson?, field?, Option.bind_assoc, Option.bind_eq_bind]

theorem ofJson?_literal : ofJson? (.object [("Literal", v)]) = literalOfJson? v := by
  simp [ofJson?]

theorem ofJson?_object_of_length (h : l.length ≠ 1) : ofJson? (.object l) = none := by
  match l with
  | [] => rfl
  | [_] => exact absurd rfl h
  | _ :: _ :: _ => rfl

theorem ofJson?_toJson (t : Term) : ofJson? t.toJson = some t := by
  cases t with
  | blank label => rfl
  | iri i => rfl
  | literal s d tag =>
    cases tag with
    | none => simp [toJson, ofJson?, literalOfJson?, uniqueMember?, languageOfJson?, string?,
        Datatype.toJson]
    | some tag => simp [toJson, ofJson?, literalOfJson?, uniqueMember?, languageOfJson?, string?,
        Datatype.toJson]

theorem ofJson?_of_kind (h : l.length ≠ 1 ∨ ∃ e ∈ l, e.1 ∉ kinds) :
    ofJson? (.object l) = none := by
  obtain hlength | ⟨e, he, hkind⟩ := h
  · exact ofJson?_object_of_length hlength
  · by_cases hone : l.length = 1
    · obtain ⟨e', rfl⟩ := List.length_eq_one_iff.1 hone
      obtain rfl := List.mem_singleton.1 he
      simp only [kinds, List.mem_cons, List.not_mem_nil, or_false, not_or] at hkind
      simp [ofJson?, hkind]
    · exact ofJson?_object_of_length hone

/-! ## What a reader sees -/

theorem literalOfJson?_reorders (h : Reorders j j') : literalOfJson? j = literalOfJson? j' := by
  cases h with
  | members h => simp only [literalOfJson?, uniqueMember?_perm h]
  | @member before after key v v' h =>
    have hlanguage : languageOfJson? (some v) = languageOfJson? (some v') := by
      cases h <;> rfl
    rw [literalOfJson?_object, literalOfJson?_object,
      field?_congr "lexical" (·.bind string?) h.string?,
      field?_congr "datatype" (·.bind string?) h.string?,
      field?_congr "language" languageOfJson? hlanguage]
  | item h => rfl

theorem ofJson?_reorders (h : Reorders j j') : ofJson? j = ofJson? j' := by
  cases h with
  | @members l l' h =>
    by_cases hone : l.length = 1
    · obtain ⟨e, rfl⟩ := List.length_eq_one_iff.1 hone
      rw [List.singleton_perm.1 h]
    · rw [ofJson?_object_of_length hone, ofJson?_object_of_length (h.length_eq ▸ hone)]
  | @member before after key v v' h =>
    match before, after with
    | [], [] => simp only [List.nil_append, ofJson?, h.string?, literalOfJson?_reorders h]
    | _ :: _, _ => rw [ofJson?_object_of_length (by simp), ofJson?_object_of_length (by simp)]
    | [], _ :: _ => rw [ofJson?_object_of_length (by simp), ofJson?_object_of_length (by simp)]
  | item h => rfl

theorem ofJson?_redrafts (h : Redrafts j j') : ofJson? j = ofJson? j' := by
  cases h with
  | order h => exact ofJson?_reorders h
  | unknown hkey =>
    simp only [literalKeys, List.mem_cons, List.not_mem_nil, or_false, not_or] at hkey
    obtain ⟨hlexical, hdatatype, hlanguage⟩ := hkey
    simp only [ofJson?_literal, literalOfJson?_object, field?_cons_of_ne hlexical,
      field?_cons_of_ne hdatatype, field?_cons_of_ne hlanguage]
  | @language l h =>
    have hlanguage : field? (("language", .null) :: l) "language" languageOfJson? =
        field? l "language" languageOfJson? := by
      rw [field?, uniqueMember?_cons_self, if_pos h, field?, uniqueMember?_eq_some_none.2 h]
      rfl
    have hlexical : ("language" : String) ≠ "lexical" := by decide
    have hdatatype : ("language" : String) ≠ "datatype" := by decide
    simp only [ofJson?_literal, literalOfJson?_object, hlanguage, field?_cons_of_ne hlexical,
      field?_cons_of_ne hdatatype]

/-! ## What is read -/

theorem eqvGen_of_members {s : String} {d : Datatype} {tag : Option String} {language : Json}
    (hlexical : uniqueMember? l "lexical" = some (some (.string s)))
    (hdatatype : uniqueMember? l "datatype" = some (some d.toJson))
    (hlanguage : uniqueMember? l "language" = some (some language))
    (htag : languageOfJson? (some language) = some tag) :
    EqvGen Redrafts (.object [("Literal", .object l)]) (toJson (.literal s d tag)) := by
  have hwritten : toJson (.literal s d tag) = .object [("Literal", .object
      [("lexical", .string s), ("datatype", d.toJson), ("language", language)])] := by
    cases language <;> cases htag <;> rfl
  obtain ⟨rest, hperm, hunknown⟩ := exists_perm_of_members (l := l)
    [("lexical", .string s), ("datatype", d.toJson), ("language", language)]
    (by simp) (by simp [hlexical, hdatatype, hlanguage])
  have horder : Redrafts (.object [("Literal", .object l)]) (.object [("Literal", .object _)]) :=
    .order (Reorders.single (.members hperm))
  rw [hwritten]
  refine (EqvGen.rel _ _ horder).trans _ _ _ ?_
  exact eqvGen_append (fun l => Json.object [("Literal", .object l)])
    fun e he _ => .unknown (hunknown e he)

theorem eqvGen_of_literalOfJson? (h : literalOfJson? v = some t) :
    EqvGen Redrafts (.object [("Literal", v)]) t.toJson := by
  cases v with
  | object l =>
    simp only [literalOfJson?_object, field?, Option.bind_eq_some_iff] at h
    obtain ⟨s, ⟨s?, hs?, js, rfl, hs⟩, d, ⟨d?, hd?, jd, rfl, hd⟩, tag, ⟨tag?, htag?, htag⟩, ht⟩ := h
    cases ht
    cases js <;> cases hs
    cases jd <;> cases hd
    cases tag? with
    | some language => exact eqvGen_of_members hs? hd? htag? htag
    | none =>
      -- A language that was left out is put in first.
      have habsent := uniqueMember?_eq_some_none.1 htag?
      have hlanguage : uniqueMember? (("language", .null) :: l) "language" = some (some .null) := by
        rw [uniqueMember?_cons_self, if_pos habsent]
      have hne : ("language" : String) ≠ "lexical" ∧ ("language" : String) ≠ "datatype" := by
        decide
      cases htag
      refine (EqvGen.rel _ _ (.language habsent)).trans _ _ _
        (eqvGen_of_members ?_ ?_ hlanguage rfl)
      · rw [uniqueMember?_cons_of_ne hne.1, hs?]
      · rw [uniqueMember?_cons_of_ne hne.2, hd?]
        rfl
  | _ => cases h

/-- A term is read only from the drafts of what is written for it. -/
theorem eqvGen_of_ofJson? (h : ofJson? j = some t) : EqvGen Redrafts j t.toJson := by
  unfold ofJson? at h
  split at h
  next key v =>
    split_ifs at h with hblank hiri hliteral
    · obtain ⟨s, hs, rfl⟩ := Option.map_eq_some_iff.1 h
      cases v <;> cases hs
      exact hblank ▸ .refl _
    · obtain ⟨s, hs, rfl⟩ := Option.map_eq_some_iff.1 h
      cases v <;> cases hs
      exact hiri ▸ .refl _
    · exact hliteral ▸ eqvGen_of_literalOfJson? h
  next => cases h

end Term

namespace Triple

variable {l l' : List (String × Json)} {items : List Json} {key : String} {v v' j j' : Json}
  {t : Triple}

/-- The keys of a triple. -/
def keys : List String := ["s", "p", "o"]

/-- The liberties that the JSON form of a triple gives. -/
inductive Redrafts : Json → Json → Prop
  | order {j j' : Json} : Reorders j j' → Redrafts j j'
  | unknown {key : String} {v : Json} {l : List (String × Json)} : key ∉ keys →
      Redrafts (.object l) (.object ((key, v) :: l))
  | sequence {s p o : Json} : Redrafts (.array [s, p, o]) (.object [("s", s), ("p", p), ("o", o)])
  | member {before after : List (String × Json)} {key : String} {v v' : Json} :
      Term.Redrafts v v' →
      Redrafts (.object (before ++ (key, v) :: after)) (.object (before ++ (key, v') :: after))
  | item {before after : List Json} {v v' : Json} : Term.Redrafts v v' →
      Redrafts (.array (before ++ v :: after)) (.array (before ++ v' :: after))

/-- A value stands where a part of a triple is expected. -/
inductive PartOf : Json → Json → Prop
  | member {key : String} {v : Json} {l : List (String × Json)} : key ∈ keys → (key, v) ∈ l →
      PartOf v (.object l)
  | item {v : Json} {items : List Json} : v ∈ items → PartOf v (.array items)

theorem ofJson?_object : ofJson? (.object l) =
    (field? l "s" (·.bind Term.ofJson?)).bind fun s =>
      (field? l "p" (·.bind Term.ofJson?)).bind fun p =>
        (field? l "o" (·.bind Term.ofJson?)).bind fun o => some ⟨s, p, o⟩ := by
  simp only [ofJson?, field?, Option.bind_assoc, Option.bind_eq_bind]

/-- The triple of the terms that are read for the items of an array. -/
def ofItems? : List (Option Term) → Option Triple
  | [some s, some p, some o] => some ⟨s, p, o⟩
  | _ => none

theorem ofItems?_eq_none {parts : List (Option Term)} (h : none ∈ parts) :
    ofItems? parts = none := by
  unfold ofItems?
  split
  · simp at h
  · rfl

theorem ofJson?_array : ofJson? (.array items) = ofItems? (items.map Term.ofJson?) := by
  match items with
  | [] => rfl
  | [_] => simp [ofJson?, ofItems?]
  | [_, _] => simp [ofJson?, ofItems?]
  | [s, p, o] =>
    simp only [ofJson?, List.map_cons, List.map_nil]
    cases Term.ofJson? s with
    | none => rfl
    | some s =>
      cases Term.ofJson? p with
      | none => rfl
      | some p => cases Term.ofJson? o <;> rfl
  | _ :: _ :: _ :: _ :: _ => simp [ofJson?, ofItems?]

theorem ofJson?_toJson (t : Triple) : ofJson? t.toJson = some t := by
  simp [toJson, ofJson?_object, field?, uniqueMember?, Term.ofJson?_toJson]

/-! ## What a reader sees -/

theorem ofJson?_object_congr {before after : List (String × Json)}
    (h : Term.ofJson? v = Term.ofJson? v') :
    ofJson? (.object (before ++ (key, v) :: after)) =
      ofJson? (.object (before ++ (key, v') :: after)) := by
  simp only [ofJson?_object, field?_congr _ (·.bind Term.ofJson?) h]

theorem ofJson?_array_congr {before after : List Json} (h : Term.ofJson? v = Term.ofJson? v') :
    ofJson? (.array (before ++ v :: after)) = ofJson? (.array (before ++ v' :: after)) := by
  simp only [ofJson?_array, List.map_append, List.map_cons, h]

theorem ofJson?_redrafts (h : Redrafts j j') : ofJson? j = ofJson? j' := by
  cases h with
  | order h =>
    cases h with
    | members h => simp only [ofJson?_object, field?_perm h]
    | member h => exact ofJson?_object_congr (Term.ofJson?_reorders h)
    | item h => exact ofJson?_array_congr (Term.ofJson?_reorders h)
  | unknown hkey =>
    simp only [keys, List.mem_cons, List.not_mem_nil, or_false, not_or] at hkey
    obtain ⟨hs, hp, ho⟩ := hkey
    simp only [ofJson?_object, field?_cons_of_ne hs, field?_cons_of_ne hp, field?_cons_of_ne ho]
  | sequence => simp [ofJson?, uniqueMember?]
  | member h => exact ofJson?_object_congr (Term.ofJson?_redrafts h)
  | item h => exact ofJson?_array_congr (Term.ofJson?_redrafts h)

theorem ofJson?_partOf (hv : Term.ofJson? v = none) (h : PartOf v j) : ofJson? j = none := by
  cases h with
  | @member key _ l hkey hmem =>
    have hnone : field? l key (·.bind Term.ofJson?) = none := field?_eq_none hmem hv
    simp only [keys, List.mem_cons, List.not_mem_nil, or_false] at hkey
    rw [ofJson?_object]
    obtain rfl | rfl | rfl := hkey
    · rw [hnone, Option.bind_none]
    · simp [hnone]
    · simp [hnone]
  | item hmem =>
    rw [ofJson?_array]
    exact ofItems?_eq_none (hv ▸ List.mem_map_of_mem hmem)

/-! ## What is read -/

theorem eqvGen_member (before after : List (String × Json)) (h : EqvGen Term.Redrafts v v') :
    EqvGen Redrafts (.object (before ++ (key, v) :: after))
      (.object (before ++ (key, v') :: after)) := by
  induction h with
  | rel v v' h => exact .rel _ _ (.member h)
  | refl v => exact .refl _
  | symm v v' _ ih => exact ih.symm _ _
  | trans v v' v'' _ _ ih ih' => exact ih.trans _ _ _ ih'

theorem eqvGen_of_members (hs : field? l "s" (·.bind Term.ofJson?) = some t.subject)
    (hp : field? l "p" (·.bind Term.ofJson?) = some t.predicate)
    (ho : field? l "o" (·.bind Term.ofJson?) = some t.object) :
    EqvGen Redrafts (.object l) t.toJson := by
  simp only [field?, Option.bind_eq_some_iff] at hs hp ho
  obtain ⟨_, hs, s, rfl, hsubject⟩ := hs
  obtain ⟨_, hp, p, rfl, hpredicate⟩ := hp
  obtain ⟨_, ho, o, rfl, hobject⟩ := ho
  -- The three parts are put last, what stands before them is dropped, and then each is redrafted.
  obtain ⟨rest, hperm, hunknown⟩ := exists_perm_of_members (l := l)
    [("s", s), ("p", p), ("o", o)] (by simp) (by simp [hs, hp, ho])
  have horder : EqvGen Redrafts (.object l) _ := .rel _ _ (.order (.members hperm))
  have hknown : EqvGen Redrafts _ (.object [("s", s), ("p", p), ("o", o)]) :=
    eqvGen_append Json.object fun e he _ => .unknown (hunknown e he)
  have hparts : EqvGen Redrafts (.object [("s", s), ("p", p), ("o", o)]) t.toJson :=
    .trans _ _ _ (eqvGen_member [] [_, _] (Term.eqvGen_of_ofJson? hsubject)) <|
      .trans _ _ _ (eqvGen_member [_] [_] (Term.eqvGen_of_ofJson? hpredicate)) <|
        eqvGen_member [_, _] [] (Term.eqvGen_of_ofJson? hobject)
  exact horder.trans _ _ _ (hknown.trans _ _ _ hparts)

theorem eqvGen_of_ofJson? (h : ofJson? j = some t) : EqvGen Redrafts j t.toJson := by
  have hobject : ∀ {l}, ofJson? (.object l) = some t → EqvGen Redrafts (.object l) t.toJson := by
    intro l h
    simp only [ofJson?_object, Option.bind_eq_some_iff] at h
    obtain ⟨s, hs, p, hp, o, ho, ht⟩ := h
    cases ht
    exact eqvGen_of_members hs hp ho
  cases j with
  | object l => exact hobject h
  | array items =>
    match items with
    | [s, p, o] =>
      have hdraft : Redrafts (.array [s, p, o]) _ := .sequence
      exact (EqvGen.rel _ _ hdraft).trans _ _ _ (hobject (ofJson?_redrafts hdraft ▸ h))
    | [] | [_] | [_, _] | _ :: _ :: _ :: _ :: _ => simp [ofJson?] at h
  | _ => cases h

/-- **The JSON form of triples.** What is written for a triple is read as that triple, so different
triples are written differently. Values that differ in liberties of the form only are read alike,
and a value is read as a triple exactly if it differs in nothing else from what is written for that
triple. In the place of a term, an object is refused, and the triple with it, that has no key,
several keys or one that names no kind of term. Whatever is read is read again from what is written
for it. -/
theorem json_form :
    (∀ t : Triple, ofJson? t.toJson = some t) ∧ Function.Injective toJson ∧
    (∀ j j', EqvGen Redrafts j j' → ofJson? j = ofJson? j') ∧
    (∀ j t, ofJson? j = some t ↔ EqvGen Redrafts j t.toJson) ∧
    (∀ l, (l.length ≠ 1 ∨ ∃ e ∈ l, e.1 ∉ Term.kinds) → Term.ofJson? (.object l) = none ∧
      ∀ j, PartOf (.object l) j → ofJson? j = none) ∧
    ∀ j t, ofJson? j = some t → ofJson? t.toJson = some t := by
  have halike : ∀ j j', EqvGen Redrafts j j' → ofJson? j = ofJson? j' := fun j j' h =>
    congrArg (Quot.lift ofJson? fun _ _ => ofJson?_redrafts) (Quot.eqvGen_sound h)
  refine ⟨ofJson?_toJson, fun t t' h => ?_, halike, fun j t => ⟨eqvGen_of_ofJson?, fun h => ?_⟩,
    fun l hl => ?_, fun j t _ => ofJson?_toJson t⟩
  · exact Option.some.inj (ofJson?_toJson t ▸ h ▸ ofJson?_toJson t')
  · rw [halike _ _ h, ofJson?_toJson]
  · have hnone : Term.ofJson? (.object l) = none := Term.ofJson?_of_kind hl
    exact ⟨hnone, fun j => ofJson?_partOf hnone⟩

/-- A literal without a language, after a member that says nothing to a reader. -/
example : ofJson? (.object [("o", .object [("Literal", .object [("note", .bool true),
      ("datatype", .string "d"), ("lexical", .string "x")])]),
    ("p", .object [("Iri", .string "p")]), ("s", .object [("BlankNode", .string "b")])]) =
    some ⟨.blank "b", .iri "p", .literal "x" ⟨"d"⟩ none⟩ := by decide

end Triple

end GraphMarshal
