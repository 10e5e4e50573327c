import GraphMarshal.Proofs.Languages
import GraphMarshal.Proofs.Rendering
import GraphMarshal.Proofs.RoundTrip

/-!
# Languages of what is written

Only texts are written with the language of their member, and only where typing is strong; whether a
literal is in the language of a member is asked of all literals, where languages count. So a literal
that a record was written with is found again unless languages count and it lacks the language that
the member declares. Where languages do not count, a single value may lose against the untagged
literals of other members, and so the member has to have its predicate for itself.
-/

namespace GraphMarshal

open Engine

/-! ## Tags -/

/-- The language of a value that is written in a language: only texts keep it. -/
def Value.tagged : Value → Option String → Option String
  | .string _, language => language
  | _, _ => none

/-- The language that a member's value is written with, if it is written as a literal. -/
def MemberBinding.tagFor (c : Config) (m : MemberBinding) (v : Value) : Option String :=
  if c.strongTyping then v.tagged m.language else none

theorem Literal.language_encode {v : Value} {language : Option String} {t : Term}
    (h : Literal.encode v language = .ok t) : t.language = v.tagged language := by
  cases v with
  | string s =>
    cases h
    cases language <;> rfl
  | resource | ref | list => cases h
  | _ =>
    cases h
    rfl

theorem Literal.isLiteral_encode {v : Value} {language : Option String} {t : Term}
    (h : Literal.encode v language = .ok t) : t.isLiteral := by
  cases v with
  | string s =>
    cases h
    cases language <;> rfl
  | resource | ref | list => cases h
  | _ =>
    cases h
    rfl

section

variable {cx : Setting} {m : MemberBinding} {v : Value} {t u : Term}

/-- The term of anything but a reference does not depend on the world. A literal has the language
that is written for the value, and a blank node is the value. -/
theorem termOf_eq_ofExcept (hv : ∀ x, v ≠ .ref x) :
    ∃ e, termOf cx m v = Run.ofExcept e ∧ ∀ t, e = .ok t →
      (t.isLiteral → t.language = m.tagFor cx.config v) ∧
      (t.isBlank → ∃ k : Resource, v = .resource k ∧ t = k.toTerm) := by
  unfold termOf
  split
  · exact absurd rfl (hv _)
  · next k =>
    refine ⟨.ok k.toTerm, rfl, fun t ht => ?_⟩
    cases ht
    refine ⟨fun hlit => ?_, fun _ => ⟨k, rfl, rfl⟩⟩
    cases k <;> cases hlit
  · exact ⟨.error _, rfl, nofun⟩
  · split
    · refine ⟨.ok (.iri _), rfl, fun t ht => ?_⟩
      cases ht
      exact ⟨nofun, nofun⟩
    · unfold MemberBinding.tagFor
      split
      · refine ⟨_, rfl, fun t ht => ⟨fun _ => Literal.language_encode ht, fun hblank => ?_⟩⟩
        have hlit := Literal.isLiteral_encode ht
        cases t with
        | literal s d tag => cases hblank
        | _ => cases hlit
      · refine ⟨.ok (.string _), rfl, fun t ht => ?_⟩
        cases ht
        exact ⟨fun _ => rfl, nofun⟩

/-- A value that is once written as a literal always is: as the same one, in the language that is
written for the value. -/
theorem MemberBinding.Spells.literal (h : m.Spells cx v t) (ht : t.isLiteral) :
    t.language = m.tagFor cx.config v ∧ ∀ w, termOf cx m v w = .ok t w := by
  obtain ⟨w, w', hrun⟩ := h
  have hv : ∀ x, v ≠ .ref x := fun x hx => by
    subst hx
    have hrun : (referenceId (assignId cx) x >>= fun k => pure k.toTerm) w = .ok t w' := hrun
    obtain ⟨k, w₁, -, hk⟩ := Run.bind_eq_ok.1 hrun
    cases hk
    cases k <;> cases ht
  obtain ⟨e, heq, hlang⟩ : ∃ e, termOf cx m v = Run.ofExcept e ∧ _ := termOf_eq_ofExcept hv
  rw [heq] at hrun
  cases e with
  | ok t' =>
    cases hrun
    exact ⟨(hlang _ rfl).1 ht, fun w => by rw [heq]; rfl⟩
  | error e => cases hrun

theorem MemberBinding.Spells.unique (h : m.Spells cx v t) (ht : t.isLiteral)
    (h' : m.Spells cx v u) : u = t := by
  obtain ⟨w, w', hrun⟩ := h'
  rw [(h.literal ht).2 w] at hrun
  cases hrun
  rfl

end

/-! ## Choosing -/

section

variable {c : Config} {m : MemberBinding} {objects : List Term} {t : Term}

/-- A literal that no other stands beside is chosen whatever language is preferred. -/
theorem mem_preferLanguage {lang : String} {ts : List Term} (ht : t ∈ ts)
    (hsole : ∀ u ∈ ts, u = t) : t ∈ preferLanguage lang ts := by
  have chosen : ∀ {p : Term → Bool}, (!(ts.filter p).isEmpty) = true → t ∈ ts.filter p := by
    intro p hp
    obtain ⟨u, hu⟩ := List.exists_mem_of_ne_nil (ts.filter p) (by simpa using hp)
    rwa [hsole u (List.mem_filter.1 hu).1] at hu
  unfold preferLanguage
  dsimp only
  split
  · next huntagged => exact chosen huntagged
  · split
    · next htagged => exact chosen htagged
    · exact ht

namespace MemberBinding

theorem mem_candidates (ht : t ∈ objects) (hkind : m.kind.admits t)
    (hlang : c.languageAware → t.language = m.language)
    (hsole : ∀ u ∈ objects, u.isLiteral → u = t) : t ∈ m.candidates c objects := by
  have hmem : t ∈ (distinct objects).filter m.kind.admits :=
    List.mem_filter.2 ⟨mem_distinct.2 ht, hkind⟩
  unfold candidates
  dsimp only
  split
  · exact hmem
  · next hany =>
    split
    · next haware => exact List.mem_filter.2 ⟨hmem, by simpa using hlang haware⟩
    · refine mem_preferLanguage hmem fun u hu => ?_
      simp only [List.any_eq_true, not_exists, not_and] at hany
      have hlit : u.isLiteral := by simpa [Term.isResource] using hany u hu
      exact hsole u (mem_distinct.1 (List.mem_filter.1 hu).1) hlit

theorem mem_collected (ht : t ∈ objects)
    (hlang : c.languageAware → t.isLiteral → t.language = m.language) :
    t ∈ m.collected c objects := by
  unfold collected
  dsimp only
  split
  · next haware =>
    refine List.mem_filter.2 ⟨mem_distinct.2 ht, ?_⟩
    cases hlit : t.isLiteral with
    | false => rfl
    | true => simpa using hlang haware hlit
  · exact mem_distinct.2 ht

end MemberBinding

end

/-- A literal is left when a member has chosen in a reading of a resource: as a candidate of its
single value, as an object that a collection takes, or as an item of a list that such an object
starts. -/
inductive Engine.Survives (c : Config) (rd : Reading) (m : MemberBinding) (t : Term) : Prop
  | candidate : m.collection = false →
    t ∈ m.candidates c (rd.graph.objects rd.subject m.predicate) → Survives c rd m t
  | object : m.collection → t ∈ m.collected c (rd.graph.objects rd.subject m.predicate) →
    Survives c rd m t
  | item {head : Term} {ts : List Term} : m.collection →
    head ∈ m.collected c (rd.graph.objects rd.subject m.predicate) →
    (∀ w, listElements rd m head w = .ok (some ts) w) → t ∈ ts → Survives c rd m t

/-! ## What is written survives -/

/-- A term that a record is written with for a member: that of its value, or that of an element if
the member is a collection. -/
inductive Record.Spells (cx : Setting) (rec : Record) (m : MemberBinding) : Value → Term → Prop
  | value {v : Value} {t : Term} : rec.written cx.schema m.name = some v →
    (∀ items, v ≠ .list items) → m.Spells cx v t → Spells cx rec m v t
  | element {items : List Value} {u : Value} {t : Term} : m.collection →
    rec.written cx.schema m.name = some (.list items) → u ∈ items → m.Spells cx u t →
    Spells cx rec m u t

theorem Record.Spells.language {cx : Setting} {rec : Record} {m : MemberBinding} {v : Value}
    {t : Term} (h : rec.Spells cx m v t) (ht : t.isLiteral) :
    t.language = m.tagFor cx.config v := by
  cases h with
  | value _ _ hspells => exact (hspells.literal ht).1
  | element _ _ _ hspells => exact (hspells.literal ht).1

/-- A member of a type whose predicate is that of no other. -/
def TypeBinding.Sole (b : TypeBinding) (m : MemberBinding) : Prop :=
  m ∈ b.members ∧ ∀ m' ∈ b.members, m'.predicate = m.predicate → m' = m

theorem TypeBinding.Sole.memberFor? {b : TypeBinding} {m : MemberBinding} (h : b.Sole m) :
    b.memberFor? m.predicate = some m := by
  unfold TypeBinding.memberFor?
  cases hfind : b.members.find? fun m' => m'.predicate = m.predicate with
  | none =>
    rw [List.find?_eq_none] at hfind
    exact absurd (decide_eq_true rfl) (hfind m h.1)
  | some m' =>
    have hp : m'.predicate = m.predicate := by simpa using List.find?_some hfind
    rw [h.2 m' (List.mem_of_find?_eq_some hfind) hp]

section

variable {cx : Setting} {w : World} {r : RecordRef} {g : Graph} {rec : Record} {b : TypeBinding}
  {k : Resource} {sh : Sheet} {m : MemberBinding} {v u : Value} {t o : Term} {lo hi : Nat}

theorem Sheet.apart_of_numbered (hcells : Numbered lo hi sh.cellTerms) (hs : sh.subject = k.toTerm)
    (hk : k.Older lo) : Sheet.Apart [sh] where
  subjects := List.nodup_singleton _
  cells := by simpa using hcells.nodup
  blank := by simpa using hcells.isBlank
  disjoint sh' hsh' hmem := by
    rw [List.mem_singleton.1 hsh', List.flatMap_singleton] at hmem
    obtain ⟨i, hi, heq⟩ := hcells.exists_index hmem
    exact hk i hi (hs ▸ heq)

namespace Rendered

variable (h : Rendered cx (fun m => m.Spells cx) w r g rec b k sh)

include h

theorem exists_entry (hm : m ∈ b.members) (hv : rec.written cx.schema m.name = some v) :
    ∃ e ∈ sh.entries, Entry.Holds (m.Spells cx) m v e :=
  exists_of_forall₂_left h.entries (mem_writtenValues.2 ⟨hm, hv⟩)

theorem spells_of_sole {e : Entry} (hm : b.Sole m) (hv : rec.written cx.schema m.name = some v)
    (he : e ∈ sh.entries) (hp : e.predicate = m.predicate) : Entry.Holds (m.Spells cx) m v e := by
  obtain ⟨⟨m', v'⟩, hmem, hspells⟩ := exists_of_forall₂_right h.entries he
  obtain ⟨hm', hv'⟩ := mem_writtenValues.1 hmem
  cases hm.2 m' hm' (hspells.predicate.symm.trans hp)
  cases hv.symm.trans hv'
  exact hspells

theorem mem_objects (ha : Sheet.Apart [sh]) {p : String} :
    o ∈ (g.description k.toTerm).objects k.toTerm p ↔
      (p = Vocabulary.Rdf.type ∧ o = .iri b.classIri) ∨
        ∃ e ∈ sh.entries, e.predicate = p ∧ o ∈ e.objects := by
  have hg : g.triples = [sh].flatMap Sheet.triples := by simpa using h.triples
  have hsh : sh ∈ [sh] := List.mem_singleton_self sh
  rw [Graph.objects_description (g.mem_reach_self _), ← h.subject, objects_sheet ha hg hsh,
    objectsOf_sheet ha hsh, List.mem_append, List.mem_flatMap, h.classIri]
  refine or_congr ?_ (exists_congr fun e => and_congr_right fun _ => ?_)
  · by_cases hp : Vocabulary.Rdf.type = p
    · simp [hp]
    · simp [hp, Ne.symm hp]
  · by_cases hp : e.predicate = p
    · simp [hp]
    · simp [hp]

theorem eq_of_literal (ha : Sheet.Apart [sh]) (hm : b.Sole m)
    (hv : rec.written cx.schema m.name = some v) (hlist : ∀ items, v ≠ .list items)
    (hspells : m.Spells cx v t) (hlit : t.isLiteral)
    (ho : o ∈ (g.description k.toTerm).objects k.toTerm m.predicate) (holit : o.isLiteral) :
    o = t := by
  rcases (h.mem_objects ha).1 ho with ⟨-, rfl⟩ | ⟨e, he, hp, ho⟩
  · cases holit
  · cases h.spells_of_sole hm hv he hp with
    | single _ hspells' =>
      rw [List.mem_singleton.1 ho]
      exact hspells.unique hlit hspells'
    | bag => exact absurd rfl (hlist _)
    | chain => exact absurd rfl (hlist _)

/-- A literal that the record is written with survives, if it is in the language of the member
wherever languages count. -/
theorem survives (ha : Sheet.Apart [sh]) (hm : b.Sole m) (ht : rec.Spells cx m u t)
    (hlit : t.isLiteral) (hkind : m.kind.admits t)
    (hlang : cx.config.languageAware → t.language = m.language) {source : SourceRef} :
    Survives cx.config { source, id := k, graph := g.description k.toTerm } m t := by
  have objects : ∀ {v e}, Entry.Holds (m.Spells cx) m v e → e ∈ sh.entries → ∀ o ∈ e.objects,
      o ∈ (g.description k.toTerm).objects k.toTerm m.predicate := fun hentry he o ho =>
    (h.mem_objects ha).2 (.inr ⟨_, he, hentry.predicate, ho⟩)
  have collected : t ∈ (g.description k.toTerm).objects k.toTerm m.predicate →
      t ∈ m.collected cx.config ((g.description k.toTerm).objects k.toTerm m.predicate) :=
    fun ht => MemberBinding.mem_collected ht fun haware _ => hlang haware
  -- The entry of the member has a term for the value or the element; since one was a literal, this
  -- one is the same.
  cases ht with
  | value hv hlist hspells =>
    obtain ⟨e, he, hentry⟩ := h.exists_entry hm.1 hv
    have hobjects := objects hentry he
    have ht : t ∈ (g.description k.toTerm).objects k.toTerm m.predicate := by
      cases hentry with
      | single _ hspells' =>
        exact hobjects t (List.mem_singleton.2 (hspells.unique hlit hspells').symm)
      | bag => exact absurd rfl (hlist _)
      | chain => exact absurd rfl (hlist _)
    cases hcol : m.collection with
    | false =>
      exact .candidate hcol (MemberBinding.mem_candidates ht hkind hlang fun o ho holit =>
        h.eq_of_literal ha hm hv hlist hspells hlit ho holit)
    | true => exact .object hcol (collected ht)
  | element hcol hv hu hspells =>
    obtain ⟨e, he, hentry⟩ := h.exists_entry hm.1 hv
    have hobjects := objects hentry he
    cases hentry with
    | single hlist _ => exact absurd rfl (hlist _)
    | bag _ hall =>
      obtain ⟨t', ht', hspells'⟩ := exists_of_forall₂_left hall hu
      cases hspells.unique hlit hspells'
      exact .object hcol (collected (hobjects _ ht'))
    | @chain _ cells _ hall =>
      obtain ⟨t', ht', hspells'⟩ := exists_of_forall₂_left hall hu
      cases hspells.unique hlit hspells'
      -- The cells are blank nodes, so the description holds them and no query is made.
      have hhead := hobjects _ (List.mem_singleton_self (Graph.headOf cells))
      have hne : cells ≠ [] := fun hnil => by
        rw [hnil] at ht'
        cases ht'
      have hg : g.triples = [sh].flatMap Sheet.triples := by simpa using h.triples
      obtain ⟨hblank, hitems⟩ := listItems_sheet ha hg (List.mem_singleton_self sh) he hne
        (h.subject ▸ Graph.objects_description_subset hhead)
      rw [h.subject] at hitems
      refine .item hcol (MemberBinding.mem_collected hhead fun _ hlit => ?_) (fun w => ?_) ht'
      · have hresource := Graph.isResource_of_isBlank hblank
        unfold Term.isResource at hresource
        rw [hlit] at hresource
        cases hresource
      · unfold listElements
        rw [if_pos (Graph.isList_of_listItems hitems), hitems]
        rfl

end Rendered

end

namespace Engine

/-- **What is written survives the choice by language** when the graph is read back with the same
settings, unless languages count and it lacks the language that the member declares. So it is for
every literal that a record is written with for a member with a predicate of its own and a kind that
literals are of, whether it stands for a single value, for an element or for an item of a list. No
blank node that is generated may be the record's identifier. -/
theorem toGraph_survives (cx : Setting) (w w' : World) (r : RecordRef) (g : Graph)
    (hrun : toGraph cx r w = .ok g w') :
    ∃ rec b k, w'.heap.record? r = some rec ∧ rec.id = some k ∧
      (∃ i, w.heap.record? r = some { rec with id := i }) ∧
      w'.bindings.get? rec.type = some b ∧
      (k.Older w.generated → ∀ m, b.Sole m → b.memberFor? m.predicate = some m ∧
        ∀ v t, rec.Spells cx m v t → t.isLiteral →
          t.language = m.tagFor cx.config v ∧
          (m.kind.admits t → (cx.config.languageAware → m.tagFor cx.config v = m.language) →
            ∀ rd : Reading, rd.id = k →
              ({ graph := g } : Memory).toSource.describe k = .ok rd.graph →
              Survives cx.config rd m t)) := by
  have hk : naming.Keeps (toGraph cx r) (toGraph cx r) _ w := toGraph_rendered
  obtain ⟨-, ⟨rec, b, k, sh, hr, hcells, hbefore⟩, -⟩ := hk.ok hrun
  refine ⟨rec, b, k, hr.record, hr.id, hbefore, hr.binding, fun holder m hm => ⟨hm.memberFor?, ?_⟩⟩
  intro v t ht hlit
  have hlang := ht.language hlit
  refine ⟨hlang, fun hkind haware rd hid hd => ?_⟩
  obtain ⟨source, id, graph⟩ := rd
  obtain rfl : id = k := hid
  obtain rfl : g.description id.toTerm = graph := Except.ok.inj hd
  exact hr.survives (Sheet.apart_of_numbered hcells hr.subject holder) hm ht hlit hkind
    fun h => hlang.trans (haware h)

/-- Books with two texts, one of them in English, and a number that is said to be in English. -/
def bookSetting (strongTyping languageAware isAbstract : Bool) (heading : String) : Setting where
  config := { defaultLanguage := "en", strongTyping, languageAware }
  schema := { types := [{
    name := "Book"
    isAbstract
    descriptor := {
      classIri := some "urn:Book"
      members := [
        { name := "title", kind := .string, predicate := some "urn:title", language := some "en" },
        { name := "heading", kind := .string, predicate := some heading },
        { name := "pages", kind := .int, predicate := some "urn:pages",
          language := some "en" }] } }] }

def bookNamed (title : Value) : Record where
  type := "Book"
  id := some (.iri "urn:b")
  values := .ofList [("title", title), ("heading", .string "EMMA"), ("pages", .int 474)]

/-- A world with a book of a title. -/
def bookWorld (title : Value) : World where
  namespaces := .wellKnown
  heap := { records := #[bookNamed title] }

def bookTitle : MemberBinding where
  name := "title"
  kind := .string
  predicate := "urn:title"
  collection := false
  ordered := false
  language := some "en"
  lazy := false
  xsdUri := false

/-- Books where typing is strong and languages count. -/
def awareSetting : Setting := bookSetting true true false "urn:heading"

def emmaWorld : World := bookWorld (.string "Emma")

/-- A title that is tagged as its member asks for survives, where languages count. -/
theorem toGraph_survives_title :
    ∃ g w', toGraph awareSetting ⟨0⟩ emmaWorld = .ok g w' ∧
      ∀ rd : Reading, rd.id = .iri "urn:b" →
        ({ graph := g } : Memory).toSource.describe (.iri "urn:b") = .ok rd.graph →
        Survives awareSetting.config rd bookTitle
          (.langString "Emma" "en") := by
  obtain ⟨g, w', hrun, hpass⟩ := Run.exists_ok
    (x := toGraph awareSetting ⟨0⟩ emmaWorld)
    (p := fun _ w => decide (w.heap.id? ⟨0⟩ = some (.iri "urn:b")) &&
      decide (∀ b, w.bindings.get? "Book" = some b → bookTitle ∈ b.members ∧
        ∀ m' ∈ b.members, m'.predicate = bookTitle.predicate → m' = bookTitle))
    (by decide +kernel)
  rw [Bool.and_eq_true] at hpass
  obtain ⟨⟨type, id, values⟩, b, k, hrec, hid, ⟨i, hbook⟩, hb, hkept⟩ :=
    toGraph_survives _ _ _ _ _ hrun
  cases hbook
  have hk : some k = some (.iri "urn:b") :=
    (Heap.id?_eq_some.2 ⟨_, hrec, hid⟩).symm.trans (of_decide_eq_true hpass.1)
  cases hk
  have hsole : b.Sole bookTitle := of_decide_eq_true hpass.2 b hb
  have holder : Resource.Older emmaWorld.generated (.iri "urn:b") :=
    Resource.older_of_not_isBlank _ rfl
  obtain ⟨-, hsurvives⟩ := hkept holder bookTitle hsole
  have hspells : Record.Spells awareSetting ⟨"Book", id, (bookNamed (.string "Emma")).values⟩
      bookTitle (.string "Emma") (.langString "Emma" "en") :=
    .value (Record.written_eq_some.2 ⟨rfl, by decide +kernel⟩) nofun ⟨emmaWorld, _, rfl⟩
  exact ⟨g, w', hrun, (hsurvives _ _ hspells rfl).2 rfl fun _ => rfl⟩

/-- A literal that the book is written with for a member does not survive. -/
def Loses (cx : Setting) (w : World) (name : String) (t : Term) : Prop :=
  ∃ g w' k b m, toGraph cx ⟨0⟩ w = .ok g w' ∧ w'.heap.id? ⟨0⟩ = some k ∧
    w'.bindings.get? "Book" = some b ∧ b.member? name = some m ∧ t.isLiteral ∧ m.kind.admits t ∧
    ∃ rd : Reading, rd.id = k ∧ ({ graph := g } : Memory).toSource.describe k = .ok rd.graph ∧
      t ∈ rd.graph.objects rd.subject m.predicate ∧ ¬Survives cx.config rd m t

/-- Whether a single-valued member has a literal for an object and not for a candidate. -/
def losing (cx : Setting) (name : String) (t : Term) (g : Graph) (w : World) : Bool :=
  match w.heap.id? ⟨0⟩, (w.bindings.get? "Book").bind fun b => b.member? name with
  | some k, some m =>
    let objects := (g.description k.toTerm).objects k.toTerm m.predicate
    t.isLiteral && m.kind.admits t && !m.collection &&
      decide (t ∈ objects ∧ t ∉ m.candidates cx.config objects)
  | _, _ => false

theorem loses_of_passes {cx : Setting} {w : World} {name : String} {t : Term}
    (h : Run.passes (losing cx name t) (toGraph cx ⟨0⟩ w)) : Loses cx w name t := by
  obtain ⟨g, w', hrun, hpass⟩ := Run.exists_ok h
  unfold losing at hpass
  split at hpass
  · next k m hk hm =>
    obtain ⟨b, hb, hm⟩ := Option.bind_eq_some_iff.1 hm
    simp only [Bool.and_eq_true, Bool.not_eq_true', decide_eq_true_eq] at hpass
    obtain ⟨⟨⟨hlit, hkind⟩, hcol⟩, hmem, hnot⟩ := hpass
    refine ⟨g, w', k, b, m, hrun, hk, hb, hm, hlit, hkind,
      { source := ⟨0⟩, id := k, graph := g.description k.toTerm }, rfl, rfl, hmem, fun hs => ?_⟩
    cases hs with
    | candidate _ ht => exact hnot ht
    | object hcol' => rw [hcol] at hcol'; cases hcol'
    | item hcol' => rw [hcol] at hcol'; cases hcol'
  · cases hpass

/-- **What is written can be lost** in reading it back. Where languages count: an untagged text of a
member in English if typing is weak, and a number of a member in English at any rate. Where they do
not: the English text if another member writes an untagged one under the same predicate, or if a
stand-in holds it in a list with a number, for a member that has a single value. -/
theorem toGraph_survives_unless :
    Loses (bookSetting false true false "urn:heading") emmaWorld "title" (.string "Emma") ∧
      Loses awareSetting emmaWorld "pages" (.typed "474" .int) ∧
      Loses (bookSetting true false false "urn:title") emmaWorld "title"
        (.langString "Emma" "en") ∧
      Loses (bookSetting true false true "urn:heading")
        (bookWorld (.list [.string "Emma", .int 1815])) "title" (.langString "Emma" "en") :=
  ⟨loses_of_passes (by decide +kernel), loses_of_passes (by decide +kernel),
    loses_of_passes (by decide +kernel), loses_of_passes (by decide +kernel)⟩

end Engine

end GraphMarshal
