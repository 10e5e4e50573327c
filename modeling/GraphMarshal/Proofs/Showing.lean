import GraphMarshal.Proofs.Copying
import GraphMarshal.Proofs.Soundness
import GraphMarshal.Proofs.Writing

/-!
# Written graphs show their records

A graph made of the sheets of some records holds what a pass needs to read them back, as long as no
member is written under a predicate of another or of the form of graphs, no element of an unordered
collection is lost among equal ones, and no resource is named like a cell.
-/

namespace GraphMarshal

open Engine Vocabulary

/-- A value mentions a resource, as a value or by a reference, also in a list. -/
inductive Value.Mentions (name : Reference → Option Resource) : Value → Resource → Prop
  | resource (k : Resource) : Mentions name (.resource k) k
  | ref {x : Reference} {k : Resource} : name x = some k → Mentions name (.ref x) k
  | list {items : List Value} {v : Value} {k : Resource} : v ∈ items → Mentions name v k →
    Mentions name (.list items) k

theorem Value.Mentions.of_refers {name : Reference → Option Resource} {v : Value} {x : Reference}
    {k : Resource} (hx : v.Refers x) (hk : name x = some k) : v.Mentions name k := by
  induction hx with
  | ref x => exact .ref hk
  | list hv _ ih => exact .list hv (ih hk)

theorem Value.mentions_list {name : Reference → Option Resource} {items : List Value}
    {k : Resource} :
    (Value.list items).Mentions name k ↔ ∃ v ∈ items, v.Mentions name k := by
  constructor
  · rintro ⟨⟩
    exact ⟨_, ‹_›, ‹_›⟩
  · rintro ⟨v, hv, hk⟩
    exact .list hv hk

theorem Value.mentions_ref {name : Reference → Option Resource} {x : Reference} {k : Resource} :
    (Value.ref x).Mentions name k ↔ name x = some k := by
  constructor
  · rintro ⟨⟩
    assumption
  · exact .ref

theorem Value.Mentions.not_string {name : Reference → Option Resource} {s : String} {k : Resource} :
    ¬(Value.string s).Mentions name k := nofun

theorem Denotes.mentions {name : Reference → Option Resource}
    {readable : TypeName → Resource → Prop} {m : MemberBinding} {t : Term} {v : Value}
    (h : Denotes name readable m t v) (ht : t.isBlank) :
    ∃ k : Resource, v.Mentions name k ∧ t = k.toTerm := by
  cases h with
  | literal hlit _ _ _ =>
    cases t with
    | blank l => cases hlit
    | iri i => cases ht
    | literal s d tag => cases ht
  | uri u _ => cases ht
  | resource k _ => exact ⟨k, .resource k, rfl⟩
  | ref k _ hname _ => exact ⟨k, .ref hname, rfl⟩

/-- The members of a type have predicates of their own, and none of those that classes and lists are
written with. -/
structure TypeBinding.Plain (b : TypeBinding) : Prop where
  predicates : (b.members.map (·.predicate)).Nodup
  reserved : ∀ m ∈ b.members, m.predicate ≠ Rdf.type ∧ m.predicate ≠ Rdf.first ∧
    m.predicate ≠ Rdf.rest

/-- A concrete record of a resolved type whose members read as on a record without values, or hold
what they are declared to hold. -/
structure Record.Faithful (cx : Setting) (w : World) (rec : Record) (b : TypeBinding) : Prop where
  concrete : cx.schema.isAbstract rec.type = false
  bound : w.bindings.get? rec.type = some b
  plain : b.Plain
  declared : ∀ m ∈ b.members,
    rec.get? cx.schema m.name = Record.get? cx.schema { type := rec.type } m.name ∨
    ∃ v, rec.get? cx.schema m.name = some v ∧ m.Declares cx.schema v ∧ v.isEmpty = false

theorem Record.Faithful.declares {cx : Setting} {w : World} {rec : Record} {b : TypeBinding}
    (h : rec.Faithful cx w b) {m : MemberBinding} (hm : m ∈ b.members) {v : Value}
    (hv : rec.written cx.schema m.name = some v) :
    m.Declares cx.schema v := by
  obtain ⟨hget, hempty⟩ := Record.written_eq_some.1 hv
  rcases h.declared m hm with hunset | ⟨v', hv', hdecl, -⟩
  · rcases Record.get?_eq_some (hunset.symm.trans hget) with hstored | rfl
    · cases hstored
    · cases hempty
  · rw [hget] at hv'
    cases hv'
    exact hdecl

/-! ## Sheets of records -/

section

variable {cx : Setting} {name : Reference → Option Resource} {rec : Record} {b : TypeBinding}
    {k : Resource} {sh : Sheet}
  {m : MemberBinding} {v : Value}

theorem members_writtenValues (cx : Setting) (rec : Record) (b : TypeBinding) :
    ((writtenValues cx b rec).map (·.1)).Sublist b.members := by
  unfold writtenValues
  induction b.members with
  | nil => exact .slnil
  | cons m ms ih =>
    rw [List.filterMap_cons]
    split
    · exact ih.cons m
    · next e he =>
      have hm : e.1 = m := by
        split at he
        · split at he <;> cases he
          rfl
        · cases he
      rw [List.map_cons, hm]
      exact ih.cons_cons m

namespace Engine.Shows

variable (h : Shows cx name rec b k sh)

include h

theorem exists_entry (hm : m ∈ b.members) (hv : rec.written cx.schema m.name = some v) :
    ∃ e ∈ sh.entries, Entry.Writes name m v e :=
  exists_of_forall₂_left h.entries (mem_writtenValues.2 ⟨hm, hv⟩)

theorem exists_member {e : Entry} (he : e ∈ sh.entries) :
    ∃ m ∈ b.members, ∃ v, rec.written cx.schema m.name = some v ∧ Entry.Writes name m v e := by
  obtain ⟨⟨m, v⟩, hmem, hw⟩ := exists_of_forall₂_right h.entries he
  obtain ⟨hm, hv⟩ := mem_writtenValues.1 hmem
  exact ⟨m, hm, v, hv, hw⟩

theorem predicates : sh.entries.map (·.predicate) = (writtenValues cx b rec).map (·.1.predicate) :=
  map_eq_map_of_forall₂ h.entries.flip fun _ _ he => he.predicate

theorem proper (hb : b.Plain) : sh.Proper where
  predicates := by
    have hsub := (members_writtenValues cx rec b).map (·.predicate)
    rw [List.map_map] at hsub
    rw [h.predicates]
    exact hsub.nodup hb.predicates
  untyped e he := by
    obtain ⟨m, hm, v, -, hw⟩ := h.exists_member he
    rw [hw.predicate]
    exact (hb.reserved m hm).1

theorem not_first (hb : b.Plain) : ∀ e ∈ sh.entries, e.predicate ≠ Rdf.first := fun e he => by
  obtain ⟨m, hm, v, -, hw⟩ := h.exists_member he
  rw [hw.predicate]
  exact (hb.reserved m hm).2.1

end Engine.Shows

end

/-! ## Passes over written graphs -/

namespace Pass

variable {cx : Setting} {P : Pass} {sheets : List Sheet} {sh : Sheet} {rec : Record}
    {b : TypeBinding} {k : Resource}
  {m : MemberBinding} {v : Value}

/-- What the source of a pass holds is made of sheets. -/
structure Written (P : Pass) (sheets : List Sheet) : Prop where
  triples : P.graph.triples = sheets.flatMap Sheet.triples
  apart : Sheet.Apart sheets
  first : ∀ sh ∈ sheets, ∀ e ∈ sh.entries, e.predicate ≠ Rdf.first

/-- An element that is neither a cell nor the end of lists starts no list, as far as a description
tells. -/
theorem Written.isList_false (hw : P.Written sheets) {node t : Term} (hnil : t.isNil = false)
    (hcell : t ∉ sheets.flatMap Sheet.cellTerms) : (P.graph.description node).isList t = false := by
  have hnone : (P.graph.description node).object? t Rdf.first = none := by
    have hgraph := object?_first_none hw.apart hw.triples hcell fun sh hsh _ => hw.first sh hsh
    unfold Graph.object? at hgraph ⊢
    rw [List.head?_eq_none_iff] at hgraph ⊢
    rw [List.eq_nil_iff_forall_not_mem] at hgraph ⊢
    exact fun o ho => hgraph o (Graph.objects_description_subset ho)
  unfold Graph.isList
  rw [hnil, hnone]
  simp

theorem collection_of_declares {vs : List Value} (h : m.Declares cx.schema (.list vs)) :
    m.collection = true := by
  unfold MemberBinding.Declares at h
  split at h
  · assumption
  · exact absurd rfl (h.not_list vs)

theorem Written.shown (hw : P.Written sheets) (hsh : sh ∈ sheets) (hs : Shows cx P.name rec b k sh)
    (hb : b.Plain) (hm : m ∈ b.members) (hv : rec.written cx.schema m.name = some v)
    (hdecl : m.Declares cx.schema v)
    (hbag : m.collection → m.ordered = false →
      (P.graph.objects k.toTerm m.predicate).Nodup ∧
      Term.nil ∉ P.graph.objects k.toTerm m.predicate)
    (hcells : ∀ j : Resource, v.Mentions P.name j → j.toTerm ∉ sheets.flatMap Sheet.cellTerms)
    (hallows : ∀ target x j, m.kind = .ref (some target) → v.Refers x → P.name x = some j →
      P.Allows cx k target j) :
    Shown P.name (P.Allows cx k) m (P.graph.description k.toTerm)
      (P.graph.objects k.toTerm m.predicate) v := by
  obtain ⟨e, he, hwrites⟩ := hs.exists_entry hm hv
  have hobjects := objects_entry hw.apart hw.triples hsh (hs.proper hb) he
  have hempty := (Record.written_eq_some.1 hv).2
  rw [hs.subject, hwrites.predicate] at hobjects
  rw [hobjects] at hbag ⊢
  cases hwrites with
  | single hlist hd =>
    refine .single ?_ (hd.mono (fun _ _ _ h => h) fun target x j hk hx hj => ?_)
    · cases hcol : m.collection with
      | false => rfl
      | true =>
        unfold MemberBinding.Declares at hdecl
        rw [if_pos hcol] at hdecl
        obtain ⟨items, rfl, -⟩ := hdecl
        exact absurd rfl (hlist items)
    · exact hallows target x j hk (hx ▸ .ref x) hj
  | @bag vs ts hordered hds =>
    have hcol := collection_of_declares hdecl
    obtain ⟨hnodup, hnil⟩ := hbag hcol hordered
    refine .bag hcol hnodup (fun t ht => ?_) (forall₂_of_mem hds
      fun t u hu hd => hd.mono (fun _ _ _ h => h) fun target x j hk hx hj =>
        hallows target x j hk (.list hu (hx ▸ .ref x)) hj)
    have htnil : t.isNil = false := decide_eq_false fun heq => hnil (heq ▸ ht)
    refine ⟨htnil, hw.isList_false htnil fun hcell => ?_⟩
    obtain ⟨u, hu, hd⟩ := exists_of_forall₂_left hds ht
    obtain ⟨j, hj, rfl⟩ := hd.mentions (hw.apart.blank _ hcell)
    exact hcells j (.list hu hj) hcell
  | @chain vs cells hordered hds =>
    have hne : cells ≠ [] := by
      rintro rfl
      cases hds
      cases hempty
    have hmem : Graph.headOf cells ∈ P.graph.objects sh.subject m.predicate := by
      rw [hs.subject, hobjects]
      exact List.mem_singleton_self _
    obtain ⟨hhead, hitems⟩ := listItems_sheet hw.apart hw.triples hsh he hne hmem
    rw [hs.subject] at hitems
    refine .chain (collection_of_declares hdecl) (Graph.isNil_of_isBlank hhead)
      (Graph.isResource_of_isBlank hhead) hitems
        (forall₂_of_mem hds fun t u hu hd => hd.mono (fun _ _ _ h => h) fun target x j hk hx hj =>
        hallows target x j hk (.list hu (hx ▸ .ref x)) hj)

/-- **What is written can be read**: the source of a pass holds what it has to hold of a record on
one of its sheets. -/
theorem Written.holds (hw : P.Written sheets) (hsh : sh ∈ sheets) (hs : Shows cx P.name rec b k sh)
    (hsound : P.start.Sound cx) (hrec : ∃ r i, P.start.heap.record? r = some { rec with id := i })
    (hf : rec.Faithful cx P.start b) (hreg : P.start.typeForClass b.classIri = some rec.type)
    (hbag : ∀ m ∈ b.members, m.collection → m.ordered = false →
      (P.graph.objects k.toTerm m.predicate).Nodup ∧
      Term.nil ∉ P.graph.objects k.toTerm m.predicate)
    (hcells : ∀ m ∈ b.members, ∀ v, rec.get? cx.schema m.name = some v →
      ∀ j : Resource, v.Mentions P.name j →
      j.toTerm ∉ sheets.flatMap Sheet.cellTerms)
    (hallows : ∀ m ∈ b.members, ∀ v, rec.written cx.schema m.name = some v → ∀ target x j,
      m.kind = .ref (some target) → v.Refers x → P.name x = some j → P.Allows cx k target j) :
      P.Holds cx k rec b where
  hasSubject := by
    rw [← hs.subject]
    exact hasSubject_sheet hw.triples hsh
  classes := by
    rw [← hs.subject, ← hs.classIri]
    exact objects_class hw.apart hw.triples hsh (hs.proper hf.plain)
  registered := hreg
  bound := hf.bound
  concrete := hf.concrete
  carriesId := hsound.carriesId hf.bound
  names := hsound.names hf.bound
  predicates := hf.plain.predicates
  untyped m hm := (hf.plain.reserved m hm).1
  shown m hm v hv := hw.shown hsh hs hf.plain hm hv (hf.declares hm hv) (hbag m hm)
    (hcells m hm v (Record.written_eq_some.1 hv).1) (hallows m hm v hv)
  hidden m hm hnone := by
    rw [← hs.subject]
    refine objects_absent hw.apart hw.triples hsh (hf.plain.reserved m hm).1 fun e he heq => ?_
    obtain ⟨m', hm', v, hv, hwrites⟩ := hs.exists_member he
    rw [hwrites.predicate] at heq
    rw [List.inj_on_of_nodup_map hf.plain.predicates hm' hm heq, hnone] at hv
    cases hv
  kept m hm v hv := by
    obtain ⟨hget, hempty⟩ := Record.written_eq_some.1 hv
    obtain ⟨r, i, hr⟩ := hrec
    rcases Record.get?_eq_some hget with hstored | rfl
    · exact hsound.kept hr hf.concrete hstored
    · cases hempty

end Pass

end GraphMarshal
