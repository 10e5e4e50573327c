import GraphMarshal.Proofs.Operations
import GraphMarshal.Proofs.Showing

/-!
# Round trips of records

A record that is written and read back agrees with the record that is read, member by member: both
are unset, or they hold equal values.
-/

namespace GraphMarshal

open Engine Vocabulary

/-! ## Equal members -/

/-- What two records give for a member is equal: both give nothing, or equal values. -/
def Heap.Agree (h : Heap) : Option Value → Option Value → Prop
  | none, none => True
  | some v, some v' => h.sameValue v v'
  | _, _ => False

section

variable {s : Schema} {h : Heap} {m : MemberBinding} {v v' : Value}
    {name : Reference → Option Resource} {base : Nat}
  {source : SourceRef}

theorem CopyOne.same (hc : CopyOne name base source m h v v') (hv : m.Takes s v)
    (hname : ∀ x k, v.Refers x → name x = some k → h.resource? x = some k) : h.sameValue v v' := by
  cases hc with
  | atom hat =>
    cases hv with
    | scalar _ hv =>
      generalize m.kind = k at hv
      cases hv <;> simp [Heap.sameValue]
    | uri u => simp [Heap.sameValue]
    | resource k => simp [Heap.sameValue]
    | ref x => exact hat.elim
  | ref _ hx hn _ =>
    unfold Heap.sameValue
    exact Heap.sameReference_iff.2 (.inr ⟨_, hname _ _ (.ref _) hx, hn.resource?⟩)

theorem sameValues_of_copies {vs vs' : List Value}
    (hc : List.Forall₂ (CopyOne name base source m h) vs vs') (hv : ∀ v ∈ vs, m.Takes s v)
    (hname : ∀ v ∈ vs, ∀ x k, v.Refers x → name x = some k →
      h.resource? x = some k) :
    h.sameValues vs vs' := by
  induction hc with
  | nil => simp [Heap.sameValues]
  | cons hc _ ih =>
    rw [List.forall_mem_cons] at hv hname
    unfold Heap.sameValues
    rw [hc.same hv.1 hname.1, ih hv.2 hname.2]
    rfl

theorem Copy.same (hc : Copy name base source m h v v') (hv : m.Declares s v)
    (hname : ∀ x k, v.Refers x → name x = some k → h.resource? x = some k) : h.sameValue v v' := by
  unfold MemberBinding.Declares at hv
  split at hv
  · obtain ⟨vs, rfl, hvs⟩ := hv
    cases hc with
    | one hc => cases hc with
      | atom hat => exact hat.elim
    | list hcs =>
      unfold Heap.sameValue
      exact sameValues_of_copies hcs hvs fun v hv x k hx => hname x k (.list hv hx)
  · cases hc with
    | one hc => exact hc.same hv hname
    | list hcs => exact absurd rfl (hv.not_list _)

/-- What a record gives for a member depends on its type and on what it stores for the member. -/
theorem Record.get?_congr {rec rec' : Record} {member : String} (ht : rec'.type = rec.type)
    (hv : rec'.values.get? member = rec.values.get? member) :
    rec'.get? s member = rec.get? s member := by
  unfold get? stored
  rw [ht, hv]

theorem Record.get?_of_keeps (rec : Record) {member : String} {f : Member}
    (hconcrete : s.isAbstract rec.type = false) (hf : s.field? rec.type member = some f)
    (hk : f.Keeps v) (hv : rec.values.get? member = some v') :
    rec.get? s member = some v' := by
  unfold get?
  rw [if_neg (by rw [hconcrete]; decide), hf]
  dsimp only
  rw [if_neg fun hhidden => by unfold Member.Keeps at hk; rw [hhidden] at hk; exact hk]
  unfold stored
  rw [hv]

theorem agree_unset {ty : TypeName} {member : String} :
    h.Agree (Record.get? s { type := ty } member) (Record.get? s { type := ty } member) := by
  cases hget : Record.get? s { type := ty } member with
  | none => trivial
  | some v =>
    rcases Record.get?_eq_some hget with hstored | rfl
    · cases hstored
    · simp [Heap.Agree, Heap.sameValue, Heap.sameValues]

end

/-- **Copies agree**: a record that stores copies of what a faithful record has written agrees with
it. -/
theorem Pass.CopiesMember.agree {cx : Setting} {P : Pass} {h : Heap} {w : World} {rec : Record}
    {b : TypeBinding} {vals : Table String Value} {m : MemberBinding} {k : Resource}
    (hc : P.CopiesMember cx h rec vals m) (hf : rec.Faithful cx w b) (hm : m ∈ b.members)
    (hkept : ∀ v, rec.written cx.schema m.name = some v →
      ∃ f, cx.schema.field? rec.type m.name = some f ∧ f.Keeps v)
    (hname : ∀ v x k, rec.get? cx.schema m.name = some v → v.Refers x → P.name x = some k →
      h.resource? x = some k) :
    h.Agree (rec.get? cx.schema m.name)
      (Record.get? cx.schema { type := rec.type, id := some k, values := vals } m.name) := by
  unfold Pass.CopiesMember at hc
  split at hc
  · next v hv =>
    obtain ⟨v', hv', hcopy⟩ := hc
    obtain ⟨f, hfield, hk⟩ := hkept v hv
    have hget :=
      Record.get?_of_keeps { type := rec.type, id := some k, values := vals } hf.concrete hfield
      hk hv'
    rw [(Record.written_eq_some.1 hv).1, hget]
    exact hcopy.same (hf.declares hm hv) fun x k => hname v x k (Record.written_eq_some.1 hv).1
  · next hnone =>
    have hunset : Record.get? cx.schema { type := rec.type, id := some k, values := vals } m.name =
        Record.get? cx.schema { type := rec.type } m.name := Record.get?_congr rfl hc
    have hrec : rec.get? cx.schema m.name = Record.get? cx.schema { type := rec.type } m.name := by
      refine (hf.declared m hm).resolve_right fun ⟨v, hget, _, hempty⟩ => ?_
      rw [Record.written_eq_some.2 ⟨hget, hempty⟩] at hnone
      cases hnone
    rw [hunset, hrec]
    exact agree_unset

/-! ## Sources of written graphs -/

namespace World

/-- The place of the next source. -/
def nextSource (w : World) : SourceRef := ⟨w.sources.size⟩

/-- The world with one more source, in memory. -/
def attach (w : World) (m : Memory) : World := { w with sources := w.sources.push m.toSource }

theorem source_attach (w : World) (m : Memory) : (w.attach m).source w.nextSource = m.toSource := by
  unfold source attach nextSource
  rw [Array.getD_eq_getD_getElem?, Array.getElem?_push_size]
  rfl

end World

/-- The pass that reads a graph from a source of its own. -/
def Pass.over (w : World) (g : Graph) (d : Dialect)
    (original : Resource → Option (Record × TypeBinding)) : Pass where
  source := w.nextSource
  start := w.attach { graph := g, dialect := d }
  graph := g
  original
  name := w.heap.resource?

theorem Pass.valid_over {cx : Setting} {w : World} {g : Graph} {d : Dialect}
    {original : Resource → Option (Record × TypeBinding)} (hl : cx.config.languageAware = false)
    (holds : ∀ {k rec b}, original k = some (rec, b) →
      (Pass.over w g d original).Holds cx k rec b) :
    (Pass.over w g d original).Valid cx where
  described k := by
    show ((w.attach _).source w.nextSource).describe k = _
    rw [World.source_attach]
    rfl
  queried q := by
    show ∃ e, ((w.attach _).source w.nextSource).query q = _
    rw [World.source_attach]
    exact ⟨_, rfl⟩
  languages := hl
  holds := holds

/-! ## Names -/

/-- A resource that is no blank node generated from the number `n` on. -/
def Resource.Older (n : Nat) (k : Resource) : Prop := ∀ i, n ≤ i → k.toTerm ≠ .generated i

/-- Every resource that the members of a record mention is older than a number. -/
def Record.Older (cx : Setting) (name : Reference → Option Resource) (rec : Record)
    (b : TypeBinding) (n : Nat) : Prop :=
  ∀ m ∈ b.members, ∀ v, rec.get? cx.schema m.name = some v → ∀ j, v.Mentions name j → j.Older n

theorem Resource.older_of_not_isBlank {k : Resource} (n : Nat) (hk : k.isBlank = false) :
    k.Older n := by
  intro i _ heq
  cases k with
  | iri _ => cases heq
  | blank _ => cases hk

theorem Resource.Older.not_mem {n hi : Nat} {k : Resource} {ts : List Term} (hk : k.Older n)
    (ht : Numbered n hi ts) :
    k.toTerm ∉ ts := fun hmem => by
  obtain ⟨i, hi, heq⟩ := ht.exists_index hmem
  exact hk i hi heq

/-- The elements of unordered collections are written as different terms, none of them the end of
lists. -/
def Graph.Separates (g : Graph) (k : Resource) (b : TypeBinding) : Prop :=
  ∀ m ∈ b.members, m.collection → m.ordered = false →
    (g.objects k.toTerm m.predicate).Nodup ∧ Term.nil ∉ g.objects k.toTerm m.predicate

instance (g : Graph) (k : Resource) (b : TypeBinding) : Decidable (g.Separates k b) :=
  inferInstanceAs (Decidable (∀ m ∈ b.members, m.collection → m.ordered = false →
    (g.objects k.toTerm m.predicate).Nodup ∧ Term.nil ∉ g.objects k.toTerm m.predicate))

theorem MemberBinding.Declares.carriesId {s : Schema} {m : MemberBinding} {v : Value}
    {x : Reference} {target : TypeName} (h : m.Declares s v) (hx : v.Refers x)
    (hk : m.kind = .ref (some target)) :
    s.carriesId target := by
  have single : ∀ {x}, m.Takes s (.ref x) → s.carriesId target := fun h => by
    cases h with
    | scalar hscalar hv =>
      rw [hk] at hscalar
      cases hscalar
    | ref x hk' hc =>
      rw [hk] at hk'
      cases hk'
      exact hc
  unfold Declares at h
  split at h
  · obtain ⟨vs, rfl, hvs⟩ := h
    cases hx with
    | @list items v x hv hx =>
      cases hx with
      | ref x => exact single (hvs _ hv)
      | list _ _ => exact absurd rfl ((hvs _ hv).not_list _)
  · cases hx with
    | ref x => exact single h
    | list _ _ => exact absurd rfl (h.not_list _)

/-! ## One record -/

/-- A faithful record is written, with an identifier and values that no blank node generated on the
way is mistaken for. -/
structure Engine.Renders (cx : Setting) (w : World) (r : RecordRef) (rec : Record) (b : TypeBinding)
    (k : Resource) (g : Graph) (w₁ : World) : Prop where
  record : w.heap.record? r = some rec
  faithful : rec.Faithful cx w b
  written : toGraph cx r w = .ok g w₁
  id : w₁.heap.id? r = some k
  separates : g.Separates k b
  older : k.Older w.generated
  mentions : rec.Older cx w₁.heap.resource? b w.generated

section

variable {cx : Setting} {w w₁ : World} {r : RecordRef} {rec : Record} {b : TypeBinding}
    {k : Resource} {g : Graph}

/-- The pass that reads back one record. -/
def Pass.single (w : World) (g : Graph) (d : Dialect) (k : Resource) (rec : Record)
    (b : TypeBinding) : Pass :=
  .over w g d fun j => if j = k then some (rec, b) else none

/-- **What one record was written to** can be read back. -/
theorem Pass.holds_single (hw : w.Stable cx) (h : Renders cx w r rec b k g w₁)
    (hreg : w₁.typeForClass b.classIri = some rec.type) (d : Dialect) :
    (Pass.single w₁ g d k rec b).Holds cx k rec b := by
  have hwritable : Writable cx False (fun _ => False) w := ⟨hw.sound.anchored, fun h => h.elim⟩
  obtain ⟨hstep, ⟨k', sh, hk', htriples, hshows, hcells⟩, -⟩ :=
    (toGraph_identifies hwritable (fun h => h.elim) h.record h.faithful.bound fun m hm v hv =>
      h.faithful.declares hm hv).ok h.written
  rw [h.id] at hk'
  cases hk'
  have hsheets : [sh].flatMap Sheet.cellTerms = sh.cellTerms := List.flatMap_singleton _ _
  have hwritten : (Pass.single w₁ g d k rec b).Written [sh] :=
    { triples := htriples.trans (List.flatMap_singleton _ _).symm
      apart :=
        { subjects := List.pairwise_singleton _ _
          cells := by rw [hsheets]; exact hcells.nodup
          blank := by rw [hsheets]; exact hcells.isBlank
          disjoint := by
            rw [hsheets, List.forall_mem_singleton, hshows.subject]
            exact h.older.not_mem hcells }
      first := by
        rw [List.forall_mem_singleton]
        exact hshows.not_first h.faithful.plain }
  have hsound : w₁.Sound cx := (toGraph_preserves.ok h.written).1.sound hw.sound
  obtain ⟨i, hrec₁, -⟩ := hstep.record h.record
  refine hwritten.holds (List.mem_singleton_self _) hshows (hsound.of_eq rfl rfl) ⟨r, i, hrec₁⟩
    { h.faithful with bound := hstep.binding h.faithful.bound } hreg h.separates
      (fun m hm v hv j hj => ?_)
    fun m hm v hv target x j hkind hx hj => ?_
  · rw [hsheets]
    exact (h.mentions m hm v hv j hj).not_mem hcells
  · -- The record may refer to itself; whatever else it refers to has no triples.
    by_cases hjk : j = k
    · exact .inl hjk
    · refine .inr ⟨(h.faithful.declares hm hv).carriesId hx hkind, .inr ?_⟩
      refine hasSubject_other hwritten.triples ?_ ?_
      · rw [List.forall_mem_singleton, hshows.subject]
        exact fun heq => hjk (Resource.toTerm_injective heq).symm
      · rw [hsheets]
        exact (h.mentions m hm v (Record.written_eq_some.1 hv).1 j
          (.of_refers hx hj)).not_mem hcells

/-- **A record that is written reads back**, as its type or one that it extends: a faithful record
gives a record of its type that agrees with it on every mapped member, if its class still leads to
its type once it is written. Writing may resolve the types of records that are referred to, and with
a prefix that one of them declares the look-up takes the IRI of the class for a compact one. -/
theorem fromGraph_toGraph {target : TypeName} (hw : w.Reachable cx)
    (hl : cx.config.languageAware = false) (h : Renders cx w r rec b k g w₁)
    (hreg : w₁.typeForClass b.classIri = some rec.type)
    (ht : target = rec.type ∨ cx.schema.isA rec.type target ∧
      cx.schema.carriesId target) (d : Dialect) :
    ∃ a w₂ copy, fromGraph cx w₁.nextSource target k
      (w₁.attach { graph := g, dialect := d }) = .ok a w₂ ∧
      w₂.heap.record? a = some copy ∧ copy.type = rec.type ∧ copy.id = some k ∧
      ∀ m ∈ b.members, w₂.heap.Agree (rec.get? cx.schema m.name) (copy.get? cx.schema m.name) := by
  have hstable := hw.stable
  have hkept := (toGraph_preserves.ok h.written).1
  have hsound₁ : w₁.Sound cx := hkept.sound hstable.sound
  let P := Pass.single w₁ g d k rec b
  have hholds : P.Holds cx k rec b := Pass.holds_single hstable h hreg d
  have hvalid : P.Valid cx := Pass.valid_over hl fun {j rec' b'} horig => by
    split at horig
    · next heq =>
      cases horig
      rw [heq]
      exact hholds
    · cases horig
  have hreadable : P.Readable cx target k := by
    refine ⟨?_, .inl ⟨rec, b, if_pos rfl, ht.imp_right And.left⟩⟩
    rcases ht with rfl | ht
    · exact hholds.carriesId
    · exact ht.2
  have hidle : ∀ n, P.start.construction.get? n = none := fun n => by
    show w₁.construction.get? n = none
    rw [hkept.construction]
    exact hstable.idle n
  obtain ⟨a, w₂, hrun, hstep, hbase, hid₂⟩ := Pass.fromGraph_copies hvalid
    (.start hidle) hidle hreadable
  obtain ⟨vals, hcopy, hmembers⟩ :=
    hstep.complete a hbase (Heap.id?_eq_some_lt hid₂) k rec b hid₂ (if_pos rfl)
  have hname : ∀ x j, w₁.heap.resource? x = some j → w₂.heap.resource? x = some j := fun x j =>
    Heap.resource?_mono hsound₁.anchored hstep.extended.id? hstep.extended.cell
  refine ⟨a, w₂, _, hrun, hcopy, rfl, rfl, fun m hm => ?_⟩
  exact (hmembers m hm).agree h.faithful hm (hholds.kept m hm) fun _ x j _ _ => hname x j

end

/-! ## Notes -/

/-- Notes, which are pages and point at pages. -/
def noteSetting : Setting where
  config := { defaultLanguage := "en" }
  schema := { types := [
    { name := "Page", descriptor := { classIri := some "http://ex/Page" } },
    { name := "Note"
      descriptor := {
        classIri := some "http://ex/Note"
        parents := ["Page"]
        members := [
          { name := "title", kind := .string, predicate := some "http://ex/title" },
          { name := "tags"
            kind := .string
            predicate := some "http://ex/tag"
            collection := true
            ordered := true },
          { name := "links"
            kind := .ref (some "Page")
            predicate := some "http://ex/link"
            collection := true }] } }] }

/-- Two notes that point at each other, the first of them at itself too. -/
def noteOperations : List Operation :=
  [.init ["Page", "Note"], .create "Note" (some (.iri "http://ex/a")),
    .create "Note" (some (.iri "http://ex/b")),
    .set ⟨0⟩ "title" (.string "A"), .set ⟨0⟩ "tags" (.list [.string "x", .string "y"]),
    .set ⟨0⟩ "links" (.list [.ref (.eager ⟨1⟩), .ref (.eager ⟨0⟩)]),
    .set ⟨1⟩ "links" (.list [.ref (.eager ⟨0⟩)])]

def noteWorld : World := (World.initial noteSetting.config).run noteSetting noteOperations

def noteBinding : TypeBinding where
  type := "Note"
  classIri := "http://ex/Note"
  namespaces := []
  idMember := none
  members := [
    { name := "title", kind := .string, predicate := "http://ex/title",
      collection := false, ordered := false, language := none, lazy := false, xsdUri := false },
    { name := "tags", kind := .string, predicate := "http://ex/tag",
      collection := true, ordered := true, language := none, lazy := false, xsdUri := false },
    { name := "links", kind := .ref (some "Page"), predicate := "http://ex/link",
      collection := true, ordered := false, language := none, lazy := false, xsdUri := false }]

def firstNote : Record where
  type := "Note"
  id := some (.iri "http://ex/a")
  values := ⟨[("title", .string "A"), ("tags", .list [.string "x", .string "y"]),
    ("links", .list [.ref (.eager ⟨1⟩), .ref (.eager ⟨0⟩)])]⟩

theorem firstNote_faithful : firstNote.Faithful noteSetting noteWorld noteBinding where
  concrete := by decide +kernel
  bound := by decide +kernel
  plain := ⟨by decide, by decide⟩
  declared := by
    have hpage : noteSetting.schema.carriesId "Page" := by decide +kernel
    simp only [noteBinding, List.forall_mem_cons]
    refine ⟨.inr ⟨_, rfl, .scalar rfl (.string _), rfl⟩, .inr ⟨_, rfl, ⟨_, rfl, ?_⟩, rfl⟩,
      .inr ⟨_, rfl, ⟨_, rfl, ?_⟩, rfl⟩, fun m hm => by cases hm⟩
    · simp only [List.forall_mem_cons]
      exact ⟨.scalar rfl (.string _), .scalar rfl (.string _), fun e he => by cases he⟩
    · simp only [List.forall_mem_cons]
      exact ⟨.ref _ rfl hpage, .ref _ rfl hpage, fun e he => by cases he⟩

theorem firstNote_older {name : Reference → Option Resource} (n : Nat)
    (hname : ∀ i, i < 2 → ∀ j, name (.eager ⟨i⟩) = some j → j.isBlank = false) :
    firstNote.Older noteSetting name noteBinding n := by
  simp only [Record.Older, noteBinding, List.forall_mem_cons]
  refine ⟨fun v hv j hj => ?_, fun v hv j hj => ?_, fun v hv j hj => ?_, fun m hm => by cases hm⟩
  · obtain rfl : Value.string "A" = v := Option.some.inj hv
    exact absurd hj Value.Mentions.not_string
  · obtain rfl : Value.list [.string "x", .string "y"] = v := Option.some.inj hv
    simp [Value.mentions_list, Value.Mentions.not_string] at hj
  · obtain rfl : Value.list [.ref (.eager ⟨1⟩), .ref (.eager ⟨0⟩)] = v := Option.some.inj hv
    simp only [Value.mentions_list, List.mem_cons, List.not_mem_nil, or_false,
      exists_eq_or_imp, exists_eq_left,
      Value.mentions_ref] at hj
    exact Resource.older_of_not_isBlank n (hj.elim (hname 1 (by decide) j) (hname 0 (by decide) j))

/-- What has to hold once the first note is written. -/
def noteTest (g : Graph) (w₁ : World) : Bool :=
  (w₁.heap.id? ⟨0⟩ = some (.iri "http://ex/a") ∧ w₁.heap.id? ⟨1⟩ = some (.iri "http://ex/b")) ∧
    w₁.typeForClass noteBinding.classIri = some "Note" ∧
      g.Separates (.iri "http://ex/a") noteBinding

theorem fromGraph_toGraph_note : ∃ g w₁,
    noteWorld.Reachable noteSetting ∧
    noteSetting.config.languageAware = false ∧
    Renders noteSetting noteWorld ⟨0⟩ firstNote noteBinding (.iri "http://ex/a") g w₁ ∧
    w₁.typeForClass noteBinding.classIri = some "Note" ∧
    (noteSetting.schema.isA "Note" "Page" ∧ noteSetting.schema.carriesId "Page") ∧
    ∃ a w₂ copy, fromGraph noteSetting w₁.nextSource "Page" (.iri "http://ex/a")
      (w₁.attach { graph := g }) = .ok a w₂ ∧
      w₂.heap.record? a = some copy ∧ copy.type = "Note" ∧ copy.id = some (.iri "http://ex/a") ∧
      ∀ m ∈ noteBinding.members,
        w₂.heap.Agree (firstNote.get? noteSetting.schema m.name)
        (copy.get? noteSetting.schema m.name) := by
  obtain ⟨g, w₁, hwritten, htest⟩ :=
    Run.exists_ok (p := noteTest) (x := toGraph noteSetting ⟨0⟩ noteWorld) (by decide +kernel)
  obtain ⟨⟨hid, hid'⟩, hreg, hsep⟩ := of_decide_eq_true htest
  have hw : noteWorld.Reachable noteSetting := World.Reachable.initial.run noteOperations
  have hrenders : Renders noteSetting noteWorld ⟨0⟩ firstNote noteBinding
    (.iri "http://ex/a") g w₁ :=
    { record := rfl
      faithful := firstNote_faithful
      written := hwritten
      id := hid
      separates := hsep
      older := Resource.older_of_not_isBlank _ rfl
      mentions := firstNote_older _ fun i hi j hj => by
        obtain rfl | rfl : i = 0 ∨ i = 1 := by omega
        · cases hid.symm.trans hj
          rfl
        · cases hid'.symm.trans hj
          rfl }
  have ht : noteSetting.schema.isA "Note" "Page" ∧ noteSetting.schema.carriesId "Page" := by
    decide +kernel
  exact ⟨g, w₁, hw, rfl, hrenders, hreg, ht, fromGraph_toGraph hw rfl hrenders hreg
    (.inr ht) .unknown⟩

/-! ## A class that is lost while its record is written -/

/-- The class of one type is an IRI that reads as a compact one once the type of its member is
resolved. -/
def aliasSetting : Setting where
  config := { defaultLanguage := "en" }
  schema := { types := [
    { name := "Base", descriptor := { classIri := some "http://ex/Base" } },
    { name := "Sub"
      descriptor := {
        classIri := some "urn:Sub"
        parents := ["Base"]
        members := [
          { name := "friend"
            kind := .ref (some "Other")
            predicate := some "http://ex/friend" }] } },
    { name := "Other"
      descriptor := {
        classIri := some "http://ex/Other"
        namespaces := [("urn", "http://alias/")] } }] }

/-- The friend has no identifier yet. -/
def aliasOperations : List Operation :=
  [.init ["Base", "Sub"], .create "Other" none, .create "Sub" (some (.iri "http://ex/s")),
    .set ⟨1⟩ "friend" (.ref (.eager ⟨0⟩))]

def aliasWorld : World := (World.initial aliasSetting.config).run aliasSetting aliasOperations

def aliasBinding : TypeBinding where
  type := "Sub"
  classIri := "urn:Sub"
  namespaces := []
  idMember := none
  members := [
    { name := "friend", kind := .ref (some "Other"), predicate := "http://ex/friend",
      collection := false, ordered := false, language := none, lazy := false, xsdUri := false }]

def aliasRecord : Record where
  type := "Sub"
  id := some (.iri "http://ex/s")
  values := ⟨[("friend", .ref (.eager ⟨0⟩))]⟩

theorem aliasRecord_faithful : aliasRecord.Faithful aliasSetting aliasWorld aliasBinding where
  concrete := by decide +kernel
  bound := by decide +kernel
  plain := ⟨by decide, by decide⟩
  declared := by
    rw [aliasBinding, List.forall_mem_singleton]
    exact .inr ⟨_, rfl, .ref _ rfl (by decide +kernel), rfl⟩

theorem aliasRecord_older {name : Reference → Option Resource} (n : Nat)
    (hname : ∀ j, name (.eager ⟨0⟩) = some j → j.isBlank = false) :
    aliasRecord.Older aliasSetting name aliasBinding n := by
  rw [Record.Older, aliasBinding, List.forall_mem_singleton]
  intro v hv j hj
  obtain rfl : Value.ref (.eager ⟨0⟩) = v := Option.some.inj hv
  exact Resource.older_of_not_isBlank n (hname j (Value.mentions_ref.1 hj))

/-- The record reads back as one of the type that is asked for. -/
def aliasTest (g : Graph) (w₁ : World) : Bool :=
  w₁.heap.id? ⟨1⟩ = some (.iri "http://ex/s") ∧ w₁.heap.id? ⟨0⟩ = some (.generated 0) ∧
    Run.passes (fun a w₂ => w₂.heap.type? a = some "Base")
      (fromGraph aliasSetting w₁.nextSource "Base" (.iri "http://ex/s") (w₁.attach { graph := g }))

/-- **A record may read back as another type** although its class is registered for its own: a full
IRI is expanded again when it is looked up, and by then writing has made its scheme a prefix. This is
how a registered type is lost. -/
theorem fromGraph_toGraph_alias : ∃ g w₁,
    aliasWorld.Reachable aliasSetting ∧
    aliasSetting.config.languageAware = false ∧
    Renders aliasSetting aliasWorld ⟨1⟩ aliasRecord aliasBinding (.iri "http://ex/s") g w₁ ∧
    aliasWorld.typeForClass aliasBinding.classIri = some "Sub" ∧
    (aliasSetting.schema.isA "Sub" "Base" ∧ aliasSetting.schema.carriesId "Base") ∧
    ¬∃ a w₂ copy, fromGraph aliasSetting w₁.nextSource "Base" (.iri "http://ex/s")
      (w₁.attach { graph := g }) = .ok a w₂ ∧
      w₂.heap.record? a = some copy ∧ copy.type = "Sub" := by
  obtain ⟨g, w₁, hwritten, htest⟩ :=
    Run.exists_ok (p := aliasTest) (x := toGraph aliasSetting ⟨1⟩ aliasWorld) (by decide +kernel)
  obtain ⟨hid, hother, hread⟩ := of_decide_eq_true htest
  refine ⟨g, w₁, World.Reachable.initial.run aliasOperations, rfl, ?_, by decide +kernel,
    by decide +kernel, ?_⟩
  · exact
      { record := rfl
        faithful := aliasRecord_faithful
        written := hwritten
        id := hid
        separates := by
          rw [Graph.Separates, aliasBinding, List.forall_mem_singleton]
          exact fun hcol => by cases hcol
        older := Resource.older_of_not_isBlank _ rfl
        mentions := aliasRecord_older _ fun j hj => by
          cases hother.symm.trans hj
          rfl }
  · rintro ⟨a, w₂, copy, hrun, hcopy, hty⟩
    rw [hrun] at hread
    have htype := of_decide_eq_true hread
    unfold Heap.type? at htype
    rw [hcopy, Option.map_some, hty] at htype
    exact absurd htype (by decide)

end GraphMarshal
