import GraphMarshal.Proofs.Classes
import GraphMarshal.Proofs.Literals
import GraphMarshal.Proofs.Prefixes
import GraphMarshal.Proofs.Refinement
import GraphMarshal.Proofs.RoundTrip

/-!
# What counts for reading

Reading a resource of literals depends on its description as far as types and members make use of
it, and on that as a set: neither the order of triples nor how often one is stated counts, nor do
other predicates and other subjects. Single values come out equal, and the elements of a collection
are the same up to their order. Each step from the objects to the record is compared with the same
step on objects in another order. Members do not share a name, so that they can be compared one by
one.
-/

namespace GraphMarshal

/-! ## Traversals -/

theorem filterMap_of_mapM {ε α β : Type} {f : α → Except ε β} {l : List α} {bs : List β}
    (h : l.mapM f = .ok bs) : l.filterMap (fun a => (f a).toOption) = bs := by
  have hpairs := forall₂_of_mapM h
  clear h
  induction hpairs with
  | nil => rfl
  | @cons a b as bs hab _ ih =>
    rw [List.filterMap_cons, hab]
    exact congrArg (b :: ·) ih

/-! ## Computations that succeed together -/

/-- Two computations both succeed with related results, or both fail with errors of a kind. -/
inductive Parallel {ε α β : Type} (E : ε → Prop) (V : α → β → Prop) : Except ε α → Except ε β → Prop
  | ok {a : α} {b : β} : V a b → Parallel E V (.ok a) (.ok b)
  | error {e e' : ε} : E e → E e' → Parallel E V (.error e) (.error e')

namespace Parallel

variable {ε α β α' β' : Type} {E : ε → Prop} {V : α → β → Prop} {V' : α' → β' → Prop}

theorem map {x : Except ε α} {y : Except ε β} {f : α → α'} {g : β → β'} (h : Parallel E V x y)
    (hf : ∀ a b, V a b → V' (f a) (g b)) : Parallel E V' (x.map f) (y.map g) := by
  cases h with
  | ok hv => exact .ok (hf _ _ hv)
  | error he he' => exact .error he he'

theorem refl {V : α → α → Prop} (hV : ∀ a, V a a) (x : Except ε α) :
    Parallel (fun _ => True) V x x := by
  cases x with
  | ok a => exact .ok (hV a)
  | error e => exact .error trivial trivial

theorem mapM_perm {f : α → Except ε β} {l l' : List α} (h : l.Perm l')
    (hE : ∀ a ∈ l, ∀ e, f a = .error e → E e) : Parallel E List.Perm (l.mapM f) (l'.mapM f) := by
  -- Where one of them succeeds the other does not fail, since they have the same elements.
  have hmixed : ∀ {k k' : List α} {bs e}, (∀ a, a ∈ k' → a ∈ k) → k.mapM f = .ok bs →
      k'.mapM f ≠ .error e := fun hmem hk hk' => by
    obtain ⟨a, ha, he⟩ := exists_of_mapM_error hk'
    obtain ⟨b, -, hb⟩ := exists_of_forall₂_left (forall₂_of_mapM hk) (hmem a ha)
    exact absurd (hb.symm.trans he) nofun
  cases hl : l.mapM f with
  | ok bs =>
    cases hl' : l'.mapM f with
    | ok bs' =>
      rw [← filterMap_of_mapM hl, ← filterMap_of_mapM hl']
      exact .ok (h.filterMap _)
    | error e => exact absurd hl' (hmixed (fun _ => h.mem_iff.2) hl)
  | error e =>
    cases hl' : l'.mapM f with
    | ok bs' => exact absurd hl (hmixed (fun _ => h.mem_iff.1) hl')
    | error e' =>
      obtain ⟨a, ha, he⟩ := exists_of_mapM_error hl
      obtain ⟨a', ha', he'⟩ := exists_of_mapM_error hl'
      exact .error (hE a ha e he) (hE a' (h.mem_iff.2 ha') e' he')

end Parallel

/-! ## Objects as a set -/

theorem distinct_perm {objects objects' : List Term} (h : ∀ t, t ∈ objects' ↔ t ∈ objects) :
    (distinct objects).Perm (distinct objects') :=
  (List.perm_ext_iff_of_nodup (nodup_distinct _) (nodup_distinct _)).2 fun t => by
    rw [mem_distinct, mem_distinct, h t]

theorem preferLanguage_perm {ts ts' : List Term} (h : ts.Perm ts') (lang : String) :
    (preferLanguage lang ts).Perm (preferLanguage lang ts') := by
  have huntagged := h.filter fun t => t.language = none
  have htagged := h.filter fun t => t.language = some lang
  have hempty : ∀ {k k' : List Term}, k.Perm k' → k.isEmpty = k'.isEmpty := fun hk => by
    rw [Bool.eq_iff_iff, List.isEmpty_iff, List.isEmpty_iff]
    exact ⟨fun hnil => (hnil ▸ hk).symm.eq_nil, fun hnil => (hnil ▸ hk).eq_nil⟩
  unfold preferLanguage
  dsimp only
  rw [hempty huntagged, hempty htagged]
  split
  · exact huntagged
  · split
    · exact htagged
    · exact h

/-- Values of a collection: the same elements in another order. -/
inductive Value.Shuffled : Value → Value → Prop
  | list {vs vs' : List Value} : vs.Perm vs' → Shuffled (.list vs) (.list vs')

/-- The same value, or for a collection the same elements in another order. -/
def MemberBinding.Matches (m : MemberBinding) (o o' : Option Value) : Prop :=
  if m.collection then Option.Rel Value.Shuffled o o' else o' = o

namespace MemberBinding

variable {c : Config} {m : MemberBinding} {objects objects' : List Term}

theorem matches_single (hsingle : m.collection = false) {o o' : Option Value} :
    m.Matches o o' ↔ o' = o := by
  unfold Matches
  rw [if_neg (by rw [hsingle]; exact Bool.false_ne_true)]

theorem matches_collection (hcollection : m.collection) {o o' : Option Value} :
    m.Matches o o' ↔ Option.Rel Value.Shuffled o o' := by
  unfold Matches
  rw [if_pos hcollection]

theorem collected_perm (h : ∀ t, t ∈ objects' ↔ t ∈ objects) :
    (m.collected c objects).Perm (m.collected c objects') := by
  unfold collected
  split
  · exact (distinct_perm h).filter _
  · exact distinct_perm h

theorem candidates_perm (h : ∀ t, t ∈ objects' ↔ t ∈ objects) :
    (m.candidates c objects).Perm (m.candidates c objects') := by
  have hadmitted := (distinct_perm h).filter m.kind.admits
  unfold candidates
  dsimp only
  rw [hadmitted.any_eq]
  split
  · exact hadmitted
  · split
    · exact hadmitted.filter _
    · exact preferLanguage_perm hadmitted _

theorem literalValue_single (hsingle : m.collection = false)
    (h : ∀ t, t ∈ objects' ↔ t ∈ objects) :
    m.literalValue c objects' = m.literalValue c objects := by
  have hperm := candidates_perm (c := c) (m := m) h
  have hnot : ¬m.collection := by
    rw [hsingle]
    exact Bool.false_ne_true
  unfold literalValue
  rw [if_neg hnot, if_neg hnot]
  generalize m.candidates c objects = ts at hperm ⊢
  generalize m.candidates c objects' = ts' at hperm ⊢
  rcases ts with _ | ⟨t, _ | ⟨u, ts⟩⟩
  · rw [hperm.symm.eq_nil]
  · rw [List.perm_singleton.1 hperm.symm]
  · rcases ts' with _ | ⟨t', _ | ⟨u', ts'⟩⟩
    · exact absurd hperm.length_eq nofun
    · exact absurd hperm.length_eq (by simp)
    · dsimp only
      rw [hperm.length_eq]

theorem literalValue_collection (hcollection : m.collection)
    (h : ∀ t, t ∈ objects' ↔ t ∈ objects) :
    Parallel (fun _ => True) (Option.Rel Value.Shuffled) (m.literalValue c objects)
      (m.literalValue c objects') := by
  unfold literalValue
  rw [if_pos hcollection, if_pos hcollection]
  exact (Parallel.mapM_perm (collected_perm h) fun _ _ _ _ => trivial).map fun _ _ hvs =>
    .some (.list hvs)

end MemberBinding

/-! ## Storing -/

theorem Value.isMismatch_of_convert {h : Heap} {l : Option RecordRef} {k : Kind} {v : Value}
    {stop : Stop} (hv : v.IsAtom) (he : v.convert h l k = .error stop) :
    ∃ e, stop = .failed e ∧ e.isMismatch := by
  unfold convert at he
  split at he
  · exact hv.elim
  · split at he
    · cases he
    · cases he
      exact ⟨_, rfl, rfl⟩

theorem Value.Shuffled.convertList {h : Heap} {l : Option RecordRef} {k : Kind} {v v' : Value}
    (hv : v.Shuffled v') (hplain : v.IsPlain) :
    Parallel (fun stop => ∃ e, stop = .failed e ∧ e.isMismatch) Value.Shuffled
      (v.convertList h l k) (v'.convertList h l k) := by
  cases hv with
  | @list vs vs' hperm =>
    cases hplain with
    | atom hatom => exact hatom.elim
    | list hatoms =>
      have hitems := Parallel.mapM_perm hperm fun v hv e he =>
        isMismatch_of_convert (h := h) (l := l) (k := k) (hatoms v hv) he
      exact hitems.map fun _ _ => .list

theorem Value.Shuffled.convert {h : Heap} {l : Option RecordRef} {k : Kind} {v v' : Value}
    (hv : v.Shuffled v') :
    Parallel (fun stop => ∃ e, stop = .failed e ∧ e.isMismatch) Value.Shuffled (v.convert h l k)
      (v'.convert h l k) := by
  cases hv with
  | list hperm =>
    cases k with
    | any => exact .ok (.list hperm)
    | _ => exact .error ⟨_, rfl, rfl⟩ ⟨_, rfl, rfl⟩

theorem Value.Shuffled.kept (s : Schema) (ty : TypeName) (name : String) {v v' : Value}
    (hv : v.Shuffled v') (hplain : v.IsPlain) : ∃ mismatch : Bool,
      Parallel (fun stop => ∃ e, stop = .failed e ∧ e.isMismatch = mismatch) Value.Shuffled
        (s.kept ty name v) (s.kept ty name v') := by
  unfold Schema.kept
  split
  · split
    · exact ⟨true, .ok hv⟩
    · exact ⟨false, .error ⟨_, rfl, rfl⟩ ⟨_, rfl, rfl⟩⟩
  · split
    · unfold Record.accepted
      split
      · exact ⟨false, .error ⟨_, rfl, rfl⟩ ⟨_, rfl, rfl⟩⟩
      · exact ⟨false, .error ⟨_, rfl, rfl⟩ ⟨_, rfl, rfl⟩⟩
      · exact ⟨true, .ok hv⟩
      · split
        · exact ⟨true, hv.convertList hplain⟩
        · exact ⟨true, hv.convert⟩
    · exact ⟨false, .error ⟨_, rfl, rfl⟩ ⟨_, rfl, rfl⟩⟩

/-- **What a record keeps of the objects of a member** is the same for objects that are the same as
a set. -/
theorem MemberBinding.literalOutcome_matches (cx : Setting) (ty : TypeName) (id : Resource)
    (m : MemberBinding) {objects objects' : List Term} (h : ∀ t, t ∈ objects' ↔ t ∈ objects) :
    Parallel (fun _ => True) m.Matches (m.literalOutcome cx ty id objects)
      (m.literalOutcome cx ty id objects') := by
  cases hcollection : m.collection with
  | false =>
    unfold literalOutcome
    rw [literalValue_single hcollection h]
    exact Parallel.refl (fun _ => (matches_single hcollection).2 rfl) _
  | true =>
    have hvalue := literalValue_collection (c := cx.config) hcollection h
    have hplain : ∀ v, m.literalValue cx.config objects = .ok (some v) → v.IsPlain := fun v hv =>
      literalValue_isPlain hv
    unfold literalOutcome
    generalize m.literalValue cx.config objects = x at hvalue hplain ⊢
    generalize m.literalValue cx.config objects' = y at hvalue ⊢
    cases hvalue with
    | error => exact .error trivial trivial
    | ok hv =>
      cases hv with
      | none => exact .ok ((matches_collection hcollection).2 .none)
      | @some v v' hv =>
        obtain ⟨mismatch, hkept⟩ := hv.kept cx.schema ty m.name (hplain v rfl)
        dsimp only
        generalize cx.schema.kept ty m.name v = x at hkept ⊢
        generalize cx.schema.kept ty m.name v' = y at hkept ⊢
        cases hkept with
        | ok hu => exact .ok ((matches_collection hcollection).2 (.some hu))
        | error he he' =>
          obtain ⟨e, rfl, he⟩ := he
          obtain ⟨e', rfl, he'⟩ := he'
          dsimp only
          rw [he, he']
          cases mismatch with
          | true => exact .ok ((matches_collection hcollection).2 .none)
          | false => exact .error trivial trivial

/-! ## Records -/

theorem MemberBinding.Matches.unset (m : MemberBinding) : m.Matches none none := by
  unfold Matches
  split
  · exact .none
  · rfl

theorem MemberBinding.Matches.get? {s : Schema} {m : MemberBinding} {rec rec' : Record}
    {name : String} (htype : rec'.type = rec.type)
    (h : m.Matches (rec.values.get? name) (rec'.values.get? name)) :
    m.Matches (rec.get? s name) (rec'.get? s name) := by
  cases hcollection : m.collection with
  | false =>
    rw [matches_single hcollection] at h ⊢
    exact Record.get?_congr htype h
  | true =>
    rw [matches_collection hcollection] at h ⊢
    have hstored : ∀ collection, Option.Rel Value.Shuffled (rec.stored name collection)
        (rec'.stored name collection) := fun collection => by
      unfold Record.stored
      generalize rec.values.get? name = o at h ⊢
      generalize rec'.values.get? name = o' at h ⊢
      cases h with
      | some hv => exact .some hv
      | none =>
        cases collection with
        | true => exact .some (.list .nil)
        | false => exact .none
    unfold Record.get?
    rw [htype]
    split
    · exact hstored _
    · split
      · split
        · exact .none
        · exact hstored _
      · exact .none

section

variable {cx : Setting} {b : TypeBinding} {ty : TypeName} {id : Resource} {g g' : Graph}

namespace Engine

/-- Graphs say the same of a resource, as far as the members of a binding go, up to order and
multiplicity. -/
def SameObjects (b : TypeBinding) (id : Resource) (g g' : Graph) : Prop :=
  ∀ m ∈ b.members, ∀ o, o ∈ g'.objects id.toTerm m.predicate ↔ o ∈ g.objects id.toTerm m.predicate

theorem SameObjects.symm (h : SameObjects b id g g') : SameObjects b id g' g := fun m hm o =>
  (h m hm o).symm

theorem SameObjects.mem_predicatesOf (h : SameObjects b id g g') {m : MemberBinding}
    (hm : m ∈ b.members) (hp : m.predicate ∈ g'.predicatesOf id.toTerm) :
    m.predicate ∈ g.predicatesOf id.toTerm := by
  obtain ⟨o, ho⟩ := List.exists_mem_of_ne_nil _ (Graph.mem_predicatesOf.1 hp)
  exact Graph.mem_predicatesOf.2 (List.ne_nil_of_mem ((h m hm o).1 ho))

theorem takes_of_literalRecord {rec : Record} (hnames : (b.members.map (·.name)).Nodup)
    (h : literalRecord cx b ty id g = .ok rec) :
    Record.Takes cx b id (g.objects id.toTerm) (g.predicatesOf id.toTerm) (outlineRecord ty id)
      rec :=
  Record.takes_of_foldlM hnames (nodup_distinct _) h

theorem literalRecord_holds {rec : Record} (hnames : (b.members.map (·.name)).Nodup)
    (h : literalRecord cx b ty id g = .ok rec) {m : MemberBinding} (hm : m ∈ b.members) :
    (b.memberFor? m.predicate = some m ∧ m.predicate ∈ g.predicatesOf id.toTerm →
      m.literalOutcome cx ty id (g.objects id.toTerm m.predicate) =
        .ok (rec.values.get? m.name)) ∧
    (¬(b.memberFor? m.predicate = some m ∧ m.predicate ∈ g.predicatesOf id.toTerm) →
      rec.values.get? m.name = none) := by
  have htakes := takes_of_literalRecord hnames h
  refine ⟨fun ⟨hfor, hp⟩ => htakes.outcome _ hp m hfor rfl, fun hnot => ?_⟩
  refine htakes.others m.name fun p hp m' hm' hname => hnot ?_
  obtain rfl : m' = m :=
    List.inj_on_of_nodup_map hnames (List.mem_of_find?_eq_some hm') hm hname
  obtain rfl : m'.predicate = p := by simpa using List.find?_some hm'
  exact ⟨hm', hp⟩

/-- If literals cannot be taken, neither can others that are the same as a set. -/
theorem literalRecord_fails {e : Halt} (hnames : (b.members.map (·.name)).Nodup)
    (hobjects : SameObjects b id g g') (h : literalRecord cx b ty id g' = .error e) :
    ∃ e', literalRecord cx b ty id g = .error e' := by
  obtain ⟨p, hp, m, hfor, hfails⟩ := Record.exists_of_foldlM_error h
  have hm : m ∈ b.members := List.mem_of_find?_eq_some hfor
  obtain rfl : m.predicate = p := by simpa using List.find?_some hfor
  cases hrec : literalRecord cx b ty id g with
  | error e' => exact ⟨e', rfl⟩
  | ok rec =>
    have houtcome := (literalRecord_holds hnames hrec hm).1 ⟨hfor, hobjects.mem_predicatesOf hm hp⟩
    have hparallel := m.literalOutcome_matches cx ty id (hobjects m hm)
    rw [houtcome] at hparallel
    have hfails' : m.literalOutcome cx ty id (g'.objects id.toTerm m.predicate) = .error e := hfails
    rw [hfails'] at hparallel
    cases hparallel

/-- Records are the same up to the order of collections. -/
structure RecordMatches (b : TypeBinding) (rec rec' : Record) : Prop where
  type : rec'.type = rec.type
  id : rec'.id = rec.id
  values : ∀ m ∈ b.members, m.Matches (rec.values.get? m.name) (rec'.values.get? m.name)

/-- **The record that literals come to** depends on them as sets. -/
theorem literalRecord_matches (hnames : (b.members.map (·.name)).Nodup)
    (hobjects : SameObjects b id g g') :
    (∃ e e', literalRecord cx b ty id g = .error (.failed e) ∧
      literalRecord cx b ty id g' = .error (.failed e')) ∨
    ∃ rec rec', literalRecord cx b ty id g = .ok rec ∧ literalRecord cx b ty id g' = .ok rec' ∧
      RecordMatches b rec rec' := by
  cases h : literalRecord cx b ty id g with
  | error stop =>
    obtain ⟨stop', h'⟩ := literalRecord_fails hnames hobjects.symm h
    obtain ⟨e, rfl⟩ := failed_of_literalRecord h
    obtain ⟨e', rfl⟩ := failed_of_literalRecord h'
    exact .inl ⟨e, e', rfl, h'⟩
  | ok rec =>
    cases h' : literalRecord cx b ty id g' with
    | error stop' =>
      obtain ⟨stop, hfails⟩ := literalRecord_fails hnames hobjects h'
      rw [h] at hfails
      cases hfails
    | ok rec' =>
      have htakes := takes_of_literalRecord hnames h
      have htakes' := takes_of_literalRecord hnames h'
      refine .inr ⟨rec, rec', rfl, rfl, htakes'.type.trans htakes.type.symm,
        htakes'.id.trans htakes.id.symm, fun m hm => ?_⟩
      obtain ⟨hread, hunset⟩ := literalRecord_holds hnames h hm
      obtain ⟨hread', hunset'⟩ := literalRecord_holds hnames h' hm
      by_cases hused : b.memberFor? m.predicate = some m ∧ m.predicate ∈ g.predicatesOf id.toTerm
      · have hparallel := m.literalOutcome_matches cx ty id (hobjects m hm)
        rw [hread hused, hread' ⟨hused.1, hobjects.symm.mem_predicatesOf hm hused.2⟩] at hparallel
        cases hparallel
        assumption
      · -- Without objects, or behind another member of its predicate, it is unset in both.
        rw [hunset hused, hunset' fun h => hused ⟨h.1, hobjects.mem_predicatesOf hm h.2⟩]
        exact .unset m

end Engine

end

/-! ## Readings -/

/-- The classes that a graph gives a resource. -/
def Graph.classes (g : Graph) (id : Resource) : List String :=
  (g.objects id.toTerm Vocabulary.Rdf.type).filterMap Term.iri?

/-- What counts of a resource that is read as a type is the same in two graphs up to order and
multiplicity: its classes, and the objects that members of the type and of those that extend it are
read from, all of which are literals. -/
structure World.RelevantAgree (cx : Setting) (w : World) (ty : TypeName) (id : Resource)
    (g g' : Graph) : Prop where
  classes : ∀ o, o ∈ g'.objects id.toTerm Vocabulary.Rdf.type ↔
    o ∈ g.objects id.toTerm Vocabulary.Rdf.type
  objects : ∀ t b, cx.schema.isA t ty → w.bindings.get? t = some b → Engine.SameObjects b id g g'
  literal : ∀ t b, cx.schema.isA t ty → w.bindings.get? t = some b → ∀ m ∈ b.members,
    ∀ o ∈ g.objects id.toTerm m.predicate, o.isLiteral

namespace Engine

variable {cx : Setting} {w w' : World} {ty : TypeName} {id : Resource} {g g' : Graph}

theorem describe_memory (g : Graph) (d : Dialect) (id : Resource) :
    ({ graph := g, dialect := d } : Memory).toSource.describe id =
      .ok (g.description id.toTerm) := rfl

theorem settledType_relevant (source source' : SourceRef)
    (hnamespaces : w'.namespaces = w.namespaces) (hclasses : w'.classes = w.classes)
    (hsame : ∀ o, o ∈ g'.objects id.toTerm Vocabulary.Rdf.type ↔
      o ∈ g.objects id.toTerm Vocabulary.Rdf.type)
    (hacyclic : ∀ a b, cx.schema.Asserts w.typeForClass ty (g.classes id) a →
      cx.schema.Asserts w.typeForClass ty (g.classes id) b →
      cx.schema.isA a b → cx.schema.isA b a → a = b)
    (hcomparable : ∀ a b, cx.schema.Asserts w.typeForClass ty (g.classes id) a →
      cx.schema.Asserts w.typeForClass ty (g.classes id) b →
      cx.schema.isA a b ∨ cx.schema.isA b a) :
    settledType cx w' ⟨source', id, g'.description id.toTerm⟩ ty =
      settledType cx w ⟨source, id, g.description id.toTerm⟩ ty := by
  have hfor : w'.typeForClass = w.typeForClass := by
    unfold World.typeForClass
    rw [hnamespaces, hclasses]
  have hiris : ∀ iri, iri ∈ g'.classes id ↔ iri ∈ g.classes id := fun iri => by
    unfold Graph.classes
    simp only [List.mem_filterMap, hsame]
  have hrefinement := Schema.refinement_congr hacyclic hcomparable hiris
  unfold settledType Reading.subject
  dsimp only
  rw [Graph.objects_description (g'.mem_reach_self id.toTerm),
    Graph.objects_description (g.mem_reach_self id.toTerm), hfor]
  unfold Graph.classes at hrefinement
  rw [hrefinement]

/-- **Reading depends on what counts**: two readings of a resource as a registered type, in worlds
with the same registrations and from sources in memory that agree on what counts of it, both fail or
both give a record of the same type, with equal single values and with collections of the same
elements. The types that the resource asserts besides have to be comparable, so that one of them
extends the others. -/
theorem fromGraph_relevant (hw : w.Reachable cx) (hw' : w'.Reachable cx)
    (hnamespaces : w'.namespaces = w.namespaces) (hclasses : w'.classes = w.classes)
    (hbindings : w'.bindings = w.bindings) {d d' : Dialect} {source source' : SourceRef}
    (hsource : w.source source = ({ graph := g, dialect := d } : Memory).toSource)
    (hsource' : w'.source source' = ({ graph := g', dialect := d' } : Memory).toSource)
    (hty : w.Registers ty) (hagree : w.RelevantAgree cx ty id g g')
    (hacyclic : ∀ a b, cx.schema.Asserts w.typeForClass ty (g.classes id) a →
      cx.schema.Asserts w.typeForClass ty (g.classes id) b →
      cx.schema.isA a b → cx.schema.isA b a → a = b)
    (hcomparable : ∀ a b, cx.schema.Asserts w.typeForClass ty (g.classes id) a →
      cx.schema.Asserts w.typeForClass ty (g.classes id) b →
      cx.schema.isA a b ∨ cx.schema.isA b a) :
    (∃ e w₁ e' w₁', fromGraph cx source ty id w = .error (.failed e) w₁ ∧
      fromGraph cx source' ty id w' = .error (.failed e') w₁') ∨
    ∃ r w₁ rec r' w₁' rec' b, fromGraph cx source ty id w = .ok r w₁ ∧
      fromGraph cx source' ty id w' = .ok r' w₁' ∧
      w₁.heap.record? r = some rec ∧ w₁'.heap.record? r' = some rec' ∧
      rec'.type = rec.type ∧ rec'.id = rec.id ∧ w.bindings.get? rec.type = some b ∧
      ∀ m ∈ b.members, m.Matches (rec.get? cx.schema m.name) (rec'.get? cx.schema m.name) := by
  have hsettled := settledType_relevant source source' hnamespaces hclasses hagree.classes hacyclic
    hcomparable
  obtain ⟨t, ht⟩ : ∃ t, t = settledType cx w ⟨source, id, g.description id.toTerm⟩ ty := ⟨_, rfl⟩
  rw [← ht] at hsettled
  have hisA : cx.schema.isA t ty := ht ▸ settledType_isA cx w _ ty
  have hregistered : w.Registers t := ht ▸ registers_settledType _ hty
  obtain ⟨b, hb⟩ := hw.bound hregistered
  have hslot : cx.schema.carriesId ty := hw.carriesId hty
  have hobjects : ∀ (g : Graph) (p : String),
      (g.description id.toTerm).objects id.toTerm p = g.objects id.toTerm p := fun g p =>
    Graph.objects_description (g.mem_reach_self id.toTerm) p
  -- Each source describes the resource by its own triples and more, which are not looked at.
  have hsame : SameObjects b id (g.description id.toTerm) (g'.description id.toTerm) := by
    intro m hm o
    rw [hobjects, hobjects]
    exact hagree.objects t b hisA hb m hm o
  have hread := fromGraph_literals (hw.stable.idle id) hslot
    ((congrArg (·.describe id) hsource).trans (describe_memory g d id)) (ht ▸ hb)
    fun m hm o ho => hagree.literal t b hisA hb m hm o (hobjects g _ ▸ ho)
  have hread' := fromGraph_literals (hw'.stable.idle id) hslot
    ((congrArg (·.describe id) hsource').trans (describe_memory g' d' id))
    (hsettled.symm ▸ hbindings.symm ▸ hb)
    fun m hm o ho => by
      rw [hobjects] at ho
      exact hagree.literal t b hisA hb m hm o ((hagree.objects t b hisA hb m hm o).1 ho)
  have hnames := hw.stable.sound.names hb
  rw [← ht] at hread
  rw [hsettled] at hread'
  obtain ⟨e, e', hrec, hrec'⟩ | ⟨rec, rec', hrec, hrec', hmatches⟩ :=
    @literalRecord_matches cx b t id _ _ hnames hsame
  · rw [hrec] at hread
    rw [hrec'] at hread'
    obtain ⟨w₁, hrun⟩ := hread
    obtain ⟨w₁', hrun'⟩ := hread'
    exact .inl ⟨e, w₁, e', w₁', hrun, hrun'⟩
  · have htype : rec.type = t := (takes_of_literalRecord hnames hrec).type
    rw [hrec] at hread
    rw [hrec'] at hread'
    obtain ⟨r, w₁, hrun, hr⟩ := hread
    obtain ⟨r', w₁', hrun', hr'⟩ := hread'
    refine .inr ⟨r, w₁, rec, r', w₁', rec', b, hrun, hrun', hr, hr', hmatches.type, hmatches.id,
      htype ▸ hb, fun m hm => ?_⟩
    exact (hmatches.values m hm).get? hmatches.type

/-- Persons with a name and tags, students among them, and tutors among these. -/
def pupilSetting : Setting where
  config := { defaultLanguage := "en" }
  schema := { types := [
    { name := "Person"
      descriptor := {
        classIri := some "urn:Person"
        members := [
          { name := "name", kind := .string, predicate := some "urn:name" },
          { name := "tags", kind := .string, predicate := some "urn:tag", collection := true }] } },
    { name := "Student"
      descriptor := { classIri := some "urn:Student", inherits := true, parents := ["Person"] } },
    { name := "Tutor"
      descriptor := {
        classIri := some "urn:Tutor", inherits := true, parents := ["Student"]
        members := [{ name := "year", kind := .int, predicate := some "urn:year" }] } }] }

def pupilGraph : Graph := .ofTriples
  [⟨.iri "urn:a", .iri Vocabulary.Rdf.type, .iri "urn:Student"⟩,
    ⟨.iri "urn:a", .iri Vocabulary.Rdf.type, .iri "urn:Tutor"⟩,
    ⟨.iri "urn:a", .iri "urn:name", .string "Ann"⟩,
    ⟨.iri "urn:a", .iri "urn:tag", .string "chess"⟩,
    ⟨.iri "urn:a", .iri "urn:tag", .string "go"⟩]

/-- The same in another order, some of it twice, with a remark and another person. -/
def shuffledGraph : Graph := .ofTriples
  [⟨.iri "urn:b", .iri "urn:name", .string "Bob"⟩,
    ⟨.iri "urn:a", .iri "urn:tag", .string "go"⟩,
    ⟨.iri "urn:a", .iri Vocabulary.Rdf.type, .iri "urn:Tutor"⟩,
    ⟨.iri "urn:a", .iri "urn:tag", .string "chess"⟩,
    ⟨.iri "urn:a", .iri "urn:tag", .string "go"⟩,
    ⟨.iri "urn:a", .iri "urn:remark", .iri "urn:b"⟩,
    ⟨.iri "urn:a", .iri "urn:name", .string "Ann"⟩,
    ⟨.iri "urn:a", .iri Vocabulary.Rdf.type, .iri "urn:Student"⟩]

/-- A world that reads from both. -/
def pupilWorld : World := (World.initial pupilSetting.config).run pupilSetting
  [.init ["Person", "Student", "Tutor"], .attach ({ graph := pupilGraph } : Memory).toSource,
    .attach ({ graph := shuffledGraph } : Memory).toSource]

theorem pupil_agree : pupilWorld.RelevantAgree pupilSetting "Person" (.iri "urn:a") pupilGraph
    shuffledGraph := by
  have hobjects : ∀ e ∈ pupilWorld.bindings.entries, ∀ m ∈ e.2.members,
      (∀ o ∈ shuffledGraph.objects (.iri "urn:a") m.predicate,
        o ∈ pupilGraph.objects (.iri "urn:a") m.predicate) ∧
      ∀ o ∈ pupilGraph.objects (.iri "urn:a") m.predicate,
        o ∈ shuffledGraph.objects (.iri "urn:a") m.predicate ∧ o.isLiteral := by
    decide +kernel
  have hclasses : (∀ o ∈ shuffledGraph.objects (.iri "urn:a") Vocabulary.Rdf.type,
      o ∈ pupilGraph.objects (.iri "urn:a") Vocabulary.Rdf.type) ∧
      ∀ o ∈ pupilGraph.objects (.iri "urn:a") Vocabulary.Rdf.type,
        o ∈ shuffledGraph.objects (.iri "urn:a") Vocabulary.Rdf.type := by
    decide +kernel
  refine ⟨fun o => ⟨hclasses.1 o, hclasses.2 o⟩, fun t b _ hb m hm o => ?_,
    fun t b _ hb m hm o ho => ?_⟩
  · obtain ⟨h, h'⟩ := hobjects _ (Table.mem_of_get? hb) m hm
    exact ⟨h o, fun ho => (h' o ho).1⟩
  · exact ((hobjects _ (Table.mem_of_get? hb) m hm).2 o ho).2

theorem pupil_asserted {t : TypeName} (h : pupilSetting.schema.Asserts pupilWorld.typeForClass
    "Person" (pupilGraph.classes (.iri "urn:a")) t) : t ∈ ["Student", "Tutor"] := by
  obtain ⟨⟨iri, hiri, hfor⟩, -, -⟩ := h
  have hclasses : ∀ iri ∈ pupilGraph.classes (.iri "urn:a"),
      ∀ t ∈ pupilWorld.typeForClass iri, t ∈ ["Student", "Tutor"] := by
    decide +kernel
  exact hclasses iri hiri t hfor

/-- Both sources give a tutor of the same name and with the same tags. -/
theorem fromGraph_relevant_pupil : pupilWorld.Reachable pupilSetting ∧
    pupilWorld.Registers "Person" ∧
    pupilWorld.RelevantAgree pupilSetting "Person" (.iri "urn:a") pupilGraph shuffledGraph ∧
    ∃ r w₁ rec r' w₁' rec' b,
      fromGraph pupilSetting ⟨0⟩ "Person" (.iri "urn:a") pupilWorld = .ok r w₁ ∧
      fromGraph pupilSetting ⟨1⟩ "Person" (.iri "urn:a") pupilWorld = .ok r' w₁' ∧
      w₁.heap.record? r = some rec ∧ w₁'.heap.record? r' = some rec' ∧
      rec.type = "Tutor" ∧ rec'.type = "Tutor" ∧ pupilWorld.bindings.get? "Tutor" = some b ∧
      ∀ m ∈ b.members, m.Matches (rec.get? pupilSetting.schema m.name)
        (rec'.get? pupilSetting.schema m.name) := by
  have hreach : pupilWorld.Reachable pupilSetting := World.Reachable.initial.run _
  have hregistered : pupilWorld.Registers "Person" := ⟨"urn:Person", by decide +kernel⟩
  have hrun : Run.passes (fun r w => decide (w.heap.type? r = some "Tutor"))
      (fromGraph pupilSetting ⟨0⟩ "Person" (.iri "urn:a") pupilWorld) := by decide +kernel
  obtain ⟨r₀, w₀, hok, htutor⟩ := Run.exists_ok hrun
  have htutor := of_decide_eq_true htutor
  refine ⟨hreach, hregistered, pupil_agree, ?_⟩
  have hsource : pupilWorld.source ⟨0⟩ = ({ graph := pupilGraph } : Memory).toSource := rfl
  have hsource' : pupilWorld.source ⟨1⟩ = ({ graph := shuffledGraph } : Memory).toSource := rfl
  have hacyclic : ∀ a ∈ ["Student", "Tutor"], ∀ b ∈ ["Student", "Tutor"],
      pupilSetting.schema.isA a b → pupilSetting.schema.isA b a → a = b := by
    decide +kernel
  have hcomparable : ∀ a ∈ ["Student", "Tutor"], ∀ b ∈ ["Student", "Tutor"],
      pupilSetting.schema.isA a b ∨ pupilSetting.schema.isA b a := by
    decide +kernel
  rcases fromGraph_relevant hreach hreach rfl rfl rfl hsource hsource' hregistered pupil_agree
      (fun a b ha hb => hacyclic a (pupil_asserted ha) b (pupil_asserted hb))
      (fun a b ha hb => hcomparable a (pupil_asserted ha) b (pupil_asserted hb)) with
    ⟨e, w₁, -, -, hfails, -⟩ |
    ⟨r, w₁, rec, r', w₁', rec', b, hread, hread', hr, hr', htype, -, hb, hm⟩
  · exact absurd (hok.symm.trans hfails) nofun
  · obtain ⟨rfl, rfl⟩ : r₀ = r ∧ w₀ = w₁ := by
      have heq := hok.symm.trans hread
      cases heq
      exact ⟨rfl, rfl⟩
    have hrec : rec.type = "Tutor" := by
      rw [Heap.type?, hr] at htutor
      exact Option.some.inj htutor
    exact ⟨r₀, w₀, rec, r', w₁', rec', b, hread, hread', hr, hr', hrec, htype.trans hrec,
      hrec ▸ hb, hm⟩

end Engine

end GraphMarshal
