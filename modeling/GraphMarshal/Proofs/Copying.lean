import GraphMarshal.Proofs.Copies
import Mathlib.Data.List.Nodup

/-!
# Reading gives copies

A pass reads from one source what was written for some original records, each found by its
identifier. While it runs, the records under construction are records of the pass, and every record
that is complete is a copy of its original (`Pass.Step`). So the value of a member is a copy of the
original value once the nodes that its objects name can be read (`memberValue_copies`), and the
record made for an original is a copy of it (`readWithin_copies`).
-/

namespace GraphMarshal

open Engine Vocabulary

structure Pass where
  source : SourceRef
  /-- The world in which the pass starts. -/
  start : World
  /-- What the source holds. -/
  graph : Graph
  /-- The original records, by their identifiers, with the bindings of their types. -/
  original : Resource → Option (Record × TypeBinding)
  /-- The resources that the references of the originals name. -/
  name : Reference → Option Resource

namespace Pass

variable (cx : Setting) (P : Pass)

def src : Source := P.start.source P.source

/-- Records of the pass are those from here on. -/
def base : Nat := P.start.heap.records.size

/-- Whether a resource can be read as a record of a type: as an original of the type or one that
extends it, or because nothing is known about it. -/
def Readable (target : TypeName) (j : Resource) : Prop :=
  cx.schema.carriesId target ∧
    ((∃ rec b, P.original j = some (rec, b) ∧ (target = rec.type ∨ cx.schema.isA rec.type target)) ∨
      P.graph.hasSubject j.toTerm = false)

/-- Whether a member of the record of `k` may refer to a resource: to `k` itself, or to one that can
be read. -/
def Allows (k : Resource) (target : TypeName) (j : Resource) : Prop :=
  j = k ∨ P.Readable cx target j

/-- What the source has to hold of an original. -/
structure Holds (k : Resource) (rec : Record) (b : TypeBinding) : Prop where
  hasSubject : P.graph.hasSubject k.toTerm
  classes : P.graph.objects k.toTerm Rdf.type = [.iri b.classIri]
  registered : P.start.typeForClass b.classIri = some rec.type
  bound : P.start.bindings.get? rec.type = some b
  concrete : cx.schema.isAbstract rec.type = false
  carriesId : cx.schema.carriesId rec.type
  names : (b.members.map (·.name)).Nodup
  predicates : (b.members.map (·.predicate)).Nodup
  untyped : ∀ m ∈ b.members, m.predicate ≠ Rdf.type
  shown : ∀ m ∈ b.members, ∀ v, rec.written cx.schema m.name = some v →
    Shown P.name (P.Allows cx k) m (P.graph.description k.toTerm)
      (P.graph.objects k.toTerm m.predicate) v
  hidden : ∀ m ∈ b.members, rec.written cx.schema m.name = none →
    P.graph.objects k.toTerm m.predicate = []
  kept : ∀ m ∈ b.members, ∀ v, rec.written cx.schema m.name = some v →
    ∃ f, cx.schema.field? rec.type m.name = some f ∧ f.Keeps v

/-- What a pass may rely on. -/
structure Valid : Prop where
  described : ∀ k, P.src.describe k = .ok (P.graph.description k.toTerm)
  queried : ∀ q, ∃ e, P.src.query q = .error (.unsupported e)
  languages : cx.config.languageAware = false
  holds : ∀ {k rec b}, P.original k = some (rec, b) → P.Holds cx k rec b

/-- The values that a record stores for the members of an original are copies of what the original
has written. -/
def CopiesMember (h : Heap) (rec : Record) (vals : Table String Value) (m : MemberBinding) : Prop :=
  match rec.written cx.schema m.name with
  | some v => ∃ v', vals.get? m.name = some v' ∧ Copy P.name P.base P.source m h v v'
  | none => vals.get? m.name = none

/-- The record at a place is a copy of the original with its identifier. -/
def Complete (h : Heap) (a : RecordRef) : Prop :=
  ∀ k rec b, h.id? a = some k → P.original k = some (rec, b) →
    ∃ vals, h.record? a = some { type := rec.type, id := some k, values := vals } ∧
      ∀ m ∈ b.members, P.CopiesMember cx h rec vals m

/-- What happens during a pass: records are added, and they are complete. -/
structure Step (w w' : World) : Prop where
  extended : w.Extends w'
  names : w'.namespaces = w.namespaces
  complete : ∀ a : RecordRef, w.heap.records.size ≤ a.index → a.index < w'.heap.records.size →
    P.Complete cx w'.heap a

variable {cx P}

theorem CopiesMember.imp {h h' : Heap} {rec : Record} {vals : Table String Value}
    {m : MemberBinding} (hc : P.CopiesMember cx h rec vals m)
    (hn : ∀ {target k x}, h.Names P.base P.source target k x →
      h'.Names P.base P.source target k x) :
    P.CopiesMember cx h' rec vals m := by
  unfold CopiesMember at hc ⊢
  split at hc
  · obtain ⟨v', hv', hcopy⟩ := hc
    exact ⟨v', hv', hcopy.imp hn⟩
  · exact hc

theorem CopiesMember.fills {w w' : World} {r : RecordRef} {rec : Record} {vals : Table String Value}
    {m : MemberBinding} (hc : P.CopiesMember cx w.heap rec vals m) (h : w.Fills r w') :
    P.CopiesMember cx w'.heap rec vals m :=
  hc.imp fun hn => hn.fills h

theorem Complete.fills {w w' : World} {r a : RecordRef} (hc : P.Complete cx w.heap a)
    (h : w.Fills r w') (har : a ≠ r) (hlt : a.index < w.heap.records.size) :
    P.Complete cx w'.heap a := by
  intro k rec b hid horig
  obtain ⟨cur, hcur⟩ := Heap.exists_record? hlt
  have hcur' := h.record har hcur
  have hid' : w.heap.id? a = some k := by
    unfold Heap.id? at hid ⊢
    rw [hcur'] at hid
    rw [hcur]
    exact hid
  obtain ⟨vals, hrec, hm⟩ := hc k rec b hid' horig
  exact ⟨vals, h.record har hrec, fun m hmem => (hm m hmem).fills h⟩

theorem Step.refl (w : World) : P.Step cx w w where
  extended := .refl w
  names := rfl
  complete _ h h' := absurd h' (Nat.not_lt.2 h)

theorem Complete.extends {w w' : World} {a : RecordRef} (hc : P.Complete cx w.heap a)
    (h : w.Extends w') (hlt : a.index < w.heap.records.size) : P.Complete cx w'.heap a := by
  refine hc.fills (r := ⟨w.heap.records.size⟩) (.of_extends h) (fun heq => ?_) hlt
  rw [heq] at hlt
  exact Nat.lt_irrefl _ hlt

theorem Step.trans {w₁ w₂ w₃ : World} (h : P.Step cx w₁ w₂) (h' : P.Step cx w₂ w₃) :
    P.Step cx w₁ w₃ where
  extended := h.extended.trans h'.extended
  names := h'.names.trans h.names
  complete a hlo hhi := by
    by_cases ha : a.index < w₂.heap.records.size
    · exact Complete.extends (h.complete a hlo ha) h'.extended ha
    · exact h'.complete a (Nat.not_lt.1 ha) hhi

theorem Step.log (w : World) (c : SourceRef × SourceCall) :
    P.Step cx w { w with calls := c :: w.calls } where
  extended := .log w c
  names := rfl
  complete _ h h' := absurd h' (Nat.not_lt.2 h)

variable (cx P) in
/-- Runs of a pass: they succeed. -/
def copying : Contract where
  step := P.Step cx
  halt _ := False
  compared _ := True
  refl := .refl
  trans := .trans
  log := .log
  back _ _ := trivial

/-! ## Members -/

variable (cx P) in
/-- What reading the members of the record of `k` may rely on, in the worlds in `R`. -/
structure Reads (k : Resource) (rd : Reading) (read : Reader) (R : World → Prop) : Prop where
  valid : P.Valid cx
  id : rd.id = k
  graph : rd.graph = P.graph.description k.toTerm
  step : ∀ {w w'}, R w → P.Step cx w w' → R w'
  origin : rd.source = P.source
  source : ∀ {w}, R w → w.source P.source = P.src
  read : ∀ {w}, R w → ∀ target j, P.Allows cx k target j → j ∈ P.src.nodes →
    (P.copying cx).Keeps (read target j) (read target j)
      (fun a w' => P.base ≤ a.index ∧ w'.heap.id? a = some j) w

section

variable {k : Resource} {rd : Reading} {read : Reader} {R : World → Prop}
    {m : MemberBinding} {w : World}

variable {t : Term} {ts objects : List Term} {v : Value} {vs : List Value}

theorem Reads.src_nodes (h : P.Reads cx k rd read R) :
    ∀ n ∈ rd.graph.objectResources, n ∈ P.src.nodes :=
  P.src.describe_nodes k rd.graph (h.graph ▸ h.valid.described k)

theorem allocCell_copies {j : Resource} {target : TypeName} {source : SourceRef} :
    (P.copying cx).Keeps (Run.allocCell { target, id := j, source })
      (Run.allocCell { target, id := j, source })
      (fun c w' => w'.heap.Names P.base source target j (.lazy c)) w := by
  refine .allocCell ⟨.allocCell w _, rfl, fun _ h h' => absurd h' (Nat.not_lt.2 h)⟩ ?_
  refine .lazy (Heap.cell?_allocCell_next w.heap _) rfl rfl rfl fun a ha => ?_
  cases ha

theorem related_copies (h : P.Reads cx k rd read R) (hw : R w) {r : Reference} {target : TypeName}
    {j : Resource} (hk : m.kind = .ref (some target)) (hname : P.name r = some j)
    (hj : P.Allows cx k target j) (hn : j ∈ P.src.nodes) :
    (P.copying cx).Keeps (related cx read rd m target j) (related cx read rd m target j)
      (fun o w' => ∃ v', o = some v' ∧ CopyOne P.name P.base P.source m w'.heap (.ref r) v') w := by
  unfold related
  split
  · next hlazy =>
    refine .bind allocCell_copies fun c w₁ _ hc => ?_
    rw [h.origin] at hc
    exact .pure ⟨_, rfl, .ref hk hname hc fun hl => by rw [hl] at hlazy; cases hlazy⟩
  · refine .bind (.attempt (h.read hw target j hj hn).failing) fun a w₁ _ ha => ?_
    cases a with
    | ok a => exact .pure ⟨_, rfl, .ref hk hname (.eager ha.1 ha.2) fun _ => ⟨a, rfl⟩⟩
    | error e => exact ha.elim

theorem termValue_copies (h : P.Reads cx k rd read R) (hw : R w)
    (hd : Denotes P.name (P.Allows cx k) m t v) (ht : P.src.Knows t) :
    (P.copying cx).Keeps (termValue cx read rd m t) (termValue cx read rd m t)
      (fun o w' => ∃ v', o = some v' ∧ CopyOne P.name P.base P.source m w'.heap v v') w := by
  unfold termValue
  cases hd with
  | literal hlit _ hdec hatom =>
    have hnone : Resource.ofTerm? t = none := by
      cases t with
      | literal s d tag => rfl
      | iri i => cases hlit
      | blank l => cases hlit
    rw [hnone, hdec]
    exact .pure ⟨v, rfl, .atom hatom⟩
  | uri u hk =>
    show (P.copying cx).Keeps (nodeValue cx read rd m (.iri u)) _ _ w
    unfold nodeValue
    rw [hk]
    exact .pure ⟨_, rfl, .atom trivial⟩
  | resource j hk =>
    rw [Resource.ofTerm?_toTerm]
    unfold nodeValue
    rw [hk]
    exact .pure ⟨_, rfl, .atom trivial⟩
  | ref j hk hname hj =>
    have hn := ht j (Resource.ofTerm?_toTerm j)
    rw [Resource.ofTerm?_toTerm]
    unfold nodeValue
    rw [hk]
    exact related_copies h hw hk hname hj hn

theorem element_copies (h : P.Reads cx k rd read R) (hw : R w)
    (hd : Denotes P.name (P.Allows cx k) m t v) (ht : P.src.Knows t) :
    (P.copying cx).Keeps (element cx read rd m t) (element cx read rd m t)
      (fun v' w' => CopyOne P.name P.base P.source m w'.heap v v') w := by
  refine .bind (termValue_copies h hw hd ht) fun o w₁ _ ho => ?_
  obtain ⟨v', rfl, hc⟩ := ho
  exact .pure hc

theorem elements_copies (h : P.Reads cx k rd read R) (hw : R w)
    (hd : List.Forall₂ (Denotes P.name (P.Allows cx k) m) ts vs) (ht : ∀ t ∈ ts, P.src.Knows t) :
    (P.copying cx).Keeps (ts.mapM (element cx read rd m)) (ts.mapM (element cx read rd m))
      (fun vs' w' => List.Forall₂ (CopyOne P.name P.base P.source m w'.heap) vs vs') w := by
  induction hd generalizing w with
  | nil => exact .pure .nil
  | cons hd hds ih =>
    rw [List.forall_mem_cons] at ht
    rw [List.mapM_cons]
    refine .bind (element_copies h hw hd ht.1) fun v' w₁ h₁ hc => ?_
    refine .bind (ih (h.step hw h₁) ht.2) fun vs' w₂ h₂ hcs => ?_
    exact .pure (.cons (hc.fills (.of_extends (r := ⟨0⟩) h₂.extended)) hcs)

/-! ## Collections -/

theorem listElements_none (h : P.Reads cx k rd read R) (hw : R w) (ht : rd.graph.isList t = false) :
    (P.copying cx).Keeps (listElements rd m t) (listElements rd m t) (fun o _ => o = none) w := by
  unfold listElements
  rw [if_neg (by rw [ht]; decide)]
  split
  · exact .pure rfl
  · refine .bind (V := fun _ _ => True) (.bind .get fun _ _ _ _ => .pure trivial)
      fun d w₁ h₁ _ => ?_
    refine .bind (.query rd.source _) fun a w₂ _ ha => ?_
    obtain ⟨e, he⟩ := h.valid.queried (d.listQuery rd.id m.predicate)
    rw [h.origin, h.source (h.step hw h₁), he] at ha
    subst ha
    exact .pure rfl

theorem bagElement_copies (h : P.Reads cx k rd read R) (hw : R w)
    (hd : Denotes P.name (P.Allows cx k) m t v) (ht : P.src.Knows t) (hnil : t.isNil = false)
    (hlist : rd.graph.isList t = false) :
    (P.copying cx).Keeps (elementsOf cx read rd m t) (elementsOf cx read rd m t)
      (fun vs' w' => List.Forall₂ (CopyOne P.name P.base P.source m w'.heap) [v] vs') w := by
  have single : ∀ {w₁}, R w₁ → (P.copying cx).Keeps ([t].mapM (element cx read rd m))
      ([t].mapM (element cx read rd m))
      (fun vs' w' => List.Forall₂ (CopyOne P.name P.base P.source m w'.heap) [v] vs') w₁ :=
        fun hw₁ =>
    elements_copies h hw₁ (.cons hd .nil) (by simpa using ht)
  unfold elementsOf
  rw [if_neg (by rw [hnil]; decide)]
  split
  · refine .bind (listElements_none h hw hlist) fun o w₁ h₁ ho => ?_
    subst ho
    exact single (h.step hw h₁)
  · exact single hw

theorem chainElements_copies (h : P.Reads cx k rd read R) (hw : R w) (hnil : t.isNil = false)
    (hres : t.isResource) (hitems : rd.graph.listItems t = some ts)
    (hd : List.Forall₂ (Denotes P.name (P.Allows cx k) m) ts vs) :
    (P.copying cx).Keeps (elementsOf cx read rd m t) (elementsOf cx read rd m t)
      (fun vs' w' => List.Forall₂ (CopyOne P.name P.base P.source m w'.heap) vs vs') w := by
  unfold elementsOf listElements
  rw [if_neg (by rw [hnil]; decide), if_pos hres, if_pos (Graph.isList_of_listItems hitems), hitems]
  refine elements_copies h hw hd fun u hu n hn => ?_
  exact h.src_nodes n (Graph.mem_objectResources_of_listItems hitems hu hn)

theorem bag_copies (h : P.Reads cx k rd read R) (hw : R w)
    (hd : List.Forall₂ (Denotes P.name (P.Allows cx k) m) ts vs)
    (ht : ∀ t ∈ ts, P.src.Knows t ∧ t.isNil = false ∧ rd.graph.isList t = false) :
    (P.copying cx).Keeps (ts.mapM (elementsOf cx read rd m)) (ts.mapM (elementsOf cx read rd m))
      (fun parts w' => List.Forall₂ (CopyOne P.name P.base P.source m w'.heap) vs
      parts.flatten) w := by
  induction hd generalizing w with
  | nil => exact .pure .nil
  | cons hd hds ih =>
    rw [List.forall_mem_cons] at ht
    rw [List.mapM_cons]
    refine .bind (bagElement_copies h hw hd ht.1.1 ht.1.2.1 ht.1.2.2) fun vs' w₁ h₁ hc => ?_
    refine .bind (ih (h.step hw h₁) ht.2) fun parts w₂ h₂ hcs => ?_
    have hc := List.Forall₂.imp (fun _ _ hc => CopyOne.fills hc
      (.of_extends (r := ⟨0⟩) h₂.extended)) hc
    exact .pure (List.rel_append hc hcs)

theorem distinct_eq_self {α : Type} [DecidableEq α] {l : List α} (h : l.Nodup) :
    distinct l = l := by
  induction l with
  | nil => rfl
  | cons a l ih =>
    rw [List.nodup_cons] at h
    rw [distinct, ih h.2, List.filter_eq_self.2]
    intro b hb
    simp only [ne_eq, decide_eq_true_eq]
    exact fun heq => h.1 (heq ▸ hb)

theorem collected_eq_self (hl : cx.config.languageAware = false) (hnd : objects.Nodup) :
    m.collected cx.config objects = objects := by
  unfold MemberBinding.collected
  rw [hl, distinct_eq_self hnd]
  rfl

/-! ## Values -/

theorem admits_of_denotes (hd : Denotes P.name (P.Allows cx k) m t v) : m.kind.admits t := by
  cases hd with
  | literal _ ha _ _ => exact ha
  | uri u hk => rw [hk]; rfl
  | resource j hk =>
    rw [hk]
    show j.toTerm.isResource = true
    exact Resource.isResource_toTerm j
  | ref j hk _ _ =>
    rw [hk]
    show j.toTerm.isResource = true
    exact Resource.isResource_toTerm j

/-- A single object that a member admits is its only candidate, whatever its language. -/
theorem candidates_singleton (hl : cx.config.languageAware = false) (ht : m.kind.admits t) :
    m.candidates cx.config [t] = [t] := by
  have hfilter : (distinct [t]).filter m.kind.admits = [t] := by simp [distinct, ht]
  unfold MemberBinding.candidates
  rw [hfilter, hl]
  dsimp only
  split
  · rfl
  · unfold preferLanguage
    by_cases hnone : t.language = none
    · simp [hnone]
    · by_cases hlang : t.language = some cx.config.defaultLanguage <;> simp [hnone, hlang]

theorem collection_copies
    (hp : (P.copying cx).Keeps
      ((m.collected cx.config objects).mapM (elementsOf cx read rd m))
      ((m.collected cx.config objects).mapM (elementsOf cx read rd m))
      (fun parts w' => List.Forall₂ (CopyOne P.name P.base P.source m w'.heap) vs parts.flatten)
      w) :
    (P.copying cx).Keeps (do pure (some (← collectionValue cx read rd m objects)))
      (do pure (some (← collectionValue cx read rd m objects)))
      (fun o w' => ∃ v', o = some v' ∧ Copy P.name P.base P.source m w'.heap (.list vs) v') w := by
  refine .bind (V := fun v' w' => Copy P.name P.base P.source m w'.heap (.list vs) v') ?_
    fun v' w₁ _ hv =>
    .pure ⟨v', rfl, hv⟩
  exact .bind hp fun parts w₁ _ hc => .pure (.list hc)

/-- **Members of a pass**: the value that a member gets from the objects of an original is a copy of
the original value. -/
theorem memberValue_copies (h : P.Reads cx k rd read R) (hw : R w)
    (hs : Shown P.name (P.Allows cx k) m rd.graph objects v) (ho : ∀ t ∈ objects, P.src.Knows t) :
    (P.copying cx).Keeps (memberValue cx read rd m objects) (memberValue cx read rd m objects)
      (fun o w' => ∃ v', o = some v' ∧ Copy P.name P.base P.source m w'.heap v v') w := by
  unfold memberValue
  cases hs with
  | single hcol hd =>
    rw [if_neg (by rw [hcol]; decide)]
    unfold singleValue
    rw [candidates_singleton h.valid.languages (admits_of_denotes hd)]
    refine (termValue_copies h hw hd (ho _ (List.mem_singleton_self _))).mono fun o w' _ hv => ?_
    obtain ⟨v', rfl, hc⟩ := hv
    exact ⟨v', rfl, .one hc⟩
  | bag hcol hnd hbag hds =>
    rw [if_pos hcol]
    refine collection_copies ?_
    rw [collected_eq_self h.valid.languages hnd]
    exact bag_copies h hw hds fun t ht => ⟨ho t ht, hbag t ht⟩
  | chain hcol hnil hres hitems hds =>
    rw [if_pos hcol]
    refine collection_copies ?_
    rw [collected_eq_self h.valid.languages (List.pairwise_singleton _ _), List.mapM_cons]
    refine .bind (chainElements_copies h hw hnil hres hitems hds) fun vs' w₁ _ hc => ?_
    refine .pure ?_
    show List.Forall₂ _ _ [vs'].flatten
    rw [List.flatten_singleton]
    exact hc

end

/-! ## Records -/

/-- Readings that succeed. -/
def succeeding : Terms where
  halt _ := False
  compared _ := True
  back _ _ := trivial

theorem filling_of_copying {α : Type} {x : Run α} {V : α → World → Prop} {w : World} {r : RecordRef}
    (h : (P.copying cx).Keeps x x V w) :
    (succeeding.filling r).Keeps x x (fun a w' => P.Step cx w w' ∧ V a w') w := by
  unfold Contract.Keeps at h ⊢
  cases hx : x w with
  | ok a w' => rw [hx] at h; exact ⟨.of_extends h.1.extended, ⟨h.1, h.2.1⟩, fun _ => rfl⟩
  | error e w' => rw [hx] at h; exact h.2.1.elim

theorem copying_of_extending {α : Type} {x : Run α} {V : α → World → Prop} {w : World}
    (h : succeeding.extending.Keeps x x (fun a w' => (w.Extends w' → P.Step cx w w') ∧ V a w') w) :
    (P.copying cx).Keeps x x V w := by
  unfold Contract.Keeps at h ⊢
  cases hx : x w with
  | ok a w' => rw [hx] at h; exact ⟨h.2.1.1 h.1, h.2.1.2, fun _ => rfl⟩
  | error e w' => rw [hx] at h; exact h.2.1.elim

theorem ne_nil_of_shown {name : Reference → Option Resource} {ok : TypeName → Resource → Prop}
    {m : MemberBinding} {g : Graph} {ts : List Term} {v : Value} (h : Shown name ok m g ts v)
    (hv : v.isEmpty = false) : ts ≠ [] := by
  cases h with
  | single _ _ => exact List.cons_ne_nil _ _
  | bag _ _ _ hds =>
    rintro rfl
    cases hds
    cases hv
  | chain _ _ _ _ _ => exact List.cons_ne_nil _ _

section

variable {k : Resource} {rd : Reading} {read : Reader} {R : World → Prop}
    {m : MemberBinding} {w : World}
  {rec : Record} {b : TypeBinding} {r : RecordRef}

variable (cx P) in
/-- The record of an original while its members are read: those of the predicates `done` are copied,
the others unset, and the records made on the way are complete. -/
structure Copied (k : Resource) (rec : Record) (b : TypeBinding) (r : RecordRef) (w : World)
    (done : List String) (w' : World) : Prop where
  names : w'.namespaces = w.namespaces
  complete : ∀ a : RecordRef, w.heap.records.size ≤ a.index → a.index < w'.heap.records.size →
    P.Complete cx w'.heap a
  record : ∃ vals, w'.heap.record? r = some { type := rec.type, id := some k, values := vals } ∧
    ∀ m ∈ b.members,
      (m.predicate ∈ done → P.CopiesMember cx w'.heap rec vals m) ∧
        (m.predicate ∉ done → vals.get? m.name = none)

theorem Copied.step {w₁ w₂ : World} {done : List String} (h : Copied cx P k rec b r w done w₁)
    (hs : P.Step cx w₁ w₂) : Copied cx P k rec b r w done w₂ where
  names := hs.names.trans h.names
  complete a hlo hhi := by
    by_cases ha : a.index < w₁.heap.records.size
    · exact Complete.extends (h.complete a hlo ha) hs.extended ha
    · exact hs.complete a (Nat.not_lt.1 ha) hhi
  record := by
    obtain ⟨vals, hrec, hm⟩ := h.record
    refine ⟨vals, hs.extended.record trivial hrec, fun m hmem => ⟨fun hd => ?_, (hm m hmem).2⟩⟩
    exact ((hm m hmem).1 hd).fills (.of_extends (r := r) hs.extended)

theorem Copied.store {w₁ : World} {done : List String} {v v' : Value}
    (h : Copied cx P k rec b r w done w₁) (hh : P.Holds cx k rec b) (hm : m ∈ b.members)
    (hv : rec.written cx.schema m.name = some v) (hc : Copy P.name P.base P.source m w₁.heap v v')
    (hr : r.index < w.heap.records.size) :
    ∃ cur next, w₁.heap.record? r = some cur ∧ cur.set cx.schema w₁.heap r m.name v' = .ok next ∧
      Copied cx P k rec b r w (done ++ [m.predicate])
        { w₁ with heap := w₁.heap.modify r fun _ => next } := by
  obtain ⟨vals, hrec, hmembers⟩ := h.record
  obtain ⟨f, hf, hkeeps⟩ := hh.kept m hm v hv
  have hset : Record.set cx.schema w₁.heap r
      { type := rec.type, id := some k, values := vals } m.name v' =
      .ok { type := rec.type, id := some k, values := vals.insert m.name v' } := by
    unfold Record.set
    rw [if_neg (by rw [hh.concrete]; decide), hf]
    dsimp only
    rw [Member.accepted_of_keeps (hc.keeps hkeeps) w₁.heap _]
    rfl
  have hfill := World.Fills.of_set hrec hset
  refine ⟨_, _, hrec, hset, h.names, fun a hlo hhi => ?_, vals.insert m.name v', ?_, fun m' hm' =>
    ⟨fun hd => ?_, fun hd => ?_⟩⟩
  · have hlt : a.index < w₁.heap.records.size := by
      rw [← Heap.size_modify w₁.heap r fun _ =>
        { type := rec.type, id := some k, values := vals.insert m.name v' }]
      exact hhi
    refine Complete.fills (h.complete a hlo hlt) hfill (fun heq => ?_) hlt
    rw [heq] at hlo
    omega
  · exact Heap.record?_modify_self hrec _
  · by_cases heq : m' = m
    · subst heq
      unfold CopiesMember
      rw [hv]
      exact ⟨v', Table.get?_insert_self _ _ _, hc.imp fun hn => hn.fills hfill⟩
    · have hname : m.name ≠ m'.name := fun hn =>
        heq (List.inj_on_of_nodup_map hh.names hm' hm hn.symm)
      have hd' : m'.predicate ∈ done := by
        rcases List.mem_append.1 hd with hd | hd
        · exact hd
        · exact absurd (List.inj_on_of_nodup_map hh.predicates hm' hm (List.mem_singleton.1 hd)) heq
      have hcopied := ((hmembers m' hm').1 hd').fills hfill
      unfold CopiesMember at hcopied ⊢
      rw [Table.get?_insert, if_neg hname]
      exact hcopied
  · rw [List.mem_append, not_or] at hd
    have hname : m.name ≠ m'.name := fun hn => by
      rw [List.inj_on_of_nodup_map hh.names hm' hm hn.symm] at hd
      exact hd.2 (List.mem_singleton_self _)
    rw [Table.get?_insert, if_neg hname]
    exact (hmembers m' hm').2 hd.1

/-- The predicates of an original are read one by one into the members bound to them. -/
theorem readPredicate_copies {done rest : List String} {predicate : String} {w₁ : World}
    (h : P.Reads cx k rd read R) (hw : R w₁) (hh : P.Holds cx k rec b)
    (hr : r.index < w.heap.records.size)
    (hpred : rd.graph.predicatesOf rd.subject = done ++ predicate :: rest)
    (hd : Copied cx P k rec b r w done w₁) :
    (succeeding.filling r).Keeps (readPredicate cx read rd b r predicate)
      (readPredicate cx read rd b r predicate)
      (fun _ => Copied cx P k rec b r w (done ++ [predicate])) w₁ := by
  have hsubject : rd.subject = k.toTerm := congrArg Resource.toTerm h.id
  have hobjects : ∀ p, rd.graph.objects rd.subject p = P.graph.objects k.toTerm p := fun p => by
    rw [h.graph, hsubject]
    exact Graph.objects_description (P.graph.mem_reach_self _) p
  have hmem : predicate ∈ rd.graph.predicatesOf rd.subject := by
    rw [hpred]
    exact List.mem_append_right _ List.mem_cons_self
  unfold readPredicate
  cases hfor : b.memberFor? predicate with
  | none =>
    refine .pure ⟨hd.names, hd.complete, ?_⟩
    obtain ⟨vals, hrec, hm⟩ := hd.record
    refine ⟨vals, hrec, fun m hmem' => ?_⟩
    have hne : m.predicate ≠ predicate := by
      have := List.find?_eq_none.1 hfor m hmem'
      simpa using this
    rw [List.mem_append, List.mem_singleton]
    exact ⟨fun hd => (hm m hmem').1 (hd.resolve_right hne), fun hd => (hm m hmem').2
      fun h => hd (.inl h)⟩
  | some m =>
    have hm : m ∈ b.members := List.mem_of_find?_eq_some hfor
    have hp : m.predicate = predicate := by simpa using List.find?_some hfor
    subst hp
    dsimp only
    cases hv : rec.written cx.schema m.name with
    | none =>
      rw [Graph.mem_predicatesOf, hobjects, hh.hidden m hm hv] at hmem
      exact absurd rfl hmem
    | some v =>
      have hshown := hh.shown m hm v hv
      rw [← hobjects, ← h.graph] at hshown
      have hknown : ∀ t ∈ rd.graph.objects rd.subject m.predicate, P.src.Knows t := fun t ht n hn =>
        h.src_nodes n (Graph.mem_objectResources_of_objects ht hn)
      refine .bind
        (.onError (filling_of_copying (memberValue_copies h hw hshown hknown)).failing
          fun _ he => he)
        fun o w₂ _ ho => ?_
      obtain ⟨hstep, v', rfl, hc⟩ := ho
      have hd₂ := hd.step hstep
      obtain ⟨cur, next, hcur, hset, hstored⟩ := hd₂.store hh hm hv hc hr
      unfold assign
      dsimp only
      refine .congr (Run.bind_apply_ok (Run.recordAt_apply hcur))
        (Run.bind_apply_ok (Run.recordAt_apply hcur)) ?_
      refine .congr (Run.bind_apply_ok (Run.get_apply w₂)) (Run.bind_apply_ok (Run.get_apply w₂)) ?_
      rw [hset]
      exact .modify (.of_set hcur hset) hstored

/-- **The members of an original** are read as copies. -/
theorem readMembers_copies (h : P.Reads cx k rd read R)
    (hR : ∀ w', w.Fills r w' → w'.namespaces = w.namespaces → R w') (hh : P.Holds cx k rec b)
    (hrec : w.heap.record? r = some (outlineRecord rec.type k)) :
    (succeeding.filling r).Keeps (readMembers cx read rd b r) (readMembers cx read rd b r)
      (fun _ => Copied cx P k rec b r w (rd.graph.predicatesOf rd.subject)) w := by
  have hr := Heap.record?_eq_some_lt hrec
  refine Contract.Keeps.forM (I := Copied cx P k rec b r w) ?_
    fun done predicate rest hl w₁ h₁ hd =>
    readPredicate_copies h (hR w₁ h₁ hd.names) hh hr hl hd
  refine ⟨rfl, fun a hlo hhi => absurd hhi (Nat.not_lt.2 hlo), ∅, hrec, fun m _ =>
    ⟨fun hd => ?_, fun _ => rfl⟩⟩
  cases hd

theorem Copied.completed {w₁ : World} (h : P.Reads cx k rd read R) (hh : P.Holds cx k rec b)
    (horig : P.original k = some (rec, b))
    (hd : Copied cx P k rec b r w (rd.graph.predicatesOf rd.subject) w₁) :
    P.Complete cx w₁.heap r := by
  obtain ⟨vals, hrec, hm⟩ := hd.record
  have hid : w₁.heap.id? r = some k := Heap.id?_eq_some.2 ⟨_, hrec, rfl⟩
  intro k' rec' b' hid' horig'
  rw [hid] at hid'
  cases hid'
  rw [horig] at horig'
  cases horig'
  refine ⟨vals, hrec, fun m hmem => ?_⟩
  by_cases hp : m.predicate ∈ rd.graph.predicatesOf rd.subject
  · exact (hm m hmem).1 hp
  · unfold CopiesMember
    cases hv : rec.written cx.schema m.name with
    | none => exact (hm m hmem).2 hp
    | some v =>
      rw [Graph.mem_predicatesOf, not_not, h.graph] at hp
      have hsubject : rd.subject = k.toTerm := congrArg Resource.toTerm h.id
      rw [hsubject, Graph.objects_description (P.graph.mem_reach_self _)] at hp
      exact absurd hp (ne_nil_of_shown (hh.shown m hmem v hv) (Record.written_eq_some.1 hv).2)

end

/-! ## Related records -/

variable (P) in
/-- A world of the pass: what stood at its start is there, and what is under construction are
records of the pass. -/
structure During (w : World) : Prop where
  source : w.source P.source = P.src
  base : P.base ≤ w.heap.records.size
  namespaces : w.namespaces = P.start.namespaces
  classes : w.classes = P.start.classes
  binding : ∀ {ty b}, P.start.bindings.get? ty = some b → w.bindings.get? ty = some b
  registered : ∀ {k a}, w.construction.get? k = some a → P.base ≤ a.index ∧ w.heap.id? a = some k

section

variable {w w' : World} {r : RecordRef} {k : Resource} {target : TypeName}

theorem During.fills (hd : P.During w) (h : w.Fills r w') (hn : w'.namespaces = w.namespaces) :
    P.During w' where
  source := by rw [h.source, hd.source]
  base := Nat.le_trans hd.base h.size
  namespaces := hn.trans hd.namespaces
  classes := h.classes.trans hd.classes
  binding hb := h.binding (hd.binding hb)
  registered hk := by
    rw [h.construction] at hk
    exact ⟨(hd.registered hk).1, h.id? (hd.registered hk).2⟩

theorem During.step (hd : P.During w) (h : P.Step cx w w') : P.During w' :=
  hd.fills (r := ⟨0⟩) (.of_extends h.extended) h.names

theorem During.entered {settled : TypeName} (hd : P.During w)
    (hf : (entered w target k).Frame (· ≠ w.heap.nextRecord) w')
    (hrec : w'.heap.record? w.heap.nextRecord = some (outlineRecord settled k))
    (hn : w'.namespaces = w.namespaces) : P.During w' where
  source := by rw [hf.source]; exact hd.source
  base := Nat.le_trans hd.base (Nat.le_of_lt (Heap.record?_eq_some_lt hrec))
  namespaces := hn.trans hd.namespaces
  classes := hf.classes.trans hd.classes
  binding hb := hf.binding (hd.binding hb)
  registered {j a} hj := by
    rw [hf.construction, construction_entered, Table.get?_insert] at hj
    split at hj
    · next heq =>
      cases hj
      exact ⟨hd.base, heq ▸ Heap.id?_eq_some.2 ⟨_, hrec, rfl⟩⟩
    · obtain ⟨hb, hid⟩ := hd.registered hj
      obtain ⟨cur, hcur, hk⟩ := Heap.id?_eq_some.1 hid
      have hlt := Heap.record?_eq_some_lt hcur
      have hne : a ≠ w.heap.nextRecord := fun heq => by
        rw [heq] at hlt
        exact Nat.lt_irrefl _ hlt
      exact ⟨hb, Heap.id?_eq_some.2 ⟨cur, hf.record hne (Heap.record?_alloc hcur _), hk⟩⟩

theorem During.typeForClass (hd : P.During w) (iri : String) :
    w.typeForClass iri = P.start.typeForClass iri := by
  unfold World.typeForClass
  rw [hd.classes, hd.namespaces]

/-- An original is read as a record of its own type, whatever type is asked for. -/
theorem settledType_original {rec : Record} {b : TypeBinding} {rd : Reading} (hd : P.During w)
    (hh : P.Holds cx k rec b) (hid : rd.id = k) (hgraph : rd.graph = P.graph.description k.toTerm)
    (ht : target = rec.type ∨ cx.schema.isA rec.type target) :
    settledType cx w rd target = rec.type := by
  have hclasses : (rd.graph.objects rd.subject Rdf.type).filterMap Term.iri? = [b.classIri] := by
    have hsubject : rd.subject = k.toTerm := congrArg Resource.toTerm hid
    rw [hgraph, hsubject, Graph.objects_description (P.graph.mem_reach_self _), hh.classes]
    rfl
  have hrefine : cx.schema.refinement w.typeForClass target [b.classIri] =
      if rec.type = target then none else some rec.type := by
    unfold Schema.refinement
    rw [List.foldl_cons, List.foldl_nil, hd.typeForClass, hh.registered]
    dsimp only
    split
    · rfl
    · next hne =>
      rw [if_pos (ht.resolve_left fun h => hne h.symm)]
  unfold settledType
  rw [hclasses, hrefine]
  by_cases hty : rec.type = target
  · rw [if_pos hty]
    exact hty.symm
  · rw [if_neg hty]
    dsimp only
    rw [if_pos hh.carriesId]

variable (P) in
/-- A record of the pass that stands for a resource. -/
def Stands (k : Resource) (a : RecordRef) (w : World) : Prop :=
  P.base ≤ a.index ∧ w.heap.id? a = some k

/-- What happens while a record is made, if it is complete in the end. -/
theorem step_construct {w₁ : World} (hw₁ : w₁.heap.records.size = w.heap.records.size + 1)
    (hn : w'.namespaces = w.namespaces) (hr : P.Complete cx w'.heap w.heap.nextRecord)
    (hc : ∀ a : RecordRef, w₁.heap.records.size ≤ a.index → a.index < w'.heap.records.size →
      P.Complete cx w'.heap a) (hext : w.Extends (w'.leave k)) : P.Step cx w (w'.leave k) where
  extended := hext
  names := hn
  complete a hlo hhi := by
    by_cases ha : a.index = w.heap.records.size
    · obtain rfl : a = w.heap.nextRecord := by cases a; cases ha; rfl
      exact hr
    · exact hc a (by omega) hhi

theorem size_entered (w : World) (target : TypeName) (k : Resource) :
    (entered w target k).heap.records.size = w.heap.records.size + 1 := Heap.size_alloc _ _

theorem Readable.original (hk : P.Readable cx target k) (hs : P.graph.hasSubject k.toTerm) :
    ∃ rec b, P.original k = some (rec, b) ∧
      (target = rec.type ∨ cx.schema.isA rec.type target) := by
  rcases hk.2 with h | h
  · exact h
  · rw [hs] at h
    cases h

theorem During.described (hd : P.During w) (hv : P.Valid cx) (k : Resource) :
    (w.source P.source).describe k = .ok (P.graph.description k.toTerm) := by
  rw [hd.source, hv.described k]

/-- A description that has triples of a resource that can be read is that of an original, and the
record is settled as one. -/
theorem Readable.settled {rd : Reading} (hk : P.Readable cx target k) (hv : P.Valid cx)
    (hd : P.During w) (hdesc : (w.source P.source).describe k = .ok rd.graph) (hid : rd.id = k)
    (hs : rd.graph.hasSubject rd.subject) :
    rd.graph = P.graph.description k.toTerm ∧ ∃ rec b, P.original k = some (rec, b) ∧
      P.Holds cx k rec b ∧ settledType cx w rd target = rec.type := by
  have hgraph : rd.graph = P.graph.description k.toTerm :=
    Except.ok.inj (hdesc.symm.trans (hd.described hv k))
  have hsubject : rd.subject = k.toTerm := congrArg Resource.toTerm hid
  have hs' : P.graph.hasSubject k.toTerm := by
    rw [hgraph, hsubject, Graph.hasSubject_description] at hs
    exact hs
  obtain ⟨rec, b, horig, ht⟩ := hk.original hs'
  exact ⟨hgraph, rec, b, horig, hv.holds horig,
    settledType_original hd (hv.holds horig) hid hgraph ht⟩

theorem prepare_ready {e : Halt} {r : RecordRef} (hk : P.Readable cx target k) (hv : P.Valid cx)
    (hd : P.During w) (hrec : w.heap.record? r = some (outlineRecord target k)) :
    prepare cx P.source r target k w ≠ .error e w' := by
  intro herr
  have hp := prepare_run cx P.source hrec
  rw [herr] at hp
  cases hp with
  | undescribed _ e he _ =>
    rw [hd.described hv k] at he
    cases he
  | unbound _ rd flaw hdesc hid hs _ hnone _ =>
    obtain ⟨-, rec, b, -, hh, hty⟩ := hk.settled hv hd hdesc hid hs
    rw [hty, hd.binding hh.bound] at hnone
    cases hnone

variable (P) in
/-- A reader gives copies of what is under construction or can be read, where at most `n` resources
are unread. -/
def Serves (cx : Setting) (read : Reader) (n : Nat) : Prop :=
  ∀ w, P.During w → (unread P.src w).length ≤ n → ∀ target k, k ∈ P.src.nodes →
    ((∃ a, w.construction.get? k = some a) ∨ P.Readable cx target k) →
    (P.copying cx).Keeps (read target k) (read target k) (P.Stands k) w

section

variable {read : Reader} {n : Nat} {w₁ : World} {rd : Reading} {b : TypeBinding}

theorem Readable.prepared (hk : P.Readable cx target k) (hv : P.Valid cx) (hd : P.During w)
    (hp : Prepared cx P.source w.heap.nextRecord target k (entered w target k) rd b w₁) :
    rd.graph = P.graph.description k.toTerm ∧ P.During w₁ ∧ w₁.namespaces = w.namespaces ∧
      ∃ rec, P.original k = some (rec, b) ∧ P.Holds cx k rec b ∧
        w₁.heap.record? w.heap.nextRecord = some (outlineRecord rec.type k) := by
  have hentered : P.During (entered w target k) :=
    hd.entered (.refl _) (record?_entered w target k) rfl
  obtain ⟨hgraph, rec, b', horig, hh, hty⟩ :=
    hk.settled hv hentered hp.described hp.id hp.hasSubject
  have hbound := hentered.binding hh.bound
  have hnames : w₁.namespaces = w.namespaces := hp.names b' (by rw [hty]; exact hbound)
  have hbind := hp.binding
  have hrec := hp.record
  rw [hty] at hbind hrec
  rw [hp.frame.binding hbound] at hbind
  cases hbind
  exact ⟨hgraph, hd.entered hp.frame hrec hnames, hnames, rec, horig, hh, hrec⟩

theorem Serves.reads (h : P.Serves cx read n) (hv : P.Valid cx)
    (hn : (unread P.src (entered w target k)).length ≤ n) (hid : rd.id = k)
    (hgraph : rd.graph = P.graph.description k.toTerm) (hsource : rd.source = P.source) :
    P.Reads cx k rd read fun w' =>
      P.During w' ∧ w'.construction = (entered w target k).construction where
  valid := hv
  id := hid
  graph := hgraph
  step hw h := ⟨hw.1.step h, h.extended.construction.trans hw.2⟩
  origin := hsource
  source hw := hw.1.source
  read {w'} hw target' j hj hmem := by
    refine h w' hw.1 (by rw [unread_congr hw.2]; exact hn) target' j hmem ?_
    refine hj.imp_left fun hjk => ⟨w.heap.nextRecord, ?_⟩
    rw [hw.2, construction_entered, hjk, Table.get?_insert_self]

/-- A record of a resource without triples is no copy of anything. -/
theorem complete_empty {h : Heap} {a : RecordRef} (hv : P.Valid cx) (hid : h.id? a = some k)
    (hs : P.graph.hasSubject k.toTerm = false) : P.Complete cx h a := by
  intro j rec b hid' horig
  obtain rfl : k = j := Option.some.inj (hid.symm.trans hid')
  rw [(hv.holds horig).hasSubject] at hs
  cases hs

/-- One construction of a pass, if the calls for related resources give copies. -/
theorem construct_copies (hv : P.Valid cx) (hd : P.During w) (hread : P.Serves cx read n)
    (hnew : w.construction.get? k = none) (hn : (unread P.src (entered w target k)).length ≤ n)
    (hk : P.Readable cx target k) :
    (P.copying cx).Keeps (construct cx read P.source target k) (construct cx read P.source target k)
      (P.Stands k) w := by
  have hentered : P.During (entered w target k) :=
    hd.entered (.refl _) (record?_entered w target k) rfl
  refine copying_of_extending (construct_keeps hnew (fun hslot => ?slot)
    (fun _ _ herr => (prepare_ready hk hv hentered (record?_entered w target k) herr).elim)
    (fun g hg hsub => ?none) fun rd b w₁ hslot hp => ?some)
  case slot =>
    rw [hk.1] at hslot
    cases hslot
  case none =>
    rw [← Except.ok.inj ((hd.described hv k).symm.trans hg), Graph.hasSubject_description] at hsub
    have hid : (entered w target k).heap.id? w.heap.nextRecord = some k :=
      Heap.id?_eq_some.2 ⟨_, record?_entered w target k, rfl⟩
    exact ⟨fun hext => step_construct (size_entered w target k) rfl (complete_empty hv hid hsub)
      (fun a hlo hhi => absurd hhi (Nat.not_lt.2 hlo)) hext, hd.base, hid⟩
  case some =>
    obtain ⟨hgraph, hd₁, hnames, rec, horig, hh, hrec⟩ := hk.prepared hv hd hp
    have hreads := hread.reads hv hn hp.id hgraph hp.source
    refine (readMembers_copies hreads (fun w' h hn' => ⟨hd₁.fills h hn',
      h.construction.trans hp.frame.construction⟩) hh hrec).mono
      fun _ w₂ _ hc => ⟨fun hext => ?_, hd.base, ?_⟩
    · exact step_construct (hp.size.trans (size_entered w target k)) (hc.names.trans hnames)
        (hc.completed hreads hh horig) hc.complete hext
    · obtain ⟨vals, hrec₂, -⟩ := hc.record
      exact Heap.id?_eq_some.2 ⟨_, hrec₂, rfl⟩

end

theorem registered_copies {n : Nat} {a : RecordRef} (hd : P.During w)
    (hk : w.construction.get? k = some a) :
    (P.copying cx).Keeps (readWithin cx P.source n target k) (readWithin cx P.source n target k)
      (P.Stands k) w :=
  .of_ok (readWithin_registered hk) (.refl w) (hd.registered hk) fun _ => readWithin_registered hk

/-- Readings of a pass give copies, by induction on how deep they may be nested. -/
theorem readWithin_copies (hv : P.Valid cx) : ∀ n, P.Serves cx (readWithin cx P.source n) n := by
  intro n
  induction n with
  | zero =>
    intro w hd hn target k hk _
    cases hr : w.construction.get? k with
    | some a => exact registered_copies hd hr
    | none =>
      have := length_unread_entered_lt target hk hr
      omega
  | succ n ih =>
    intro w hd hn target k hk hread
    cases hr : w.construction.get? k with
    | some a => exact registered_copies hd hr
    | none =>
      have hlt := length_unread_entered_lt target hk hr
      refine .congr (readWithin_succ_new hr) (readWithin_succ_new hr) ?_
      refine construct_copies hv hd ih hr (by omega) (hread.resolve_left fun ⟨a, ha⟩ => ?_)
      rw [hr] at ha
      cases ha

end

theorem During.start (hidle : ∀ n, P.start.construction.get? n = none) : P.During P.start :=
  ⟨rfl, Nat.le_refl _, rfl, rfl, fun hb => hb, fun hj => by rw [hidle] at hj; cases hj⟩

/-- **A pass copies an original**: reading its identifier, as its type or one that it extends, gives
a record with the identifier, and every record made on the way is a copy of the original with its
identifier. -/
theorem fromGraph_copies {w : World} (hv : P.Valid cx) (hd : P.During w)
    (hidle : ∀ n, w.construction.get? n = none) {target : TypeName} {k : Resource}
    (hk : P.Readable cx target k) :
    ∃ a w', fromGraph cx P.source target k w = .ok a w' ∧ P.Step cx w w' ∧ P.Stands k a w' := by
  have hn : (unread P.src (entered w target k)).length ≤ P.src.nodes.length :=
    List.length_filter_le _ _
  have hkeeps := construct_copies hv hd (readWithin_copies hv P.src.nodes.length) (hidle k) hn hk
  rw [fromGraph_apply hd.source, readWithin_succ_new (hidle k)]
  unfold Contract.Keeps at hkeeps
  split at hkeeps
  · next a w' hrun => exact ⟨a, w', hrun, hkeeps.1, hkeeps.2.1⟩
  · exact hkeeps.2.1.elim

end Pass

end GraphMarshal
