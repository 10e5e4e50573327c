import GraphMarshal.Proofs.Permanence
import GraphMarshal.Proofs.Waiting

/-!
# References name what they are read from

A reference that a reading stores for a node of the graph names that node: a deferred one is made
with the node, an eager one leads to a record that is under construction for the node or is made for
it. `ReadFrom` keeps the terms beside the values that are read from them, so that it is said of each
reference which node it names, and `Noted` says this of all that a reading has stored, also in
records that it has given up half way.
-/

namespace GraphMarshal

/-! ## Values and the terms that they are read from -/

/-- A value that is no list, and whose reference, if it is one, names the node that a term is. -/
def Value.NamedBy (names : Resource → Reference → Prop) (t : Term) (v : Value) : Prop :=
  (∀ items, v ≠ .list items) ∧ ∀ x, v = .ref x → ∃ n, Resource.ofTerm? t = some n ∧ names n x

namespace Value.NamedBy

variable {names names' : Resource → Reference → Prop} {t : Term} {v v' : Value}

theorem of_isAtom (hv : v.IsAtom) : v.NamedBy names t :=
  ⟨fun items h => by subst h; exact hv, fun x h => by subst h; exact hv.elim⟩

theorem ref {n : Resource} {x : Reference} (ht : Resource.ofTerm? t = some n) (hx : names n x) :
    (Value.ref x).NamedBy names t :=
  ⟨nofun, fun y h => by cases h; exact ⟨n, ht, hx⟩⟩

theorem mono (h : v.NamedBy names t) (hn : ∀ n x, names n x → names' n x) : v.NamedBy names' t := by
  refine ⟨h.1, fun x hx => ?_⟩
  obtain ⟨n, ht, hnx⟩ := h.2 x hx
  exact ⟨n, ht, hn n x hnx⟩

theorem convert {h : Heap} {l : Option RecordRef} {k : Kind} (hv : v.NamedBy names t)
    (hc : v.convert h l k = .ok v') : v'.NamedBy names t := by
  rcases Value.eq_or_isAtom_of_convert hc with rfl | hatom
  · exact hv
  · exact of_isAtom hatom

theorem convertAll {h : Heap} {l : Option RecordRef} {k : Kind} {vs vs' : List Value}
    (hc : List.Forall₂ (fun v v' => v.convert h l k = .ok v') vs vs') : ∀ {ts : List Term},
    List.Forall₂ (NamedBy names) ts vs → List.Forall₂ (NamedBy names) ts vs' := by
  induction hc with
  | nil => exact fun h => h
  | cons hc _ ih =>
    intro ts h
    cases h with
    | cons hv hvs => exact .cons (hv.convert hc) (ih hvs)

end Value.NamedBy

theorem Value.eq_of_convert_list {h : Heap} {l : Option RecordRef} {k : Kind} {items : List Value}
    {v : Value} (hc : (Value.list items).convert h l k = .ok v) : v = .list items := by
  cases k <;> cases hc
  rfl

namespace Engine

/-- A value is what a member gets from objects, one term for each value that is no list. -/
inductive ReadFrom (cx : Setting) (src : Source) (names : Resource → Reference → Prop)
    (rd : Reading) (m : MemberBinding) (objects : List Term) : Value → Prop
  | single {t : Term} {v : Value} : m.collection = false →
    m.candidates cx.config objects = [t] → v.NamedBy names t →
    ReadFrom cx src names rd m objects v
  | collection {parts : List (List Term)} {vs : List Value} : m.collection →
    List.Forall₂ (Elements src rd m) (m.collected cx.config objects) parts →
    List.Forall₂ (Value.NamedBy names) parts.flatten vs →
    ReadFrom cx src names rd m objects (.list vs)

variable {cx : Setting} {src : Source} {names names' : Resource → Reference → Prop} {rd : Reading}
  {m : MemberBinding} {objects : List Term} {v v' : Value}

/-- What is drawn from objects is read from them, if each term names the reference that it gives. -/
theorem ReadFrom.of_drawn
    (h : Drawn cx src rd m objects (fun t v => v.NamedBy names t) v) :
    ReadFrom cx src names rd m objects v := by
  cases h with
  | single hm ht hv => exact .single hm ht hv
  | collection hm hp hvs => exact .collection hm hp (hvs.imp fun _ _ hv => hv)

theorem ReadFrom.mono (h : ReadFrom cx src names rd m objects v)
    (hn : ∀ n x, names n x → names' n x) : ReadFrom cx src names' rd m objects v := by
  cases h with
  | single hm ht hv => exact .single hm ht (hv.mono hn)
  | collection hm hp hvs => exact .collection hm hp (hvs.imp fun _ _ hv => hv.mono hn)

theorem ReadFrom.accepted {h : Heap} {l : Option RecordRef} {f : Member}
    (hr : ReadFrom cx src names rd m objects v) (ha : Record.accepted h l f v = .ok v') :
    ReadFrom cx src names rd m objects v' := by
  have converted : ∀ {k}, v.convert h l k = .ok v' → ReadFrom cx src names rd m objects v' :=
    fun hc => by
      cases hr with
      | single hm ht hv => exact .single hm ht (hv.convert hc)
      | collection hm hp hvs =>
        rw [Value.eq_of_convert_list hc]
        exact .collection hm hp hvs
  have listed : ∀ {k}, v.convertList h l k = .ok v' → ReadFrom cx src names rd m objects v' :=
    fun hc => by
      obtain ⟨items, items', rfl, rfl, hitems⟩ := Value.exists_items_of_convertList hc
      cases hr with
      | single _ _ hv => exact absurd rfl (hv.1 items)
      | collection hcol hp hvs => exact .collection hcol hp (Value.NamedBy.convertAll hitems hvs)
  unfold Record.accepted at ha
  split at ha
  · cases ha
  · cases ha
  · cases ha; exact hr
  · split at ha
    · exact listed ha
    · exact converted ha

/-- A reference that is read from objects names the node of one of the terms that they offer. -/
theorem ReadFrom.offered (h : ReadFrom cx src names rd m objects v) {x : Reference}
    (hx : v.Refers x) :
    ∃ t n, Offered src rd m objects t ∧ Resource.ofTerm? t = some n ∧ names n x := by
  have named : ∀ {t : Term} {v : Value}, v.NamedBy names t → v.Refers x →
      ∃ n, Resource.ofTerm? t = some n ∧ names n x := fun hv hx => by
    cases hx with
    | ref => exact hv.2 x rfl
    | list => exact absurd rfl (hv.1 _)
  cases h with
  | @single t _ _ ht hv =>
    obtain ⟨n, hn, hnx⟩ := named hv hx
    have hmem : t ∈ m.candidates cx.config objects := ht ▸ List.mem_singleton_self t
    exact ⟨t, n, .object (MemberBinding.mem_of_mem_candidates hmem), hn, hnx⟩
  | collection _ hparts hvs =>
    obtain ⟨u, hu, hx⟩ := Value.refers_list.1 hx
    obtain ⟨t, ht, hv⟩ := exists_of_forall₂_right hvs hu
    obtain ⟨n, hn, hnx⟩ := named hv hx
    obtain ⟨ts, hts, ht⟩ := List.mem_flatten.1 ht
    obtain ⟨o, ho, helements⟩ := exists_of_forall₂_right hparts hts
    exact ⟨t, n, helements.offered (MemberBinding.mem_of_mem_collected ho) ht, hn, hnx⟩

end Engine

/-! ## Worlds -/

open Engine

/-- A record has an identifier, and each of its values is what a member of its type gets from the
description of the resource with that identifier. -/
def World.NotedRecord (cx : Setting) (source : SourceRef) (src : Source)
    (names : Resource → Reference → Prop) (w : World) (rec : Record) : Prop :=
  ∃ k, rec.id = some k ∧ ∀ name v, rec.values.get? name = some v →
    ∃ rd b predicate m, rd.source = source ∧ rd.id = k ∧ src.describe k = .ok rd.graph ∧
      w.bindings.get? rec.type = some b ∧ b.memberFor? predicate = some m ∧ m.name = name ∧
      ReadFrom cx src names rd m (rd.graph.objects rd.subject predicate) v

/-- All records made since the start are read from a source, and their references name the nodes that
they are read from. -/
def World.Noted (cx : Setting) (source : SourceRef) (src : Source) (start w : World) : Prop :=
  ∀ r rec, start.heap.records.size ≤ r.index → w.heap.record? r = some rec →
    w.NotedRecord cx source src w.heap.Designates rec

/-- What is under construction for a resource has it as identifier. -/
def World.Registered (w : World) : Prop :=
  ∀ n r, w.construction.get? n = some r → w.heap.id? r = some n

theorem World.registered_of_idle {w : World} (h : ∀ n, w.construction.get? n = none) :
    w.Registered := by
  intro n r hr
  rw [h n] at hr
  cases hr

/-- What a reading does to a world as far as names go, since a start. -/
structure World.Notes (cx : Setting) (source : SourceRef) (src : Source) (start w w' : World) :
    Prop where
  designates : ∀ {n x}, w.heap.Designates n x → w'.heap.Designates n x
  cell : ∀ {c cell}, w.heap.cell? c = some cell → w'.heap.cell? c = some cell
  binding : ∀ {ty b}, w.bindings.get? ty = some b → w'.bindings.get? ty = some b
  informed : start.Informed cx w → start.Informed cx w'
  sources : w'.sources = w.sources
  registered : w.Registered → w'.Registered
  noted : start.Noted cx source src w → start.Noted cx source src w'

theorem World.NotedRecord.mono {cx : Setting} {source : SourceRef} {src : Source}
    {names names' : Resource → Reference → Prop} {w w' : World} {rec : Record}
    (h : w.NotedRecord cx source src names rec) (hn : ∀ n x, names n x → names' n x)
    (hb : ∀ {ty b}, w.bindings.get? ty = some b → w'.bindings.get? ty = some b) :
    w'.NotedRecord cx source src names' rec := by
  obtain ⟨k, hk, hvalues⟩ := h
  refine ⟨k, hk, fun name v hv => ?_⟩
  obtain ⟨rd, b, predicate, m, hs, hid, hd, hbound, hm, hname, hread⟩ := hvalues name v hv
  exact ⟨rd, b, predicate, m, hs, hid, hd, hb hbound, hm, hname, hread.mono hn⟩

namespace World.Notes

variable {cx : Setting} {source : SourceRef} {src : Source} {start w w₁ w₂ : World} {r : RecordRef}

protected theorem refl (w : World) : start.Notes cx source src w w :=
  ⟨fun h => h, fun h => h, fun h => h, fun h => h, rfl, fun h => h, fun h => h⟩

protected theorem trans (h : start.Notes cx source src w w₁) (h' : start.Notes cx source src w₁ w₂) :
    start.Notes cx source src w w₂ where
  designates hx := h'.designates (h.designates hx)
  cell hc := h'.cell (h.cell hc)
  binding hb := h'.binding (h.binding hb)
  informed hi := h'.informed (h.informed hi)
  sources := h'.sources.trans h.sources
  registered hr := h'.registered (h.registered hr)
  noted hn := h'.noted (h.noted hn)

theorem source_eq (h : start.Notes cx source src w w₁) (s : SourceRef) :
    w₁.source s = w.source s := by
  unfold World.source
  rw [h.sources]

/-- A step that leaves everything named as before, and whose records are old ones or noted. -/
theorem of_later (h : w.Later w₁)
    (hcell : ∀ {c cell}, w.heap.cell? c = some cell → w₁.heap.cell? c = some cell)
    (hn : w₁.namespaces = w.namespaces) (hb : w₁.bindings = w.bindings)
    (hs : w₁.sources = w.sources)
    (hr : start.Noted cx source src w → ∀ x rec, start.heap.records.size ≤ x.index →
      w₁.heap.record? x = some rec →
      w.heap.record? x = some rec ∨ w₁.NotedRecord cx source src w₁.heap.Designates rec) :
    start.Notes cx source src w w₁ where
  designates := h.designates
  cell := hcell
  binding hty := hb ▸ hty
  informed hi := ⟨hn ▸ hi.namespaces, hb ▸ hi.bindings⟩
  sources := hs
  registered hreg n x hx := h.designates (x := .eager x) (hreg n x (h.construction ▸ hx))
  noted hn x rec hlo hx := by
    rcases hr hn x rec hlo hx with hold | hnew
    · exact (hn x rec hlo hold).mono (fun _ _ => h.designates) fun hty => hb ▸ hty
    · exact hnew

theorem of_heap (hheap : w₁.heap = w.heap) (hc : w₁.construction = w.construction)
    (hb : ∀ {ty b}, w.bindings.get? ty = some b → w₁.bindings.get? ty = some b)
    (hi : start.Informed cx w → start.Informed cx w₁) (hs : w₁.sources = w.sources) :
    start.Notes cx source src w w₁ where
  designates hx := hheap ▸ hx
  cell hx := hheap ▸ hx
  binding := hb
  informed := hi
  sources := hs
  registered hreg n x hx := hheap ▸ hreg n x (hc ▸ hx)
  noted hn x rec hlo hx :=
    (hn x rec hlo (hheap ▸ hx)).mono (fun _ _ hnx => hheap ▸ hnx) hb

theorem alloc (w : World) (ty : TypeName) (id : Resource) :
    start.Notes cx source src w (w.alloc (outlineRecord ty id)) := by
  have hext : w.Extends (w.alloc (outlineRecord ty id)) := .alloc w _
  refine of_later (.of_extends hext) hext.cell rfl rfl rfl fun _ x rec _ hx => ?_
  rcases Heap.record?_alloc_cases hx with hold | ⟨-, rfl⟩
  · exact .inl hold
  · exact .inr ⟨id, rfl, fun _ _ hv => by cases hv⟩

theorem allocCell (w : World) (cell : LazyCell) :
    start.Notes cx source src w { w with heap := w.heap.allocCell cell } :=
  have hext : w.Extends { w with heap := w.heap.allocCell cell } := .allocCell w cell
  of_later (.of_extends hext) hext.cell rfl rfl rfl fun _ _ _ _ hx => .inl hx

theorem enter {id : Resource} (hid : w.heap.id? r = some id) :
    start.Notes cx source src w (w.enter id r) where
  designates h := h
  cell h := h
  binding h := h
  informed h := ⟨h.namespaces, h.bindings⟩
  sources := rfl
  registered hreg n x hx := by
    simp only [World.enter, Table.get?_insert] at hx
    split at hx
    · next heq =>
      cases hx
      exact heq ▸ hid
    · exact hreg n x hx
  noted h := h

theorem leave (w : World) (id : Resource) : start.Notes cx source src w (w.leave id) where
  designates h := h
  cell h := h
  binding h := h
  informed h := ⟨h.namespaces, h.bindings⟩
  sources := rfl
  registered hreg n x hx := by
    simp only [World.leave, Table.get?_erase] at hx
    split at hx
    · cases hx
    · exact hreg n x hx
  noted h := h

theorem modify {cur next : Record} {k : Resource} (hr : w.heap.record? r = some cur)
    (hcur : cur.id = some k) (hnext : next.id = some k)
    (hn : start.Noted cx source src w → start.heap.records.size ≤ r.index →
      w.NotedRecord cx source src w.heap.Designates next) :
    start.Notes cx source src w { w with heap := w.heap.modify r fun _ => next } := by
  have hlater : w.Later { w with heap := w.heap.modify r fun _ => next } := by
    refine .of_kept (fun {x i} hx => ?_) (fun hc => hc) rfl
    obtain ⟨rec, hrec, hid⟩ := Heap.id?_eq_some.1 hx
    apply Heap.id?_eq_some.2
    by_cases hxr : r = x
    · subst hxr
      rw [hr] at hrec
      cases hrec
      exact ⟨next, Heap.record?_modify_self hr _, hnext.trans (hcur.symm.trans hid)⟩
    · refine ⟨rec, ?_, hid⟩
      simp only [Heap.record?_modify, if_neg hxr]
      exact hrec
  refine of_later hlater (fun h => h) rfl rfl rfl fun hnoted x rec hlo hx => ?_
  simp only [Heap.record?_modify] at hx
  split at hx
  · next hxr =>
    subst hxr
    rw [hr] at hx
    cases hx
    exact .inr ((hn hnoted hlo).mono (fun _ _ => hlater.designates) fun h => h)
  · exact .inl hx

end World.Notes

/-- A reference is given to a member for a node, which it names. If the member defers it there is no
record to ask. -/
def World.Given (w : World) (m : MemberBinding) (n : Resource) (x : Reference) : Prop :=
  w.heap.Designates n x ∧ (m.kind = .any ∨ m.kind.isRef) ∧ (m.lazy → w.heap.asked? x = none)

theorem World.Given.notes {cx : Setting} {source : SourceRef} {src : Source} {start w w₁ : World}
    {m : MemberBinding} {n : Resource} {x : Reference} (h : w.Given m n x)
    (hw : start.Notes cx source src w w₁) : w₁.Given m n x := by
  obtain ⟨hnames, hkind, hlazy⟩ := h
  refine ⟨hw.designates hnames, hkind, fun hm => ?_⟩
  have hnone := hlazy hm
  cases x with
  | eager r => cases hnone
  | lazy c =>
    obtain ⟨cell, hc, -, -⟩ := hnames
    unfold Heap.asked? at hnone ⊢
    dsimp only at hnone ⊢
    rw [hc] at hnone
    rw [hw.cell hc]
    exact hnone

/-- A reference that asks a record names the resource that this has for an identifier. -/
theorem World.Given.asked {w : World} {m : MemberBinding} {n id : Resource} {x : Reference}
    {r : RecordRef} (h : w.Given m n x) (hx : w.heap.asked? x = some r)
    (hr : w.heap.id? r = some id) : n = id ∧ m.lazy = false := by
  obtain ⟨hnames, -, hlazy⟩ := h
  have hid : w.heap.id? r = some n := by
    cases x with
    | eager a =>
      cases hx
      exact hnames
    | lazy c =>
      obtain ⟨cell, hc, -, hresolved⟩ := hnames
      refine hresolved r ?_
      unfold Heap.asked? at hx
      dsimp only at hx
      rw [hc] at hx
      exact hx
  refine ⟨Option.some.inj (hid.symm.trans hr), Bool.eq_false_iff.2 fun hm => ?_⟩
  rw [hlazy hm] at hx
  cases hx

/-- Runs that note what they store, and wait for ever only if a resource of the source refers to
itself. -/
def noting (cx : Setting) (source : SourceRef) (src : Source) (start : World) : Contract where
  step := start.Notes cx source src
  halt h := h = .blocked → start.Entangled cx source src
  compared _ := True
  refl := .refl
  trans := .trans
  log _ _ := .of_heap rfl rfl (fun h => h) (fun h => ⟨h.namespaces, h.bindings⟩) rfl
  back _ _ := trivial

namespace Engine

variable {cx : Setting} {source : SourceRef} {src : Source} {rd : Reading} {m : MemberBinding}
  {read : Reader} {start w₀ w : World}

/-! ## Members -/

/-- What reading the values of a record may rely on: nothing but types has been resolved since the
start, related resources are noted, and the records that are given for them have them as
identifiers. -/
structure Naming (cx : Setting) (source : SourceRef) (src : Source) (start : World) (rd : Reading)
    (read : Reader) (w₀ : World) : Prop where
  reading : rd.source = source
  content : w₀.source source = src
  described : src.describe rd.id = .ok rd.graph
  informed : start.Informed cx w₀
  related : ∀ {w}, start.Notes cx source src w₀ w → ∀ target node,
    (noting cx source src start).Keeps (read target node) (read target node)
      (fun r w' => w'.heap.id? r = some node) w

namespace Naming

theorem mono (h : Naming cx source src start rd read w₀) (hw : start.Notes cx source src w₀ w) :
    Naming cx source src start rd read w where
  reading := h.reading
  content := (hw.source_eq source).trans h.content
  described := h.described
  informed := hw.informed h.informed
  related h' := h.related (hw.trans h')

theorem source_eq (h : Naming cx source src start rd read w₀) (hw : start.Notes cx source src w₀ w) :
    w.source rd.source = src := by
  rw [hw.source_eq, h.reading, h.content]

theorem reads (h : Naming cx source src start rd read w₀) :
    Reads (noting cx source src start) src rd read read (fun _ _ _ => True) w₀ :=
  .unnoted h.source_eq (src.describe_nodes rd.id rd.graph h.described)
    (fun hw target node _ => (h.related hw target node).mono fun _ _ _ _ => trivial)
    fun _ cell _ => .allocCell _ cell

end Naming

theorem related_named (h : Naming cx source src start rd read w) (target : TypeName) {t : Term}
    {node : Resource} (ht : Resource.ofTerm? t = some node) (hk : m.kind = .any ∨ m.kind.isRef) :
    (noting cx source src start).Keeps (related cx read rd m target node)
      (related cx read rd m target node)
      (fun o w' => ∀ v, o = some v → v.NamedBy (w'.Given m) t) w := by
  unfold related
  split
  · refine .bind (V := fun c w' => w'.Given m node (.lazy c))
      (.allocCell (.allocCell w _) ?_) fun c w₁ _ hc => ?_
    · have hcell := Heap.cell?_allocCell_next w.heap { target, id := node, source := rd.source }
      refine ⟨⟨_, hcell, rfl, nofun⟩, hk, fun _ => ?_⟩
      unfold Heap.asked?
      dsimp only
      rw [hcell]
      rfl
    · exact .pure fun v hv => by cases hv; exact .ref ht hc
  · next heager =>
    refine .bind (.attempt (h.related (.refl w) target node).failing) fun r w₁ _ hr => ?_
    cases r with
    | ok r =>
      have hgiven : w₁.Given m node (.eager r) := ⟨hr, hk, fun hm => absurd hm heager⟩
      exact .pure fun v hv => by cases hv; exact .ref ht hgiven
    | error e =>
      dsimp only
      split
      · exact .fail nofun
      · exact .pure nofun

theorem nodeValue_named (h : Naming cx source src start rd read w) {t : Term} {node : Resource}
    (ht : Resource.ofTerm? t = some node) :
    (noting cx source src start).Keeps (nodeValue cx read rd m node) (nodeValue cx read rd m node)
      (fun o w' => ∀ v, o = some v → v.NamedBy (w'.Given m) t) w := by
  have atom : ∀ {w₁ : World} {v : Value}, v.IsAtom → (noting cx source src start).Keeps
      (pure (some v)) (pure (some v)) (fun o w' => ∀ v, o = some v → v.NamedBy (w'.Given m) t) w₁ :=
    fun hv => .pure fun u hu => by cases hu; exact .of_isAtom hv
  have unused : ∀ {w₁ : World} flaw, (noting cx source src start).Keeps (unresolvable cx flaw)
      (unresolvable cx flaw) (fun o w' => ∀ v, o = some v → v.NamedBy (w'.Given m) t) w₁ :=
    fun flaw => .of_failing (E := fun _ => True) (unresolvable_keeps (fun _ => trivial) nofun)
      fun _ _ => nofun
  unfold nodeValue
  split
  · exact atom trivial
  · split
    · exact atom trivial
    · exact unused _
  · next target hk => exact related_named h _ ht (.inr (hk ▸ rfl))
  · next hk =>
    refine .bind (typeOfNode_keeps node) fun ty w₁ h₁ _ => ?_
    cases ty with
    | some target => exact related_named (h.mono h₁) target ht (.inr (hk ▸ rfl))
    | none => exact unused _
  · next hk =>
    refine .bind (typeOfNode_keeps node) fun ty w₁ h₁ _ => ?_
    cases ty with
    | some target => exact related_named (h.mono h₁) target ht (.inl hk)
    | none => exact atom trivial
  · exact unused _

theorem termValue_named (h : Naming cx source src start rd read w) (t : Term) :
    (noting cx source src start).Keeps (termValue cx read rd m t) (termValue cx read rd m t)
      (fun o w' => ∀ v, o = some v → v.NamedBy (w'.Given m) t) w := by
  unfold termValue
  cases ht : Resource.ofTerm? t with
  | none =>
    refine .ofExcept (fun o ho v hv => ?_) fun _ _ => nofun
    exact .of_isAtom (Literal.decode_isAtom (hv ▸ ho))
  | some node => exact nodeValue_named h ht

theorem Naming.draws (h : Naming cx source src start rd read w₀) :
    Draws (noting cx source src start) cx src rd m read (fun w t v => v.NamedBy (w.Given m) t)
      w₀ where
  halt _ := nofun
  reads := h.reads
  later hw hv := hv.mono fun _ _ hx => hx.notes hw
  term hw _ := termValue_named (h.mono hw) _

/-- A member gets its value from the objects, and its references name the nodes that they are read
from. -/
theorem memberValue_named (h : Naming cx source src start rd read w) {objects : List Term}
    (ho : ∀ t ∈ objects, src.Knows t) :
    (noting cx source src start).Keeps (memberValue cx read rd m objects)
      (memberValue cx read rd m objects)
      (fun o w' => ∀ v, o = some v → ReadFrom cx src (w'.Given m) rd m objects v) w :=
  (memberValue_draws h.draws (.refl w) ho).mono fun _ _ _ hv v ho => .of_drawn (hv v ho)

/-! ## Records -/

variable {b : TypeBinding} {r : RecordRef}

/-- Where a record waits for itself, a resource refers to itself. -/
theorem entangled_of_waits {predicate : String} {v : Value} {cur : Record}
    (h : Naming cx source src start rd read w) (hr : w.heap.record? r = some cur)
    (hid : cur.id = some rd.id) (hb : w.bindings.get? cur.type = some b)
    (hm : b.memberFor? predicate = some m)
    (hv : ReadFrom cx src (w.Given m) rd m (rd.graph.objects rd.subject predicate) v)
    (hwaits : cur.set cx.schema w.heap r m.name v = .error .blocked) :
    start.Entangled cx source src := by
  obtain ⟨hconcrete, f, hf, hfield, x, hx, hasked⟩ := Record.waits_of_set hwaits
  obtain ⟨t, n, ht, hn, hgiven⟩ := hv.offered hx
  obtain ⟨rfl, heager⟩ := hgiven.asked hasked (Heap.id?_eq_some.2 ⟨cur, hr, hid⟩)
  exact ⟨rd, cur.type, b, predicate, m, f, t, h.reading, h.described, h.informed.bindings _ _ hb,
    hm, hgiven.2.1, heager, hconcrete, hf, hfield, ht, hn⟩

theorem assign_named {predicate : String} {v : Value} (hu : Underway rd b r w)
    (h : Naming cx source src start rd read w) (hm : b.memberFor? predicate = some m)
    (hv : ReadFrom cx src (w.Given m) rd m (rd.graph.objects rd.subject predicate) v) :
    (noting cx source src start).Keeps (assign cx r m rd.id v) (assign cx r m rd.id v)
      (fun _ => Underway rd b r) w := by
  obtain ⟨cur, hcur, hid, hb⟩ := hu
  unfold assign
  refine .bind (.recordAt Halt.noConfusion) fun cur' w₁ _ hcur' => ?_
  obtain ⟨rfl, hcur'⟩ := hcur'
  rw [hcur] at hcur'
  cases hcur'
  refine .bind .get fun w₂ w₃ _ hw => ?_
  obtain ⟨rfl, rfl⟩ := hw
  cases hset : cur.set cx.schema w₃.heap r m.name v with
  | ok next =>
    obtain ⟨htype, hnext⟩ := Record.outline_of_set hset
    have hnext := hnext.trans hid
    refine .modify (.modify hcur hid hnext fun hnoted hlo => ?_) ?_
    · obtain ⟨v', rfl, hv'⟩ := Record.set_eq_ok hset
      have hv : ReadFrom cx src w₃.heap.Designates rd m (rd.graph.objects rd.subject predicate) v :=
        hv.mono fun _ _ hx => hx.1
      have hread : ReadFrom cx src w₃.heap.Designates rd m
          (rd.graph.objects rd.subject predicate) v' := by
        rcases hv' with rfl | ⟨f, hf⟩
        · exact hv
        · exact hv.accepted hf
      obtain ⟨k, hk, hvalues⟩ := hnoted r cur hlo hcur
      refine ⟨k, hk, fun name u hu => ?_⟩
      simp only [Record.store, Table.get?_insert] at hu
      split at hu
      · next hname =>
        cases hu
        obtain rfl : rd.id = k := Option.some.inj (hid.symm.trans hk)
        exact ⟨rd, b, predicate, m, h.reading, rfl, h.described, hb, hm, hname, hread⟩
      · exact hvalues name u hu
    · exact ⟨next, Heap.record?_modify_self hcur _, hnext, htype ▸ hb⟩
  | error stop =>
    cases stop with
    | failed e =>
      dsimp only
      split
      · exact .pure ⟨cur, hcur, hid, hb⟩
      · exact .fail Halt.noConfusion
    | blocked => exact .throw fun _ => entangled_of_waits h hcur hid hb hm hv hset

theorem memberValue_extends (h : Naming cx source src start rd read w)
    (hread : ∀ w target node, anyEnd.extending.Keeps (read target node) (read target node)
      (fun _ _ => True) w) (predicate : String) :
    anyEnd.extending.Keeps
      (Run.onError (memberError m rd.id)
        (memberValue cx read rd m (rd.graph.objects rd.subject predicate)))
      (Run.onError (memberError m rd.id)
        (memberValue cx read rd m (rd.graph.objects rd.subject predicate)))
      (fun _ _ => True) w := by
  have hreads : Reads anyEnd.extending src rd read read (fun _ _ _ => True) w :=
    .unnoted (fun hw => by rw [hw.source, h.source_eq (.refl w)]) h.reads.known
      (fun {w₁} _ target node _ => hread w₁ target node) fun {w₁} _ cell _ => .allocCell w₁ cell
  have hvalue := memberValue_keeps cx m (rd.graph.objects rd.subject predicate) hreads (.refl w)
    fun t ht => hreads.knows_object ht
  exact (Contract.Keeps.onError hvalue fun _ _ => trivial).mono fun _ _ _ _ => trivial

theorem readMembers_named (h : Naming cx source src start rd read w)
    (hread : ∀ w target node, anyEnd.extending.Keeps (read target node) (read target node)
      (fun _ _ => True) w) (hu : Underway rd b r w) :
    (noting cx source src start).Keeps (readMembers cx read rd b r) (readMembers cx read rd b r)
      (fun _ => Underway rd b r) w := by
  refine .forM (I := fun _ => Underway rd b r) hu fun _ predicate _ _ w₁ h₁ hu₁ => ?_
  have h₁ := h.mono h₁
  unfold readPredicate
  split
  · exact .pure hu₁
  · next m hm =>
    have hknown : ∀ t ∈ rd.graph.objects rd.subject predicate, src.Knows t :=
      fun t ht => h₁.reads.knows_object ht
    have hvalue := memberValue_named (m := m) h₁ hknown
    refine .bind (Contract.Keeps.onError hvalue.failing fun _ _ => nofun).and_run
      fun o w₂ h₂ ho => ?_
    obtain ⟨hrun, ho⟩ := ho
    have hu₂ := hu₁.extends ((memberValue_extends h₁ hread predicate).ok hrun).1
    cases o with
    | none => exact .pure hu₂
    | some v => exact assign_named hu₂ (h₁.mono h₂) hm (ho v rfl)

/-! ## Resources -/

variable {ty : TypeName} {id : Resource}

theorem bindingOf_named : (noting cx source src start).Keeps (bindingOf cx ty) (bindingOf cx ty)
    (fun _ _ => True) w := by
  unfold Contract.Keeps
  cases hrun : bindingOf cx ty w with
  | ok b w' =>
    refine ⟨?_, trivial, fun _ => rfl⟩
    obtain ⟨-, rfl⟩ | ⟨iri, hnew, hc, rfl, rfl⟩ := bindingOf_eq_ok hrun
    · exact .refl _
    · exact .of_heap rfl rfl (extends_bind hnew _ _).binding (·.resolved hc) rfl
  | error e w' =>
    obtain ⟨rfl, -, flaw, rfl, -⟩ := bindingOf_error hrun
    exact ⟨.refl _, nofun, fun _ => rfl⟩

/-- A record that is refined loses its values, if it had any, and keeps its identifier. -/
theorem refine_named (hid : w.heap.id? r = some rd.id) :
    (noting cx source src start).Keeps (refine cx rd r ty) (refine cx rd r ty)
      (fun _ _ => True) w := by
  obtain ⟨cur, hcur, hk⟩ := Heap.id?_eq_some.1 hid
  unfold refine
  refine .bind .get fun w₁ w₂ _ hw => ?_
  obtain ⟨rfl, rfl⟩ := hw
  dsimp only
  split
  · exact .pure trivial
  · next refined _ =>
    split
    · refine .modify (.modify hcur hk rfl fun _ _ => ?_) trivial
      exact ⟨rd.id, rfl, fun _ _ hv => by cases hv⟩
    · exact .pure trivial

theorem prepare_named (hr : w.heap.record? r = some (outlineRecord ty id))
    (hsrc : w.source source = src) :
    (noting cx source src start).Keeps (prepare cx source r ty id) (prepare cx source r ty id)
      (fun o w' => ∀ rd b, o = some (rd, b) → rd.source = source ∧
        src.describe rd.id = .ok rd.graph ∧ Underway rd b r w') w := by
  have hk : (noting cx source src start).Keeps (prepare cx source r ty id) (prepare cx source r ty id)
      (fun _ _ => True) w := by
    unfold prepare
    refine .bind (.describe source id) fun a w₁ h₁ _ => ?_
    split
    · exact .fail nofun
    · dsimp only
      split
      · exact .pure trivial
      · have hid : w₁.heap.id? r = some id :=
          h₁.designates (x := .eager r) (Heap.id?_eq_some.2 ⟨_, hr, rfl⟩)
        refine .bind (refine_named hid) fun _ w₂ _ _ => ?_
        refine .bind (.recordAt nofun) fun cur w₃ _ _ => ?_
        exact .bind bindingOf_named fun _ _ _ _ => .pure trivial
  refine hk.and_run.mono fun o w' _ hrun rd b ho => ?_
  have hp := prepare_run cx source hr
  rw [hrun.1, ho] at hp
  cases hp with
  | ready _ _ _ hp =>
    refine ⟨hp.source, ?_, _, hp.record, by rw [hp.id]; rfl, hp.binding⟩
    rw [hp.id, ← hsrc]
    exact hp.described

theorem construct_named {read : Reader} (hreg : w.Registered) (hi : start.Informed cx w)
    (hsrc : w.source source = src)
    (hextends : ∀ w target node, anyEnd.extending.Keeps (read target node) (read target node)
      (fun _ _ => True) w)
    (hread : ∀ w, w.Registered → start.Informed cx w → w.source source = src → ∀ target node,
      (noting cx source src start).Keeps (read target node) (read target node)
        (fun r w' => w'.heap.id? r = some node) w) :
    (noting cx source src start).Keeps (construct cx read source ty id)
      (construct cx read source ty id) (fun r w' => w'.heap.id? r = some id) w := by
  unfold construct
  split
  · exact .fail nofun
  · refine .bind (V := fun r w₁ => r = w.heap.nextRecord ∧ w₁ = w.alloc (outlineRecord ty id))
      (.of_ok rfl (.alloc w ty id) ⟨rfl, rfl⟩ fun _ => rfl) fun r w₁ h₁ hw => ?_
    obtain ⟨rfl, rfl⟩ := hw
    have hid : (w.alloc (outlineRecord ty id)).heap.id? w.heap.nextRecord = some id :=
      Heap.id?_eq_some.2 ⟨_, Heap.record?_alloc_next w.heap _, rfl⟩
    have henter : start.Notes cx source src (w.alloc (outlineRecord ty id)) (entered w ty id) :=
      .enter hid
    have hentered := h₁.trans henter
    refine .bind (underConstruction_keeps (fun w' h => ?_) ?_) fun _ w₂ h₂ _ => ?_
    · exact (henter.trans h).trans (.leave w' id)
    · unfold fill
      refine .bind (prepare_named (record?_entered w ty id) hsrc) fun o w₂ h₂ ho => ?_
      cases o with
      | none => exact .pure trivial
      | some found =>
        obtain ⟨hsource, hd, hu⟩ := ho found.1 found.2 rfl
        have hnaming : Naming cx source src start found.1 read w₂ :=
          { reading := hsource
            content := (h₂.source_eq source).trans hsrc
            described := hd
            informed := (hentered.trans h₂).informed hi
            related := fun {w₃} h₃ target node => by
              have h := (hentered.trans h₂).trans h₃
              exact hread w₃ (h.registered hreg) (h.informed hi) ((h.source_eq source).trans hsrc)
                target node }
        exact (readMembers_named hnaming hextends hu).mono fun _ _ _ _ => trivial
    · exact .pure (h₂.designates (x := .eager w.heap.nextRecord) hid)

/-- Readings note what they store, by induction on how deep they are nested. -/
theorem readWithin_named : ∀ (n : Nat) (w : World), w.Registered → start.Informed cx w →
    w.source source = src → ∀ ty id, (noting cx source src start).Keeps (readWithin cx source n ty id)
      (readWithin cx source n ty id) (fun r w' => w'.heap.id? r = some id) w := by
  have registered : ∀ (n : Nat) (w : World) (ty : TypeName) (id : Resource) (r : RecordRef),
      w.Registered → w.construction.get? id = some r →
      (noting cx source src start).Keeps (readWithin cx source n ty id)
        (readWithin cx source n ty id) (fun r w' => w'.heap.id? r = some id) w :=
    fun n w ty id r hreg hr => .of_ok (readWithin_registered hr) (.refl w) (hreg id r hr) fun _ =>
      readWithin_registered hr
  intro n
  induction n with
  | zero =>
    intro w hreg _ _ ty id
    cases hr : w.construction.get? id with
    | some r => exact registered 0 w ty id r hreg hr
    | none => exact .congr (reuseOr_new hr) (reuseOr_new hr) (.throw nofun)
  | succ n ih =>
    intro w hreg hi hsrc ty id
    cases hr : w.construction.get? id with
    | some r => exact registered (n + 1) w ty id r hreg hr
    | none =>
      refine .congr (readWithin_succ_new hr) (readWithin_succ_new hr) ?_
      exact construct_named hreg hi hsrc (readWithin_extends n) ih

/-- **References name what they are read from**: a record that is read where nothing is under
construction has the identifier that it is read for, and the type asked for or a registered one that
extends it. All records that the reading has made have identifiers, and their values are read from
the descriptions of these; a reference that is stored for a node names it from then on, whatever is
done. So does a deferred reference name the same resource before and after it is resolved. -/
theorem fromGraph_names (cx : Setting) (w w' : World) (source : SourceRef) (ty : TypeName)
    (id : Resource) (root : RecordRef) (hidle : ∀ n, w.construction.get? n = none)
    (hrun : fromGraph cx source ty id w = .ok root w') :
    w'.heap.id? root = some id ∧
      (∃ t, w'.heap.type? root = some t ∧ (t = ty ∨ cx.schema.isA t ty ∧ w'.Registers t)) ∧
      (∀ r rec, w.heap.records.size ≤ r.index → w'.heap.record? r = some rec →
        w'.NotedRecord cx source (w.source source)
          (fun n x => ∀ ops, (w'.run cx ops).heap.resource? x = some n) rec) ∧
      ∀ c cell, w'.heap.cell? c = some cell → cell.resolved = none →
        ∀ ops, (w'.run cx ops).heap.resource? (.lazy c) = some cell.id := by
  have hgives : anyEnd.extending.Keeps (fromGraph cx source ty id) _ _ w :=
    fromGraph_gives (hidle id)
  obtain ⟨hext, ⟨rec, hrec, hid, htype⟩, -⟩ := hgives.ok hrun
  have hlater : ∀ ops, w'.Later (w'.run cx ops) := fun ops =>
    World.later_run ops fun n => by rw [hext.construction]; exact hidle n
  refine ⟨Heap.id?_eq_some.2 ⟨rec, hrec, hid⟩, ⟨rec.type, ?_, ?_⟩, fun r rec' hlo hrec' => ?_,
    fun c cell hc hres ops => ?_⟩
  · exact Option.map_eq_some_iff.2 ⟨rec, hrec, rfl⟩
  · unfold World.Registers
    rw [hext.classes]
    exact htype
  · have hnotes : (noting cx source (w.source source) w).Keeps
        (fromGraph cx source ty id) (fromGraph cx source ty id) _ w :=
      .congr (fromGraph_apply rfl) (fromGraph_apply rfl)
        (readWithin_named _ w (World.registered_of_idle hidle) (.start cx w) rfl ty id)
    have hnoted := (hnotes.ok hrun).1.noted fun r rec hlo hr =>
      absurd (Heap.record?_eq_some_lt hr) (Nat.not_lt.2 hlo)
    refine (hnoted r rec' hlo hrec').mono (fun n x hx ops => ?_) fun h => h
    exact ((hlater ops).designates hx).resource?
  · have hnow : w'.heap.Designates cell.id (.lazy c) := ⟨cell, hc, rfl, fun a ha => by
      rw [hres] at ha; cases ha⟩
    exact ((hlater ops).designates hnow).resource?

/-- Persons with a boss, and managers, who are persons. -/
def staffSetting : Setting where
  config := { defaultLanguage := "en" }
  schema := { types := [
    { name := "Person"
      descriptor := {
        classIri := some "urn:Person"
        members := [{
          name := "boss", kind := .ref (some "Person"), predicate := some "urn:boss"
          lazy := true }] } },
    { name := "Manager"
      descriptor := { classIri := some "urn:Manager", inherits := true, parents := ["Person"] } }] }

/-- A manager with a boss. -/
def staffGraph : Graph := .ofTriples
  [⟨.iri "urn:a", .iri Vocabulary.Rdf.type, .iri "urn:Manager"⟩,
    ⟨.iri "urn:a", .iri "urn:boss", .iri "urn:b"⟩]

/-- A world that knows the types and reads about the manager. -/
def staffWorld : World :=
  (World.initial staffSetting.config).run staffSetting
    [.init ["Person", "Manager"], .attach ({ graph := staffGraph } : Memory).toSource]

/-- The manager is read as a person and is found to be a manager; the boss, who is not read, is
named by the reference to her before and after she is. -/
theorem fromGraph_names_staff :
    (∀ n, staffWorld.construction.get? n = none) ∧
      ∃ root w', fromGraph staffSetting ⟨0⟩ "Person" (.iri "urn:a") staffWorld = .ok root w' ∧
        w'.heap.id? root = some (.iri "urn:a") ∧ w'.heap.type? root = some "Manager" ∧
        staffSetting.schema.isA "Manager" "Person" ∧ w'.Registers "Manager" ∧
        (∀ rec, w'.heap.record? root = some rec →
          w'.NotedRecord staffSetting ⟨0⟩ (staffWorld.source ⟨0⟩)
            (fun n x => ∀ ops, (w'.run staffSetting ops).heap.resource? x = some n) rec) ∧
        ∀ ops, (w'.run staffSetting ops).heap.resource? (.lazy ⟨0⟩) = some (.iri "urn:b") := by
  have hidle : ∀ n, staffWorld.construction.get? n = none :=
    (World.Reachable.initial.run _).stable.idle
  have hreads : Run.passes (fun root w => decide (w.heap.type? root = some "Manager") &&
      ((w.heap.cell? ⟨0⟩).any fun cell => decide (cell.resolved = none) &&
        decide (cell.id = .iri "urn:b")))
      (fromGraph staffSetting ⟨0⟩ "Person" (.iri "urn:a") staffWorld) := by
    decide +kernel
  obtain ⟨root, w', hrun, hpass⟩ := Run.exists_ok hreads
  rw [Bool.and_eq_true, Option.any_eq_true] at hpass
  obtain ⟨htype, cell, hc, hcell⟩ := hpass
  rw [Bool.and_eq_true] at hcell
  have htype : w'.heap.type? root = some "Manager" := of_decide_eq_true htype
  obtain ⟨hid, ⟨t, ht, hcases⟩, hnoted, hlazy⟩ :=
    fromGraph_names staffSetting staffWorld w' ⟨0⟩ "Person" (.iri "urn:a") root hidle hrun
  obtain rfl : t = "Manager" := Option.some.inj (ht.symm.trans htype)
  obtain ⟨hext, hregisters⟩ := hcases.resolve_left (by decide)
  refine ⟨hidle, root, w', hrun, hid, htype, hext, hregisters, fun rec hrec => ?_, fun ops => ?_⟩
  · exact hnoted root rec (Nat.zero_le _) hrec
  · rw [← of_decide_eq_true hcell.2]
    exact hlazy ⟨0⟩ cell hc (of_decide_eq_true hcell.1) ops

end Engine

end GraphMarshal
