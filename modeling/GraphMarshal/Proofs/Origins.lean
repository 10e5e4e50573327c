import GraphMarshal.Proofs.Decoding

/-!
# Where values come from

A value that a record gets in a reading is drawn from the objects of a member's predicate: a single
value from the one candidate, a collection from the elements that the objects give, one term for
each value. `memberValue_draws` says this under a contract, which may note more about each value and
its term. `Traced` says it of all that a reading has stored, also in records that it has given up
half way: what a field holds is what it keeps of a value that the member got.
-/

namespace GraphMarshal

namespace Engine

/-! ## Drawing values from objects -/

/-- The terms that an object gives to a collection: none for the empty list, the items of a list
that it starts, else itself. -/
inductive Elements (src : Source) (rd : Reading) (m : MemberBinding) (t : Term) : List Term → Prop
  | nil : t.isNil → Elements src rd m t []
  | literal : t.isResource = false → Elements src rd m t [t]
  | node {w w' : World} : w.source rd.source = src → listElements rd m t w = .ok none w' →
    Elements src rd m t [t]
  | items {ts : List Term} {w w' : World} : w.source rd.source = src →
    listElements rd m t w = .ok (some ts) w' → Elements src rd m t ts

theorem Elements.offered {src : Source} {rd : Reading} {m : MemberBinding} {objects ts : List Term}
    {t u : Term} (h : Elements src rd m t ts) (ht : t ∈ objects) (hu : u ∈ ts) :
    Offered src rd m objects u := by
  cases h with
  | nil => cases hu
  | literal => exact List.mem_singleton.1 hu ▸ .object ht
  | node => exact List.mem_singleton.1 hu ▸ .object ht
  | items hs hrun => exact .item ht hs hrun hu

/-- A value is what a member draws from objects, where `G` relates terms to the values that they
give. -/
inductive Drawn (cx : Setting) (src : Source) (rd : Reading) (m : MemberBinding)
    (objects : List Term) (G : Term → Value → Prop) : Value → Prop
  | single {t : Term} {v : Value} : m.collection = false →
    m.candidates cx.config objects = [t] → G t v → Drawn cx src rd m objects G v
  | collection {parts : List (List Term)} {vs : List Value} : m.collection →
    List.Forall₂ (Elements src rd m) (m.collected cx.config objects) parts →
    List.Forall₂ G parts.flatten vs → Drawn cx src rd m objects G (.list vs)

/-- What a contract has to grant for drawing values: `G w t v` says in a world that a term has given
a value, and goes on saying so. -/
structure Draws (K : Contract) (cx : Setting) (src : Source) (rd : Reading) (m : MemberBinding)
    (read : Reader) (G : World → Term → Value → Prop) (w₀ : World) : Prop where
  halt : ∀ e, K.halt (.failed e)
  reads : Reads K src rd read read (fun _ _ _ => True) w₀
  later : ∀ {w w' t v}, K.step w w' → G w t v → G w' t v
  term : ∀ {w t}, K.step w₀ w → src.Knows t →
    K.Keeps (termValue cx read rd m t) (termValue cx read rd m t)
      (fun o w' => ∀ v, o = some v → G w' t v) w

section

variable {K : Contract} {cx : Setting} {src : Source} {rd : Reading} {m : MemberBinding}
  {read : Reader} {G : World → Term → Value → Prop} {w₀ w : World}

theorem elements_draws (h : Draws K cx src rd m read G w₀) (hw : K.step w₀ w) {ts : List Term}
    (hts : ∀ t ∈ ts, src.Knows t) :
    K.Keeps (ts.mapM (element cx read rd m)) (ts.mapM (element cx read rd m))
      (fun vs w' => List.Forall₂ (G w') ts vs) w := by
  refine .mapM (P := fun _ ts vs w' => List.Forall₂ (G w') ts vs) (fun _ _ => .nil)
    (fun _ _ h₃ hb hbs => ?_) fun t ht w₁ h₁ => ?_
  · cases hb with
    | cons hb _ => exact .cons (h.later h₃ hb) hbs
  · refine .bind (h.term (K.trans hw h₁) (hts t ht)) fun o w₂ _ hv => ?_
    cases o with
    | none => exact .fail (h.halt _)
    | some v => exact .pure (.cons (hv v rfl) .nil)

theorem elementsOf_draws (h : Draws K cx src rd m read G w₀) (hw : K.step w₀ w) {t : Term}
    (ht : src.Knows t) :
    K.Keeps (elementsOf cx read rd m t) (elementsOf cx read rd m t)
      (fun vs w' => ∃ ts, Elements src rd m t ts ∧ List.Forall₂ (G w') ts vs) w := by
  unfold elementsOf
  split
  · next hnil => exact .pure ⟨[], .nil hnil, .nil⟩
  dsimp only
  have listed : ∀ {w₁} (ts : Option (List Term)), K.step w w₁ →
      Elements src rd m t (ts.getD [t]) → (∀ u ∈ ts.getD [t], src.Knows u) →
      K.Keeps ((ts.getD [t]).mapM (element cx read rd m))
        ((ts.getD [t]).mapM (element cx read rd m))
        (fun vs w' => ∃ ts, Elements src rd m t ts ∧ List.Forall₂ (G w') ts vs) w₁ :=
    fun ts h₁ hts hk => (elements_draws h (K.trans hw h₁) hk).mono fun _ _ _ hvs => ⟨_, hts, hvs⟩
  have itself : ∀ u ∈ [t], src.Knows u := fun u hu => List.mem_singleton.1 hu ▸ ht
  split
  · have hlist : K.Keeps (listElements rd m t) (listElements rd m t)
        (fun ts _ => ∀ l, ts = some l → ∀ u ∈ l, src.Knows u) w :=
      .of_failing (listElements_keeps h.reads hw ht) fun _ _ => h.halt _
    refine .bind hlist.and_run fun ts w₁ h₁ hrun => ?_
    cases ts with
    | none => exact listed none h₁ (.node (h.reads.source hw) hrun.1) itself
    | some items =>
      exact listed (some items) h₁ (.items (h.reads.source hw) hrun.1) (hrun.2 items rfl)
  · next hlit => exact listed none (K.refl w) (.literal (by simpa using hlit)) itself

theorem collectionValue_draws (h : Draws K cx src rd m read G w₀) (hw : K.step w₀ w)
    {objects : List Term} (ho : ∀ t ∈ objects, src.Knows t) (hm : m.collection) :
    K.Keeps (collectionValue cx read rd m objects) (collectionValue cx read rd m objects)
      (fun v w' => Drawn cx src rd m objects (G w') v) w := by
  refine .bind (V := fun parts w' => ∃ tss,
    List.Forall₂ (Elements src rd m) (m.collected cx.config objects) tss ∧
      List.Forall₂ (G w') tss.flatten parts.flatten) ?_ fun parts w₁ _ hparts => ?_
  · refine .mapM (P := fun _ ts parts w' => ∃ tss, List.Forall₂ (Elements src rd m) ts tss ∧
      List.Forall₂ (G w') tss.flatten parts.flatten)
      (fun _ _ => ⟨[], .nil, .nil⟩) (fun _ _ h₃ hb hbs => ?_) fun t ht w₁ h₁ => ?_
    · obtain ⟨ts, hts, hb⟩ := hb
      obtain ⟨tss, htss, hbs⟩ := hbs
      refine ⟨ts ++ tss, List.rel_append hts htss, ?_⟩
      have hb := hb.imp fun _ _ hg => h.later h₃ hg
      rw [List.flatten_append]
      simpa using List.rel_append hb hbs
    · have hk := ho t (MemberBinding.mem_of_mem_collected ht)
      refine (elementsOf_draws h (K.trans hw h₁) hk).mono fun vs w₂ _ hvs => ?_
      obtain ⟨ts, hts, hvs⟩ := hvs
      exact ⟨[ts], .cons hts .nil, by simpa using hvs⟩
  · obtain ⟨tss, htss, hvs⟩ := hparts
    exact .pure (.collection hm htss hvs)

/-- **A member draws its value** from the objects. -/
theorem memberValue_draws (h : Draws K cx src rd m read G w₀) (hw : K.step w₀ w)
    {objects : List Term} (ho : ∀ t ∈ objects, src.Knows t) :
    K.Keeps (memberValue cx read rd m objects) (memberValue cx read rd m objects)
      (fun o w' => ∀ v, o = some v → Drawn cx src rd m objects (G w') v) w := by
  unfold memberValue
  split
  · next hm =>
    refine .bind (collectionValue_draws h hw ho hm) fun v w₁ _ hv => ?_
    exact .pure fun u hu => by cases hu; exact hv
  · next hm =>
    unfold singleValue
    split
    · exact .pure nofun
    · next t ht =>
      have hmem : t ∈ m.candidates cx.config objects := by rw [ht]; exact List.mem_singleton_self t
      have hk := ho t (MemberBinding.mem_of_mem_candidates hmem)
      refine (h.term hw hk).mono fun o w₁ _ ho v hv => ?_
      exact .single (by simpa using hm) ht (ho v hv)
    · exact .fail (h.halt _)

end

/-! ## Values of members -/

/-- A term gave a value, in some run. -/
def Gives (cx : Setting) (read : Reader) (rd : Reading) (m : MemberBinding) (t : Term) (v : Value) :
    Prop :=
  ∃ w w', termValue cx read rd m t w = .ok (some v) w'

theorem Gives.decode {cx : Setting} {read : Reader} {rd : Reading} {m : MemberBinding} {t : Term}
    {v : Value} (h : Gives cx read rd m t v) (ht : Resource.ofTerm? t = none) :
    Literal.decode t m.kind = .ok (some v) := by
  obtain ⟨w, w', hrun⟩ := h
  unfold termValue at hrun
  rw [ht] at hrun
  dsimp only at hrun
  cases hd : Literal.decode t m.kind with
  | error e => rw [hd] at hrun; cases hrun
  | ok o => rw [hd] at hrun; cases hrun; rfl

theorem Obtained.drawn {cx : Setting} {src : Source} {rd : Reading} {b : TypeBinding}
    {m : MemberBinding} {v : Value} (h : Obtained cx src rd b m v)
    (hd : src.describe rd.id = .ok rd.graph) :
    ∃ predicate read, b.memberFor? predicate = some m ∧
      Drawn cx src rd m (rd.graph.objects rd.subject predicate) (Gives cx read rd m) v := by
  obtain ⟨predicate, read, w, w', hm, hadds, hsrc, hrun⟩ := h
  have hreads : Reads anyEnd.extending src rd read read (fun _ _ _ => True) w :=
    .unnoted (fun h₂ => by rw [h₂.source, hsrc]) (src.describe_nodes rd.id rd.graph hd)
      (fun {w₂} _ target node _ => hadds w₂ target node)
      fun {w₂} _ cell _ => .allocCell w₂ cell
  have hdraws : Draws anyEnd.extending cx src rd m read (fun _ => Gives cx read rd m) w :=
    { halt := fun _ => trivial
      reads := hreads
      later := fun _ hg => hg
      term := fun {w₁ t} hw ht => by
        have hterm : anyEnd.extending.Keeps (termValue cx read rd m t) (termValue cx read rd m t)
            (fun _ _ => True) w₁ :=
          .of_failing ((termValue_keeps hreads hw ht).mono fun _ _ _ _ => trivial)
            fun _ _ => trivial
        exact hterm.and_run.mono fun o w₂ _ hrun v hv => ⟨w₁, w₂, hv ▸ hrun.1⟩ }
  have hknows : ∀ t ∈ rd.graph.objects rd.subject predicate, src.Knows t :=
    fun t ht => hreads.knows_object ht
  have hk := memberValue_draws hdraws (.refl w) hknows
  exact ⟨predicate, read, hm, (hk.ok hrun).2.1 v rfl⟩

end Engine

/-! ## Values of records -/

open Engine

/-- Where a value comes from that a record holds under a name: a member of that name got a value
from the description of the resource that identifies the record, and this is what the field keeps of
it. -/
def World.Origin (cx : Setting) (source : SourceRef) (src : Source) (w : World) (rec : Record)
    (name : String) (v : Value) : Prop :=
  ∃ rd b m v₀, rd.source = source ∧ rec.id = some rd.id ∧ src.describe rd.id = .ok rd.graph ∧
    w.bindings.get? rec.type = some b ∧ m.name = name ∧ Obtained cx src rd b m v₀ ∧
    (v = v₀ ∨ ∃ h l f, Record.accepted h l f v₀ = .ok v)

/-- The values of all records but the first `lo` come from a source. -/
def World.Traced (cx : Setting) (source : SourceRef) (src : Source) (lo : Nat) (w : World) : Prop :=
  ∀ r rec, lo ≤ r.index → w.heap.record? r = some rec →
    ∀ name v, rec.values.get? name = some v → w.Origin cx source src rec name v

/-- What a reading does to a world as far as origins go. -/
structure World.Traces (cx : Setting) (source : SourceRef) (src : Source) (lo : Nat)
    (w w' : World) : Prop where
  sources : w'.sources = w.sources
  binding : ∀ {ty b}, w.bindings.get? ty = some b → w'.bindings.get? ty = some b
  traced : w.Traced cx source src lo → w'.Traced cx source src lo

namespace World.Traces

variable {cx : Setting} {source : SourceRef} {src : Source} {lo : Nat} {w w₁ w₂ : World}
  {r : RecordRef} {rec : Record} {name : String} {v : Value}

protected theorem refl (w : World) : w.Traces cx source src lo w := ⟨rfl, fun h => h, fun h => h⟩

protected theorem trans (h : w.Traces cx source src lo w₁) (h' : w₁.Traces cx source src lo w₂) :
    w.Traces cx source src lo w₂ :=
  ⟨h'.sources.trans h.sources, fun hb => h'.binding (h.binding hb),
    fun ht => h'.traced (h.traced ht)⟩

theorem origin (hb : ∀ {ty b}, w.bindings.get? ty = some b → w₁.bindings.get? ty = some b)
    (h : w.Origin cx source src rec name v) : w₁.Origin cx source src rec name v := by
  obtain ⟨rd, b, m, v₀, hs, hid, hd, hbound, hname, hv⟩ := h
  exact ⟨rd, b, m, v₀, hs, hid, hd, hb hbound, hname, hv⟩

theorem of_records (hs : w₁.sources = w.sources)
    (hb : ∀ {ty b}, w.bindings.get? ty = some b → w₁.bindings.get? ty = some b)
    (hr : w.Traced cx source src lo → ∀ x rec, lo ≤ x.index → w₁.heap.record? x = some rec →
      w.heap.record? x = some rec ∨
        ∀ name v, rec.values.get? name = some v → w₁.Origin cx source src rec name v) :
    w.Traces cx source src lo w₁ where
  sources := hs
  binding := hb
  traced ht x rec hlo hx name v hv := by
    rcases hr ht x rec hlo hx with hold | hnew
    · exact origin hb (ht x rec hlo hold name v hv)
    · exact hnew name v hv

theorem of_heap (hheap : w₁.heap = w.heap) (hs : w₁.sources = w.sources)
    (hb : ∀ {ty b}, w.bindings.get? ty = some b → w₁.bindings.get? ty = some b) :
    w.Traces cx source src lo w₁ :=
  of_records hs hb fun _ _ _ _ hx => .inl (hheap ▸ hx)

theorem modify {cur next : Record} (hr : w.heap.record? r = some cur)
    (hn : w.Traced cx source src lo → lo ≤ r.index →
      ∀ name v, next.values.get? name = some v → w.Origin cx source src next name v) :
    w.Traces cx source src lo { w with heap := w.heap.modify r fun _ => next } := by
  refine of_records rfl (fun h => h) fun htraced x rec hlo hx => ?_
  simp only [Heap.record?_modify] at hx
  split at hx
  · next hxr =>
    subst hxr
    rw [hr] at hx
    cases hx
    exact .inr (hn htraced hlo)
  · exact .inl hx

end World.Traces

/-- Runs that can be traced. -/
def tracing (cx : Setting) (source : SourceRef) (src : Source) (lo : Nat) : Contract where
  step := World.Traces cx source src lo
  halt _ := True
  compared _ := True
  refl := .refl
  trans := .trans
  log _ _ := .of_heap rfl rfl fun h => h
  back _ _ := trivial

namespace Engine

variable {cx : Setting} {source : SourceRef} {src : Source} {lo : Nat} {w : World}

/-- Every step of a reading can be traced. -/
theorem tracing_decodes : Decodes (tracing cx source src lo) cx source src where
  halt _ := trivial
  sources h := h.sources
  bound w ty := by
    unfold Contract.Keeps
    cases hrun : bindingOf cx ty w with
    | ok b w' =>
      obtain ⟨hext, hheap, -, -⟩ := bindingOf_ok hrun
      exact ⟨.of_heap hheap hext.sources hext.binding, trivial, fun _ => rfl⟩
    | error e w' =>
      obtain ⟨rfl, -, -⟩ := bindingOf_error hrun
      exact ⟨.refl _, trivial, fun _ => rfl⟩
  alloc w ty id := by
    refine .of_records rfl (fun h => h) fun _ x rec _ hx => ?_
    rcases Heap.record?_alloc_cases hx with hold | ⟨-, rfl⟩
    · exact .inl hold
    · exact .inr fun _ _ hv => by cases hv
  around {w w' r id} _ h := by
    have henter : w.Traces cx source src lo (w.enter id r) := .of_heap rfl rfl fun h => h
    have hleave : w'.Traces cx source src lo (w'.leave id) := .of_heap rfl rfl fun h => h
    exact (henter.trans h).trans hleave
  refine _ hr _ := .modify hr fun _ _ _ _ hv => by cases hv
  defer _ := .of_records rfl (fun h => h) fun _ _ _ _ hx => .inl hx
  store {w rd b r m v cur next} hrd hd hcur hid hb hv hset := by
    obtain ⟨htype, hnext⟩ := Record.outline_of_set hset
    obtain ⟨v', rfl, hv'⟩ := Record.set_eq_ok hset
    refine .modify hcur fun htraced hlo name u hu => ?_
    simp only [Record.store, Table.get?_insert] at hu
    split at hu
    · next hname =>
      cases hu
      refine ⟨rd, b, m, v, hrd, hid, hd, hb, hname, hv, hv'.imp_right fun hf => ?_⟩
      obtain ⟨f, hf⟩ := hf
      exact ⟨_, _, f, hf⟩
    · exact htraced r cur hlo hcur name u hu

theorem fromGraph_traces {ty : TypeName} {id : Resource} :
    (tracing cx source (w.source source) lo).Keeps (fromGraph cx source ty id)
      (fromGraph cx source ty id) (fun _ _ => True) w :=
  fromGraph_keeps tracing_decodes

theorem traced_start (w : World) : w.Traced cx source src w.heap.records.size := fun _ _ hlo hr =>
  absurd (Heap.record?_eq_some_lt hr) (Nat.not_lt.2 hlo)

end Engine

end GraphMarshal
