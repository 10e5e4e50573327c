import GraphMarshal.Engine.Follow
import GraphMarshal.Proofs.Outcome

/-!
# Reading under a contract

What holds of a whole reading, whatever the contract: it resolves types, it makes records without
values and enters them as under construction, it refines them before they have values, it makes
deferred references, and it stores values that members got from the description of the resource.
`Decodes` is what a contract has to grant for these steps; `readWithin_keeps` is then about readings
of any depth, however they end.
-/

namespace GraphMarshal.Engine

/-- A record is being read: it has the identifier of the resource, and its type the binding. -/
def Underway (rd : Reading) (b : TypeBinding) (r : RecordRef) (w : World) : Prop :=
  ∃ rec, w.heap.record? r = some rec ∧ rec.id = some rd.id ∧ w.bindings.get? rec.type = some b

theorem Underway.extends {rd : Reading} {b : TypeBinding} {r : RecordRef} {w w' : World}
    (h : Underway rd b r w) (hw : w.Extends w') : Underway rd b r w' := by
  obtain ⟨rec, hrec, hid, hb⟩ := h
  exact ⟨rec, hw.record trivial hrec, hid, hw.binding hb⟩

/-- Whatever a reader is asked for, it only adds to the world. -/
def Reader.Adds (read : Reader) : Prop :=
  ∀ w target node, anyEnd.extending.Keeps (read target node) (read target node)
    (fun _ _ => True) w

/-- A member of a binding got a value from the objects of its predicate, in some run. -/
def Obtained (cx : Setting) (src : Source) (rd : Reading) (b : TypeBinding) (m : MemberBinding)
    (v : Value) : Prop :=
  ∃ predicate read w w', b.memberFor? predicate = some m ∧ Reader.Adds read ∧
    w.source rd.source = src ∧
    memberValue cx read rd m (rd.graph.objects rd.subject predicate) w = .ok (some v) w'

/-- What a contract has to grant for reading from a source. -/
structure Decodes (K : Contract) (cx : Setting) (source : SourceRef) (src : Source) : Prop where
  halt : ∀ e, K.halt e
  sources : ∀ {w w'}, K.step w w' → w'.sources = w.sources
  bound : ∀ w ty, K.Keeps (bindingOf cx ty) (bindingOf cx ty) (fun _ _ => True) w
  alloc : ∀ w ty id, K.step w (w.alloc (outlineRecord ty id))
  /-- What may be done while a record is under construction may be done before and after. -/
  around : ∀ {w w' r id}, w.construction.get? id = none → K.step (w.enter id r) w' →
    K.step w (w'.leave id)
  refine : ∀ {w r rec id} ty, w.heap.record? r = some rec → rec.id = some id →
    K.step w { w with heap := w.heap.modify r fun _ => outlineRecord ty id }
  defer : ∀ {w cell}, cell.resolved = none → K.step w { w with heap := w.heap.allocCell cell }
  store : ∀ {w rd b r m v cur next}, rd.source = source → src.describe rd.id = .ok rd.graph →
    w.heap.record? r = some cur → cur.id = some rd.id → w.bindings.get? cur.type = some b →
    Obtained cx src rd b m v → cur.set cx.schema w.heap r m.name v = .ok next →
    K.step w { w with heap := w.heap.modify r fun _ => next }

variable {K : Contract} {cx : Setting} {source : SourceRef} {src : Source} {rd : Reading}
  {b : TypeBinding} {r : RecordRef} {ty : TypeName} {id : Resource} {read : Reader} {w w' : World}

theorem Decodes.source_eq (h : Decodes K cx source src) (hw : w.source source = src)
    (hs : K.step w w') : w'.source source = src := by
  unfold World.source
  rw [h.sources hs]
  exact hw

/-! ## Members -/

theorem assign_keeps_underway {m : MemberBinding} {v : Value} (h : Decodes K cx source src)
    (hrd : rd.source = source) (hd : src.describe rd.id = .ok rd.graph) (hu : Underway rd b r w)
    (hv : Obtained cx src rd b m v) :
    K.Keeps (assign cx r m rd.id v) (assign cx r m rd.id v) (fun _ => Underway rd b r) w := by
  obtain ⟨cur, hcur, hid, hb⟩ := hu
  unfold assign
  refine .bind (.recordAt (h.halt _)) fun cur' w₁ _ hcur' => ?_
  obtain ⟨rfl, hcur'⟩ := hcur'
  rw [hcur] at hcur'
  cases hcur'
  refine .bind .get fun w₂ w₃ _ hw => ?_
  obtain ⟨rfl, rfl⟩ := hw
  split
  · next next hset =>
    obtain ⟨htype, hnext⟩ := Record.outline_of_set hset
    exact .modify (h.store hrd hd hcur hid hb hv hset)
      ⟨next, Heap.record?_modify_self hcur _, hnext.trans hid, htype ▸ hb⟩
  · split
    · exact .pure ⟨cur, hcur, hid, hb⟩
    · exact .fail (h.halt _)
  · exact .throw (h.halt _)

/-- Reading the members of a record leaves it the one that is read, since reading related resources
only adds to the world. -/
theorem readMembers_keeps (h : Decodes K cx source src) (hrd : rd.source = source)
    (hd : src.describe rd.id = .ok rd.graph) (hsrc : w.source source = src)
    (hadds : Reader.Adds read)
    (hread : ∀ w, w.source source = src → ∀ target node,
      K.Keeps (read target node) (read target node) (fun _ _ => True) w)
    (hu : Underway rd b r w) :
    K.Keeps (readMembers cx read rd b r) (readMembers cx read rd b r)
      (fun _ => Underway rd b r) w := by
  have hknown := src.describe_nodes rd.id rd.graph hd
  refine .forM (I := fun _ => Underway rd b r) hu fun _ predicate _ _ w₁ h₁ hu₁ => ?_
  have hsrc₁ : w₁.source source = src := h.source_eq hsrc h₁
  unfold readPredicate
  split
  · exact .pure hu₁
  · next m hm =>
    have hreads : Reads K src rd read read (fun _ _ _ => True) w₁ :=
      .unnoted (fun h₂ => by rw [hrd]; exact h.source_eq hsrc₁ h₂) hknown
        (fun {w₂} h₂ target node _ => hread w₂ (h.source_eq hsrc₁ h₂) target node)
        fun _ _ hc => h.defer hc
    have hgrows : Reads anyEnd.extending src rd read read (fun _ _ _ => True) w₁ :=
      .unnoted (fun h₂ => by rw [hrd, h₂.source, hsrc₁]) hknown
        (fun {w₂} _ target node _ => hadds w₂ target node)
        fun {w₂} _ cell _ => .allocCell w₂ cell
    have hknows : ∀ t ∈ rd.graph.objects rd.subject predicate, src.Knows t :=
      fun t ht => hreads.knows_object ht
    have hvalue : K.Keeps (memberValue cx read rd m (rd.graph.objects rd.subject predicate))
        (memberValue cx read rd m (rd.graph.objects rd.subject predicate))
        (fun o w₂ => Underway rd b r w₂ ∧ ∀ v, o = some v → Obtained cx src rd b m v) w₁ := by
      have hkeeps : K.Keeps _ _ (fun _ _ => True) w₁ :=
        .of_failing ((memberValue_keeps cx m _ hreads (K.refl w₁) hknows).mono
          fun _ _ _ _ => trivial) fun _ _ => h.halt _
      refine hkeeps.and_run.mono fun o w₂ _ hrun => ⟨?_, fun v hv => ?_⟩
      · exact hu₁.extends ((memberValue_keeps cx m _ hgrows (.refl w₁) hknows).ok hrun.1).1
      · exact ⟨predicate, read, w₁, w₂, hm, hadds, by rw [hrd, hsrc₁], hv ▸ hrun.1⟩
    refine .bind (.onError hvalue.failing fun _ _ => h.halt _) fun o w₂ _ ho => ?_
    cases o with
    | none => exact .pure ho.1
    | some v => exact assign_keeps_underway h hrd hd ho.1 (ho.2 v rfl)

/-! ## Records -/

theorem refine_keeps (h : Decodes K cx source src) (hid : w.heap.id? r = some rd.id) :
    K.Keeps (refine cx rd r ty) (refine cx rd r ty) (fun _ _ => True) w := by
  obtain ⟨cur, hcur, hk⟩ := Heap.id?_eq_some.1 hid
  unfold refine
  refine .bind .get fun w₁ w₂ _ hw => ?_
  obtain ⟨rfl, rfl⟩ := hw
  dsimp only
  split
  · exact .pure trivial
  · split
    · exact .modify (h.refine _ hcur hk) trivial
    · exact .pure trivial

theorem prepare_keeps (h : Decodes K cx source src) (hsrc : w.source source = src)
    (hr : w.heap.record? r = some (outlineRecord ty id)) :
    K.Keeps (prepare cx source r ty id) (prepare cx source r ty id)
      (fun o w' => ∀ rd b, o = some (rd, b) → rd.source = source ∧
        src.describe rd.id = .ok rd.graph ∧ Underway rd b r w') w := by
  have hk : K.Keeps (prepare cx source r ty id) (prepare cx source r ty id)
      (fun _ _ => True) w := by
    unfold prepare
    refine .bind (V := fun _ w₁ => w₁.heap = w.heap) ⟨K.log w _, rfl, fun _ => rfl⟩
      fun a w₁ _ hheap => ?_
    split
    · exact .fail (h.halt _)
    · dsimp only
      split
      · exact .pure trivial
      · have hid : w₁.heap.id? r = some id := by
          rw [hheap]
          exact Heap.id?_eq_some.2 ⟨_, hr, rfl⟩
        refine .bind (refine_keeps h hid) fun _ w₂ _ _ => ?_
        refine .bind (.recordAt (h.halt _)) fun cur w₃ _ _ => ?_
        exact .bind (h.bound _ _) fun _ _ _ _ => .pure trivial
  refine hk.and_run.mono fun o w' _ hrun rd b ho => ?_
  have hp := prepare_run cx source hr
  rw [hrun.1, ho] at hp
  cases hp with
  | ready _ _ _ hp =>
    refine ⟨hp.source, ?_, _, hp.record, by rw [hp.id]; rfl, hp.binding⟩
    rw [hp.id, ← hsrc]
    exact hp.described

theorem construct_decodes (h : Decodes K cx source src) (hsrc : w.source source = src)
    (hnew : w.construction.get? id = none)
    (hadds : Reader.Adds read)
    (hread : ∀ w, w.source source = src → ∀ target node,
      K.Keeps (read target node) (read target node) (fun _ _ => True) w) :
    K.Keeps (construct cx read source ty id) (construct cx read source ty id)
      (fun _ _ => True) w := by
  unfold construct
  split
  · exact .fail (h.halt _)
  · refine .bind (V := fun r w₁ => r = w.heap.nextRecord ∧ w₁ = w.alloc (outlineRecord ty id))
      (.of_ok rfl (h.alloc w ty id) ⟨rfl, rfl⟩ fun _ => rfl) fun r w₁ _ hw => ?_
    obtain ⟨rfl, rfl⟩ := hw
    refine .bind (underConstruction_keeps (fun w' hs => h.around hnew hs) ?_)
      fun _ _ _ _ => .pure trivial
    unfold fill
    refine .bind (prepare_keeps h hsrc (record?_entered w ty id)) fun o w₂ h₂ ho => ?_
    cases o with
    | none => exact .pure trivial
    | some found =>
      obtain ⟨hrd, hd, hu⟩ := ho found.1 found.2 rfl
      have hentered : (entered w ty id).source source = src := hsrc
      have hsrc₂ : w₂.source source = src := h.source_eq hentered h₂
      exact (readMembers_keeps h hrd hd hsrc₂ hadds hread hu).mono fun _ _ _ _ => trivial

/-! ## Whole readings -/

/-- **Readings under a contract** are as the contract says, by induction on how deep they are
nested. -/
theorem readWithin_keeps (h : Decodes K cx source src) : ∀ (n : Nat) (w : World),
    w.source source = src → ∀ ty id,
      K.Keeps (readWithin cx source n ty id) (readWithin cx source n ty id)
        (fun _ _ => True) w := by
  intro n
  induction n with
  | zero =>
    intro w _ ty id
    refine .bind .get fun w₁ _ _ _ => ?_
    split
    · exact .pure trivial
    · exact .throw (h.halt _)
  | succ n ih =>
    intro w hsrc ty id
    cases hr : w.construction.get? id with
    | some r =>
      exact .of_ok (readWithin_registered hr) (K.refl w) trivial fun _ => readWithin_registered hr
    | none =>
      refine .congr (readWithin_succ_new hr) (readWithin_succ_new hr) ?_
      exact construct_decodes h hsrc hr (readWithin_extends n) ih

theorem fromGraph_keeps (h : Decodes K cx source (w.source source)) :
    K.Keeps (fromGraph cx source ty id) (fromGraph cx source ty id) (fun _ _ => True) w :=
  .congr (fromGraph_apply rfl) (fromGraph_apply rfl) (readWithin_keeps h _ w rfl ty id)

theorem resolve_keeps {c : LazyRef} (h : ∀ source, Decodes K cx source (w.source source))
    (hresolved : ∀ {cell a w'}, w.heap.cell? c = some cell →
      fromGraph cx cell.source cell.target cell.id w = .ok a w' →
      K.step w'
        { w' with heap := w'.heap.modifyCell c fun cell => { cell with resolved := some a } }) :
    K.Keeps (resolve cx c) (resolve cx c) (fun _ _ => True) w := by
  unfold resolve
  refine .bind .get fun w₁ w₂ _ hw => ?_
  obtain ⟨rfl, rfl⟩ := hw
  split
  · exact .throw ((h ⟨0⟩).halt _)
  · next cell hc =>
    split
    · exact .pure trivial
    · refine .bind (fromGraph_keeps (h cell.source)).and_run fun a w₃ _ hrun => ?_
      exact .bind (V := fun _ _ => True) (.modify (hresolved hc hrun.1) trivial)
        fun _ _ _ _ => .pure trivial

theorem id?_of_fromGraph {a : RecordRef} (hidle : ∀ n, w.construction.get? n = none)
    (hrun : fromGraph cx source ty id w = .ok a w') : w'.heap.id? a = some id := by
  have hgives : anyEnd.extending.Keeps (fromGraph cx source ty id) _ _ w :=
    fromGraph_gives (hidle id)
  obtain ⟨-, ⟨rec, hrec, hid, -⟩, -⟩ := hgives.ok hrun
  exact Heap.id?_eq_some.2 ⟨rec, hrec, hid⟩

end GraphMarshal.Engine
