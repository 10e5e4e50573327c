import GraphMarshal.Proofs.Aftermath
import GraphMarshal.Proofs.Permanence

/-!
# Deferred references

A deferred reference is resolved by reading its resource, and only where this is asked for: every
other operation leaves it as it is, reading and writing too, and so does an attempt that fails. Once
it is resolved it keeps its record, and whoever follows it gets that one without a further call to
the source. Comparing goes by the resource that a reference names, which it tells without its
record.
-/

namespace GraphMarshal

open Engine

/-! ## References that stay -/

/-- The deferred references of a set stay as they are, and so does what is under construction. -/
structure World.Retains (P : LazyRef → Prop) (w w' : World) : Prop where
  cell : ∀ {c cell}, P c → w.heap.cell? c = some cell → w'.heap.cell? c = some cell
  construction : w'.construction = w.construction

namespace World.Retains

variable {P : LazyRef → Prop} {w w₁ w₂ : World}

protected theorem refl (w : World) : Retains P w w := ⟨fun _ h => h, rfl⟩

protected theorem trans (h : Retains P w w₁) (h' : Retains P w₁ w₂) : Retains P w w₂ :=
  ⟨fun hp hc => h'.cell hp (h.cell hp hc), h'.construction.trans h.construction⟩

theorem of_eq (hl : w₁.heap.lazies = w.heap.lazies) (hc : w₁.construction = w.construction) :
    Retains P w w₁ where
  cell _ h := by
    unfold Heap.cell? at h ⊢
    rw [hl]
    exact h
  construction := hc

theorem of_extends (h : w.Extends w₁) : Retains P w w₁ := ⟨fun _ => h.cell, h.construction⟩

theorem modifyCell {c : LazyRef} (hc : ¬ P c) (f : LazyCell → LazyCell) :
    Retains P w { w with heap := w.heap.modifyCell c f } where
  cell {d cell} hd h := by
    show (w.heap.modifyCell c f).cell? d = some cell
    have hne : c ≠ d := by
      rintro rfl
      exact hc hd
    rw [Heap.cell?_modifyCell, if_neg hne]
    exact h
  construction := rfl

end World.Retains

/-- Runs that leave the deferred references of a set as they are. -/
def retaining (P : LazyRef → Prop) : Contract where
  step := World.Retains P
  halt _ := True
  compared _ := True
  refl := .refl
  trans := .trans
  log _ _ := .of_eq rfl rfl
  back _ _ := trivial

/-- Runs that only add to the calls made. -/
def logging : Contract where
  step w w' := w.calls <:+ w'.calls ∧ w'.sources = w.sources
  halt _ := True
  compared _ := True
  refl _ := ⟨List.suffix_rfl, rfl⟩
  trans h h' := ⟨h.1.trans h'.1, h'.2.trans h.2⟩
  log _ c := ⟨List.suffix_cons c _, rfl⟩
  back _ _ := trivial

namespace Engine

variable {cx : Setting} {w w' : World} {P : LazyRef → Prop} {source : SourceRef} {r : RecordRef}
  {ty : TypeName} {id : Resource} {c : LazyRef} {cell : LazyCell}

theorem retaining_operates (P : LazyRef → Prop) : Operates (retaining P) where
  halt _ := trivial
  grow h := .of_extends h
  identify h := .of_eq h.lazies h.construction
  rest hheap _ hc _ := .of_eq (congrArg Heap.lazies hheap) hc

end Engine

namespace Operation

variable {cx : Setting} {w : World} {P : LazyRef → Prop}

theorem run_retains (op : Operation) (hop : ∀ c, op = .follow (.lazy c) → ¬ P c) :
    (retaining P).Keeps (op.run cx) (op.run cx) (fun _ _ => True) w :=
  (retaining_operates P).run op (fun _ _ _ _ _ _ _ _ => .of_eq rfl rfl) fun c hc =>
    (retaining_operates P).resolve fun _ _ => .modifyCell (hop c hc) _

theorem cell?_after {op : Operation} {c : LazyRef} {cell : LazyCell}
    (hop : op ≠ .follow (.lazy c)) (hc : w.heap.cell? c = some cell) :
    (op.after cx w).heap.cell? c = some cell := by
  have hkeeps : (retaining (· = c)).Keeps (op.run cx) (op.run cx) (fun _ _ => True) w :=
    op.run_retains fun d hd hdc => hop (by rw [hd, hdc])
  exact (step_after hkeeps).cell rfl hc

theorem after_follow_ok {c : LazyRef} {r : RecordRef} {w' : World}
    (h : Engine.resolve cx c w = .ok r w') : (Operation.follow (.lazy c)).after cx w = w' := by
  have hrun : (Operation.follow (.lazy c)).run cx w = .ok () w' := Run.bind_apply_ok h
  unfold after
  rw [hrun]

theorem after_follow_error {c : LazyRef} {e : Halt} {w' : World}
    (h : Engine.resolve cx c w = .error e w') : (Operation.follow (.lazy c)).after cx w = w' := by
  have hrun : (Operation.follow (.lazy c)).run cx w = .error e w' := by
    show (Engine.resolve cx c >>= fun _ => pure ()) w = _
    rw [Run.bind_apply, h]
  unfold after
  rw [hrun]

end Operation

namespace Engine

variable {cx : Setting} {w w' : World} {source : SourceRef} {r : RecordRef} {ty : TypeName}
  {id : Resource} {c : LazyRef} {cell : LazyCell}

/-! ## Attempts -/

theorem resolve_of_resolved (hc : w.heap.cell? c = some cell) (hr : cell.resolved = some r) :
    resolve cx c w = .ok r w := by
  unfold resolve
  rw [Run.bind_apply_ok (Run.get_apply w), hc]
  dsimp only
  rw [hr]
  rfl

/-- Keeps the record that a deferred reference is resolved to. -/
def settle (c : LazyRef) (r : RecordRef) (w : World) : World :=
  { w with heap := w.heap.modifyCell c fun cell => { cell with resolved := some r } }

theorem resolve_of_open (hc : w.heap.cell? c = some cell) (hopen : cell.resolved = none) :
    resolve cx c w = match fromGraph cx cell.source cell.target cell.id w with
      | .ok r w' => .ok r (settle c r w')
      | .error e w' => .error e w' := by
  unfold resolve
  rw [Run.bind_apply_ok (Run.get_apply w), hc]
  dsimp only
  rw [hopen]
  dsimp only
  rw [Run.bind_apply]
  cases fromGraph cx cell.source cell.target cell.id w <;> rfl

theorem cell?_settle (hc : w.heap.cell? c = some cell) (r : RecordRef) :
    (settle c r w).heap.cell? c = some { cell with resolved := some r } := by
  show (w.heap.modifyCell c _).cell? c = _
  rw [Heap.cell?_modifyCell, if_pos rfl, hc]
  rfl

/-! ## Calls -/

theorem bindingOf_logs :
    logging.Keeps (bindingOf cx ty) (bindingOf cx ty) (fun _ _ => True) w := by
  cases hb : w.bindings.get? ty with
  | some b => exact .congr (bindingOf_of_cached hb) (bindingOf_of_cached hb) (.pure trivial)
  | none =>
    unfold Contract.Keeps
    cases hc : cx.checkedClass ty with
    | error flaw =>
      rw [bindingOf_of_flaw hb hc]
      exact ⟨logging.refl w, trivial, fun _ => rfl⟩
    | ok iri =>
      rw [bindingOf_of_checked hb hc]
      exact ⟨⟨List.suffix_rfl, rfl⟩, trivial, fun _ => rfl⟩

theorem refine_logs {rd : Reading} :
    logging.Keeps (refine cx rd r ty) (refine cx rd r ty) (fun _ _ => True) w := by
  unfold refine
  refine .bind .get fun w₁ _ _ _ => ?_
  dsimp only
  split
  · exact .pure trivial
  · split
    · exact .modify ⟨List.suffix_rfl, rfl⟩ trivial
    · exact .pure trivial

theorem logging_decodes {src : Source} : Decodes logging cx source src where
  halt _ := trivial
  sources h := h.2
  bound _ _ := bindingOf_logs
  alloc _ _ _ := ⟨List.suffix_rfl, rfl⟩
  around _ h := h
  refine _ _ _ := ⟨List.suffix_rfl, rfl⟩
  defer _ := ⟨List.suffix_rfl, rfl⟩
  store _ _ _ _ _ _ _ := ⟨List.suffix_rfl, rfl⟩

theorem prepare_asks {o : Option (Reading × TypeBinding)}
    (h : prepare cx source r ty id w = .ok o w') :
    (source, .describe id) :: w.calls <:+ w'.calls := by
  have hdesc : Run.describe source id w = .ok ((w.source source).describe id)
      { w with calls := (source, .describe id) :: w.calls } := rfl
  unfold prepare at h
  rw [Run.bind_apply_ok hdesc] at h
  cases hd : (w.source source).describe id with
  | error e =>
    rw [hd] at h
    cases h
  | ok g =>
    rw [hd] at h
    dsimp only at h
    split at h
    · cases h
      exact List.suffix_rfl
    · obtain ⟨_, w₁, hrefine, h⟩ := Run.bind_eq_ok.1 h
      obtain ⟨cur, w₂, hcur, h⟩ := Run.bind_eq_ok.1 h
      obtain ⟨b, w₃, hbind, h⟩ := Run.bind_eq_ok.1 h
      cases h
      have h₁ := (refine_logs.ok hrefine).1
      have h₂ := (Contract.Keeps.recordAt (K := logging) trivial).ok hcur
      have h₃ := (bindingOf_logs.ok hbind).1
      exact (logging.trans h₁ (logging.trans h₂.1 h₃)).1

/-- A reading that succeeds where its resource is not under construction makes a new record, and
asks the source for the resource. -/
theorem fromGraph_anew (hnew : w.construction.get? id = none)
    (h : fromGraph cx source ty id w = .ok r w') :
    r = w.heap.nextRecord ∧ (source, .describe id) :: w.calls <:+ w'.calls := by
  rw [fromGraph_apply rfl, readWithin_succ_new hnew] at h
  cases hslot : cx.schema.carriesId ty with
  | false =>
    unfold construct at h
    rw [hslot] at h
    cases h
  | true =>
    rw [construct_apply hslot] at h
    unfold fill at h
    split at h
    · next u w₂ hfill =>
      cases h
      obtain ⟨o, w₁, hprep, hrest⟩ := Run.bind_eq_ok.1 hfill
      have hasked : (source, .describe id) :: (entered w ty id).calls <:+ w₁.calls :=
        prepare_asks hprep
      refine ⟨rfl, hasked.trans ?_⟩
      cases o with
      | none =>
        cases hrest
        exact List.suffix_rfl
      | some found =>
        have hdecodes : Decodes logging cx source (w.source source) := logging_decodes
        have hentered : (entered w ty id).source source = w.source source := rfl
        obtain ⟨hs, hready, -⟩ :=
          (prepare_keeps hdecodes hentered (record?_entered w ty id)).ok hprep
        obtain ⟨hrd, hd, hu⟩ := hready found.1 found.2 rfl
        have hmembers : logging.Keeps (readMembers cx
            (readWithin cx source (w.source source).nodes.length) found.1 found.2
            w.heap.nextRecord) _ _ w₁ :=
          readMembers_keeps hdecodes hrd hd (hdecodes.source_eq hentered hs)
            (readWithin_extends _) (readWithin_keeps hdecodes _) hu
        exact (hmembers.ok hrest).1.1
    · cases h

/-- With nothing under construction, a reading uses only records that it makes itself. -/
theorem fromGraph_newer (hidle : ∀ n, w.construction.get? n = none) :
    fromGraph cx source ty id w = readWatched cx source (admitsNewer w.heap.records.size)
      ((w.source source).nodes.length + 1) ty id w := by
  have hnewer : Newer w.heap.records.size w := fun n r hn => by
    rw [hidle n] at hn
    cases hn
  have hk : anyEnd.extending.Keeps
      (readWithin cx source ((w.source source).nodes.length + 1) ty id) _ (fun _ _ => True) w :=
    readWithin_newer _ w hnewer (Nat.le_refl _) ty id
  rw [fromGraph_apply rfl]
  cases hrun : readWithin cx source ((w.source source).nodes.length + 1) ty id w with
  | ok r w' => exact ((hk.ok hrun).2.2 trivial).symm
  | error e w' => exact ((hk.error hrun).2.2 trivial).symm

/-- The outcome of an attempt to resolve a reference that is not resolved yet. -/
theorem resolve_attempt (hc : w.heap.cell? c = some cell) (hopen : cell.resolved = none) :
    (∃ e w', resolve cx c w = .error (.failed e) w' ∧ w'.heap.cell? c = some cell) ∨
      ((∃ w', resolve cx c w = .error .blocked w') ∧
        (w.Registered → w.Entangled cx cell.source (w.source cell.source))) ∨
      ∃ r w', fromGraph cx cell.source cell.target cell.id w = .ok r w' ∧
        resolve cx c w = .ok r (settle c r w') ∧
        (settle c r w').heap.cell? c = some { cell with resolved := some r } := by
  rw [resolve_of_open hc hopen]
  obtain ⟨r, w', hrun, hs⟩ | ⟨e, w', hrun, hs⟩ | ⟨⟨w', hrun⟩, hentangled⟩ :=
    fromGraph_outcome cx w cell.source cell.target cell.id
  · rw [hrun]
    exact .inr (.inr ⟨r, w', rfl, rfl, cell?_settle (hs.cell hc) r⟩)
  · rw [hrun]
    exact .inl ⟨e, w', rfl, hs.cell hc⟩
  · rw [hrun]
    exact .inr (.inl ⟨⟨w', rfl⟩, hentangled⟩)

end Engine

/-! ## Comparing -/

theorem Heap.sameReference_congr {h h' : Heap} {x y : Reference}
    (hx : h'.resource? x = h.resource? x) (hy : h'.resource? y = h.resource? y) :
    h'.sameReference x y = h.sameReference x y := by
  unfold sameReference
  rw [hx, hy]

mutual

theorem Heap.sameValue_congr {h h' : Heap} : ∀ {a b : Value},
    (∀ x, a.Refers x ∨ b.Refers x → h'.resource? x = h.resource? x) →
      h'.sameValue a b = h.sameValue a b
  | .ref x, b, hsame => by
    cases b with
    | ref y =>
      unfold sameValue
      exact sameReference_congr (hsame x (.inl (.ref x))) (hsame y (.inr (.ref y)))
    | _ => simp [sameValue]
  | .list as, b, hsame => by
    cases b with
    | list bs =>
      unfold sameValue
      refine sameValues_congr fun x hx => hsame x ?_
      rwa [Value.refers_list, Value.refers_list]
    | _ => simp [sameValue]
  | .bool _, b, _ | .byte _, b, _ | .short _, b, _ | .int _, b, _ | .long _, b, _ | .float _, b, _
  | .double _, b, _ | .char _, b, _ | .string _, b, _ | .dateTime _, b, _ | .uri _, b, _
  | .resource _, b, _ => by cases b <;> simp [sameValue]

theorem Heap.sameValues_congr {h h' : Heap} : ∀ {as bs : List Value},
    (∀ x, (∃ v ∈ as, v.Refers x) ∨ (∃ v ∈ bs, v.Refers x) → h'.resource? x = h.resource? x) →
      h'.sameValues as bs = h.sameValues as bs
  | [], [], _ | [], _ :: _, _ | _ :: _, [], _ => by simp [sameValues]
  | a :: as, b :: bs, hsame => by
    unfold sameValues
    have hhead : h'.sameValue a b = h.sameValue a b := sameValue_congr fun x hx =>
      hsame x (hx.imp (⟨a, List.mem_cons_self, ·⟩) (⟨b, List.mem_cons_self, ·⟩))
    have htail : h'.sameValues as bs = h.sameValues as bs := sameValues_congr fun x hx =>
      hsame x (hx.imp (fun ⟨v, hv, hx⟩ => ⟨v, List.mem_cons_of_mem _ hv, hx⟩)
        fun ⟨v, hv, hx⟩ => ⟨v, List.mem_cons_of_mem _ hv, hx⟩)
    rw [hhead, htail]

end

namespace Engine

variable {cx : Setting} {w w' : World} {r : RecordRef} {c : LazyRef} {cell : LazyCell}

theorem resource?_of_extends {x : Reference} (ha : w.heap.Anchored) (h : w.Extends w')
    (hx : w.heap.Has x) : w'.heap.resource? x = w.heap.resource? x := by
  cases x with
  | eager a =>
    have hrec : w.heap.record? a = some w.heap.records[a.index] :=
      Array.getElem?_eq_getElem (show a.index < w.heap.records.size from hx)
    show w'.heap.id? a = w.heap.id? a
    unfold Heap.id?
    rw [h.record trivial hrec, hrec]
  | lazy d =>
    have hcell : w.heap.cell? d = some w.heap.lazies[d.index] :=
      Array.getElem?_eq_getElem (show d.index < w.heap.lazies.size from hx)
    have hnames : w.heap.resource? (.lazy d) = some (w.heap.cellResource w.heap.lazies[d.index]) :=
      Option.map_eq_some_iff.2 ⟨_, hcell, rfl⟩
    rw [hnames]
    exact Heap.resource?_mono ha h.id? h.cell hnames

theorem resource?_settle {x : Reference} (hc : w.heap.cell? c = some cell)
    (hopen : cell.resolved = none) (hid : w.heap.id? r = some cell.id) :
    (settle c r w).heap.resource? x = w.heap.resource? x := by
  cases x with
  | eager a => rfl
  | lazy d =>
    show ((w.heap.modifyCell c _).cell? d).map w.heap.cellResource = _
    rw [Heap.cell?_modifyCell]
    by_cases hcd : c = d
    · subst hcd
      have hnew : w.heap.cellResource { cell with resolved := some r } =
          w.heap.cellResource cell := by
        unfold Heap.cellResource
        rw [hopen, Option.bind_some, hid]
        rfl
      rw [if_pos rfl, hc]
      show some (w.heap.cellResource _) = (w.heap.cell? c).map w.heap.cellResource
      rw [hc, hnew]
      rfl
    · rw [if_neg hcd]
      rfl

end Engine

/-! ## Whole runs -/

/-- Whenever a deferred reference is to be resolved, among operations, the attempt fails. -/
def World.Resists (cx : Setting) (c : LazyRef) (w : World) (ops : List Operation) : Prop :=
  ∀ before after, ops = before ++ .follow (.lazy c) :: after →
    ∃ e w', resolve cx c (w.run cx before) = .error e w'

theorem World.Resists.head {cx : Setting} {c : LazyRef} {w : World} {ops : List Operation}
    (h : w.Resists cx c (.follow (.lazy c) :: ops)) : ∃ e w', resolve cx c w = .error e w' :=
  h [] ops rfl

theorem World.Resists.tail {cx : Setting} {c : LazyRef} {w : World} {op : Operation}
    {ops : List Operation} (h : w.Resists cx c (op :: ops)) :
    (op.after cx w).Resists cx c ops := fun before after heq =>
  h (op :: before) after (by rw [heq]; rfl)

theorem World.cell?_run {cx : Setting} {c : LazyRef} {cell : LazyCell} (ops : List Operation)
    {w : World} (hc : w.heap.cell? c = some cell)
    (hopen : cell.resolved = none → w.Resists cx c ops) :
    (w.run cx ops).heap.cell? c = some cell := by
  induction ops generalizing w with
  | nil => exact hc
  | cons op ops ih =>
    refine ih (w := op.after cx w) ?_ fun hnone => (hopen hnone).tail
    by_cases hop : op = .follow (.lazy c)
    · subst hop
      cases hres : cell.resolved with
      | some r => rw [Operation.after_follow_ok (resolve_of_resolved hc hres)]; exact hc
      | none =>
        obtain ⟨e, w', he⟩ := (hopen hres).head
        rw [Operation.after_follow_error he]
        rw [resolve_of_open hc hres] at he
        split at he
        · cases he
        · next hrun =>
          cases he
          exact ((retaining_operates fun _ => True).fromGraph.error hrun).1.cell trivial hc
    · exact Operation.cell?_after hop hc

namespace Engine

variable {cx : Setting} {w : World} {r : RecordRef} {c : LazyRef} {cell : LazyCell}

theorem resolve_run_of_resolved (hc : w.heap.cell? c = some cell) (hr : cell.resolved = some r)
    (ops : List Operation) : resolve cx c (w.run cx ops) = .ok r (w.run cx ops) := by
  refine resolve_of_resolved (World.cell?_run ops hc fun hnone => ?_) hr
  rw [hr] at hnone
  cases hnone

/-- **Deferred references are resolved once**, whatever is done with the engine in between and
whoever holds the reference. One that is resolved gives its record and does nothing else. One that
is not, and has resisted all attempts so far, is as it was and names its resource, also after a
record is written. To resolve it is to read its resource with nothing but what this reading makes,
and to keep the record. Unless a resource refers to itself this returns: either it fails and the
reference is still as it was, or the record is new, the source has been asked for it, comparisons
come out as before, and from then on the reference gives this record and does nothing else. -/
theorem resolves_once (cx : Setting) (w : World) (c : LazyRef) (cell : LazyCell)
    (hw : w.Reachable cx) (hc : w.heap.cell? c = some cell) :
    (∀ r, cell.resolved = some r → ∀ ops,
      resolve cx c (w.run cx ops) = .ok r (w.run cx ops)) ∧
    (cell.resolved = none → ∀ ops u, u = w.run cx ops → w.Resists cx c ops →
      u.heap.cell? c = some cell ∧ u.heap.resource? (.lazy c) = some cell.id ∧
      (∀ r, ((Operation.write r).after cx u).heap.cell? c = some cell) ∧
      resolve cx c u = (do
        let r ← readWatched cx cell.source (admitsNewer u.heap.records.size)
          ((u.source cell.source).nodes.length + 1) cell.target cell.id
        modify (settle c r)
        pure r) u ∧
      ((∃ e u', resolve cx c u = .error (.failed e) u' ∧ u'.heap.cell? c = some cell) ∨
        ((∃ u', resolve cx c u = .error .blocked u') ∧
          u.Entangled cx cell.source (u.source cell.source)) ∨
        ∃ r u', resolve cx c u = .ok r u' ∧
          r = u.heap.nextRecord ∧ u'.heap.id? r = some cell.id ∧
          (cell.source, .describe cell.id) :: u.calls <:+ u'.calls ∧
          (∀ a b, (∀ x, a.Refers x ∨ b.Refers x → u.heap.Has x) →
            u'.heap.sameValue a b = u.heap.sameValue a b) ∧
          ∀ ops', resolve cx c (u'.run cx ops') = .ok r (u'.run cx ops'))) := by
  refine ⟨fun r hr => resolve_run_of_resolved hc hr, ?_⟩
  rintro hopen ops u rfl hresists
  have hstable := (hw.run ops).stable
  have hcell : (w.run cx ops).heap.cell? c = some cell := World.cell?_run ops hc fun _ => hresists
  refine ⟨hcell, ?names, fun r => Operation.cell?_after nofun hcell, ?reading, ?outcome⟩
  case names =>
    refine Option.map_eq_some_iff.2 ⟨cell, hcell, ?_⟩
    unfold Heap.cellResource
    rw [hopen]
    rfl
  case reading =>
    rw [resolve_of_open hcell hopen, fromGraph_newer hstable.idle, Run.bind_apply]
    generalize readWatched cx cell.source _ _ cell.target cell.id (w.run cx ops) = result
    cases result <;> rfl
  case outcome =>
    have hreg : (w.run cx ops).Registered := World.registered_of_idle hstable.idle
    refine (resolve_attempt hcell hopen).imp_right (.imp (.imp_right (· hreg)) ?_)
    rintro ⟨r, u', hread, hres, hsettled⟩
    obtain ⟨hr, hasked⟩ := fromGraph_anew (hstable.idle cell.id) hread
    have hid : u'.heap.id? r = some cell.id := id?_of_fromGraph hstable.idle hread
    have hext := ((fromGraph_lasts (hstable.idle cell.id)).ok hread).2.1.1
    refine ⟨r, settle c r u', hres, hr, hid, hasked, fun a b hhas => ?_,
      resolve_run_of_resolved hsettled rfl⟩
    refine Heap.sameValue_congr fun x hx => ?_
    rw [resource?_settle (hext.cell hcell) hopen hid]
    exact resource?_of_extends hstable.sound.anchored hext (hhas x hx)

/-- Persons who know a person, who is read later. -/
def laterSetting : Setting where
  config := { defaultLanguage := "en" }
  schema := { types := [{
    name := "Person"
    descriptor := {
      classIri := some "urn:Person"
      members := [{
        name := "knows", kind := .ref (some "Person"), predicate := some "urn:knows"
        lazy := true }] } }] }

/-- A person who knows another one. -/
def laterGraph : Graph := .ofTriples [⟨.iri "urn:a", .iri "urn:knows", .iri "urn:b"⟩]

/-- The person is read, and then the source fails to describe the other one. -/
def laterWorld : World := (World.initial laterSetting.config).run laterSetting
  [.attach ({ graph := laterGraph } : Memory).toSource, .read ⟨0⟩ "Person" (.iri "urn:a"),
    .replace ⟨0⟩ ({ graph := laterGraph
                    failures := [(.iri "urn:b", .other "unavailable")] } : Memory).toSource]

/-- An attempt to follow the reference, and the source as it was. -/
def laterOperations : List Operation :=
  [.follow (.lazy ⟨0⟩), .replace ⟨0⟩ ({ graph := laterGraph } : Memory).toSource]

theorem resists_later : laterWorld.Resists laterSetting ⟨0⟩ laterOperations := by
  intro before after heq
  rcases before with _ | ⟨_, _ | ⟨_, before⟩⟩
  · have hfails : (Run.failure? (resolve laterSetting ⟨0⟩ laterWorld)).isSome := by decide +kernel
    obtain ⟨e, he⟩ := Option.isSome_iff_exists.1 hfails
    obtain ⟨w', hw'⟩ := Run.exists_failed he
    exact ⟨_, w', hw'⟩
  · cases heq
  · simp [laterOperations] at heq

/-- The reference is followed in vain, and is then resolved for good. -/
theorem resolves_once_later : laterWorld.Reachable laterSetting ∧
    ∃ cell, laterWorld.heap.cell? ⟨0⟩ = some cell ∧ cell.resolved = none ∧
      laterWorld.Resists laterSetting ⟨0⟩ laterOperations ∧
      ∃ r u', resolve laterSetting ⟨0⟩ (laterWorld.run laterSetting laterOperations) = .ok r u' ∧
        ∀ ops, resolve laterSetting ⟨0⟩ (u'.run laterSetting ops) =
          .ok r (u'.run laterSetting ops) := by
  have hreach : laterWorld.Reachable laterSetting := World.Reachable.initial.run _
  have hc : laterWorld.heap.cell? ⟨0⟩ =
      some { target := "Person", id := .iri "urn:b", source := ⟨0⟩ } := rfl
  have hready : Run.passes (fun _ _ => true)
      (resolve laterSetting ⟨0⟩ (laterWorld.run laterSetting laterOperations)) := by decide +kernel
  refine ⟨hreach, _, hc, rfl, resists_later, ?_⟩
  obtain ⟨-, -, -, -, houtcome⟩ := (resolves_once laterSetting laterWorld ⟨0⟩ _ hreach hc).2 rfl
    laterOperations _ rfl resists_later
  rcases houtcome with ⟨e, u', he, -⟩ | ⟨⟨u', he⟩, -⟩ | ⟨r, u', hr, -, -, -, -, hlater⟩
  · rw [he] at hready
    cases hready
  · rw [he] at hready
    cases hready
  · exact ⟨r, u', hr, hlater⟩

end Engine

end GraphMarshal
