import GraphMarshal.Engine.Write
import GraphMarshal.Proofs.Decoding
import GraphMarshal.Proofs.Encoding
import GraphMarshal.Proofs.Fields
import GraphMarshal.Proofs.Identification
import GraphMarshal.Proofs.Termination

/-!
# Sound worlds

What an engine keeps is sound: every resolved binding is the one that its type is declared to have,
every field of a concrete record holds a value that it keeps, and every resolved reference leads to
a record with an identifier. Reading and writing keep a world sound, also where they fail half way.
-/

namespace GraphMarshal

open Engine

structure World.Sound (cx : Setting) (w : World) : Prop where
  bound : ∀ {ty b}, w.bindings.get? ty = some b →
    ∃ n iri, cx.checkedClass ty = .ok iri ∧ b = TypeBinding.build cx n ty iri
  kept : ∀ {r rec}, w.heap.record? r = some rec → cx.schema.isAbstract rec.type = false →
    ∀ {name v}, rec.values.get? name = some v →
      ∃ f, cx.schema.field? rec.type name = some f ∧ f.Keeps v
  anchored : w.heap.Anchored

/-! ## Bindings -/

theorem Setting.carriesId_of_checkedClass {cx : Setting} {ty : TypeName} {iri : String}
    (h : cx.checkedClass ty = .ok iri) : cx.schema.carriesId ty := by
  unfold checkedClass at h
  split at h
  · cases h
  · split at h
    · cases h
    · simp_all

theorem nodup_names_override {ms : List Member} (m : Member) (h : (ms.map (·.name)).Nodup) :
    ((override ms m).map (·.name)).Nodup := by
  unfold override
  rw [List.map_append]
  refine List.nodup_append.2 ⟨(List.filter_sublist.map _).nodup h, List.pairwise_singleton _ _, ?_⟩
  intro name hname name' hname' heq
  obtain ⟨e, he, rfl⟩ := List.mem_map.1 hname
  rw [List.map_singleton, List.mem_singleton] at hname'
  have hne := (List.mem_filter.1 he).2
  simp only [ne_eq, decide_not, Bool.not_eq_eq_eq_not, Bool.not_true,
    decide_eq_false_iff_not] at hne
  exact hne (heq.trans hname')

theorem nodup_names_effectiveMembers (s : Schema) (ty : TypeName) :
    ((s.effectiveMembers ty).map (·.name)).Nodup := by
  unfold Schema.effectiveMembers
  generalize ((s.inherited ty).flatMap fun a => (s.descriptor a).members) ++
    (s.descriptor ty).members = declared
  suffices ∀ ms : List Member, (ms.map (·.name)).Nodup →
    ((declared.foldl override ms).map (·.name)).Nodup from
    this [] .nil
  induction declared with
  | nil => exact fun _ h => h
  | cons m declared ih => exact fun ms h => ih _ (nodup_names_override m h)

theorem MemberBinding.name_of_ofMember? {c : Config} {n : Namespaces} {base : String} {m : Member}
    {b : MemberBinding} (h : MemberBinding.ofMember? c n base m = some b) : b.name = m.name := by
  unfold MemberBinding.ofMember? at h
  split at h
  · cases h
  · obtain ⟨p, -, rfl⟩ := Option.map_eq_some_iff.1 h
    rfl

theorem TypeBinding.nodup_names_build (cx : Setting) (n : Namespaces) (ty : TypeName)
    (iri : String) :
    ((TypeBinding.build cx n ty iri).members.map (·.name)).Nodup := by
  have h := nodup_names_effectiveMembers cx.schema ty
  unfold TypeBinding.build
  dsimp only
  generalize cx.schema.effectiveMembers ty = ms at h
  induction ms with
  | nil => exact .nil
  | cons m ms ih =>
    rw [List.map_cons, List.nodup_cons] at h
    rw [List.filterMap_cons]
    split
    · exact ih h.2
    · next b hb =>
      rw [List.map_cons, List.nodup_cons]
      refine ⟨fun hmem => h.1 ?_, ih h.2⟩
      obtain ⟨b', hb', heq⟩ := List.mem_map.1 hmem
      obtain ⟨m', hm', hofm⟩ := List.mem_filterMap.1 hb'
      rw [← MemberBinding.name_of_ofMember? hb, ← heq, MemberBinding.name_of_ofMember? hofm]
      exact List.mem_map_of_mem hm'

namespace World.Sound

variable {cx : Setting} {w : World} {ty : TypeName} {b : TypeBinding}

theorem carriesId (h : w.Sound cx) (hb : w.bindings.get? ty = some b) : cx.schema.carriesId ty := by
  obtain ⟨n, iri, hc, -⟩ := h.bound hb
  exact Setting.carriesId_of_checkedClass hc

theorem names (h : w.Sound cx) (hb : w.bindings.get? ty = some b) :
    (b.members.map (·.name)).Nodup := by
  obtain ⟨n, iri, -, rfl⟩ := h.bound hb
  exact TypeBinding.nodup_names_build cx n ty iri

end World.Sound

/-! ## Runs -/

theorem World.Sound.of_eq {cx : Setting} {w w₁ : World} (h : w.Sound cx)
    (hb : w₁.bindings = w.bindings) (hh : w₁.heap = w.heap) : w₁.Sound cx :=
  ⟨fun hb' => h.bound (hb ▸ hb'), fun hr => h.kept (hh ▸ hr), hh ▸ h.anchored⟩

/-- What runs do to a world besides what they are for: it stays sound, what is under construction
and the sources are the same, and who has an identifier has one afterwards. -/
structure World.Preserves (cx : Setting) (w w' : World) : Prop where
  sound : w.Sound cx → w'.Sound cx
  construction : w'.construction = w.construction
  sources : w'.sources = w.sources
  identified : ∀ r, (∃ k, w.heap.id? r = some k) → ∃ k, w'.heap.id? r = some k

namespace World.Preserves

variable {cx : Setting} {w w₁ w₂ : World} {r : RecordRef}

protected theorem refl (w : World) : Preserves cx w w := ⟨fun h => h, rfl, rfl, fun _ h => h⟩

protected theorem trans (h : Preserves cx w w₁) (h' : Preserves cx w₁ w₂) : Preserves cx w w₂ where
  sound hs := h'.sound (h.sound hs)
  construction := h'.construction.trans h.construction
  sources := h'.sources.trans h.sources
  identified r hr := h'.identified r (h.identified r hr)

theorem of_eq (hb : w₁.bindings = w.bindings) (hh : w₁.heap = w.heap)
    (hc : w₁.construction = w.construction) (hs : w₁.sources = w.sources) : Preserves cx w w₁ where
  sound h := h.of_eq hb hh
  construction := hc
  sources := hs
  identified r hr := by rw [hh]; exact hr

theorem bind {ty : TypeName} {iri : String} {n n' : Namespaces}
    (hc : cx.checkedClass ty = .ok iri) :
    Preserves cx w
      { w with namespaces := n', bindings := w.bindings.insert ty (.build cx n ty iri) } where
  sound h :=
    { bound := fun {ty' b} hb => by
        rw [Table.get?_insert] at hb
        split at hb
        · next heq =>
          subst heq
          cases hb
          exact ⟨n, iri, hc, rfl⟩
        · exact h.bound hb
      kept := h.kept
      anchored := h.anchored }
  construction := rfl
  sources := rfl
  identified _ hr := hr

theorem id?_alloc (rec : Record) (hr : ∃ k, w.heap.id? r = some k) :
    ∃ k, (w.heap.alloc rec).id? r = some k := by
  obtain ⟨k, hk⟩ := hr
  obtain ⟨cur, hcur, hid⟩ := Heap.id?_eq_some.1 hk
  exact ⟨k, Heap.id?_eq_some.2 ⟨cur, Heap.record?_alloc hcur rec, hid⟩⟩

theorem alloc (rec : Record) (hv : rec.values = ∅) : Preserves cx w (w.alloc rec) where
  sound h :=
    { bound := h.bound
      kept := fun hx => by
        rcases Heap.record?_alloc_cases hx with hold | ⟨-, rfl⟩
        · exact h.kept hold
        · rw [hv]
          intro _ _ _ hget
          cases hget
      anchored := fun c cell a hc ha => id?_alloc rec (h.anchored c cell a hc ha) }
  construction := rfl
  sources := rfl
  identified _ hr := id?_alloc rec hr

theorem allocCell {cell : LazyCell} (hc : cell.resolved = none) :
    Preserves cx w { w with heap := w.heap.allocCell cell } where
  sound h :=
    { bound := h.bound
      kept := fun hr => h.kept hr
      anchored := fun c cell' a hcell ha => by
        unfold Heap.cell? Heap.allocCell at hcell
        rw [Array.getElem?_push] at hcell
        split at hcell
        · cases hcell
          rw [hc] at ha
          cases ha
        · exact h.anchored c cell' a hcell ha }
  construction := rfl
  sources := rfl
  identified _ hr := hr

theorem modify {f : Record → Record}
    (hid : ∀ rec, w.heap.record? r = some rec → rec.id.isSome →
      (f rec).id.isSome)
    (hkept : w.Sound cx → ∀ rec, w.heap.record? r = some rec →
      cx.schema.isAbstract (f rec).type = false →
      ∀ {name v}, (f rec).values.get? name = some v →
        ∃ d, cx.schema.field? (f rec).type name = some d ∧ d.Keeps v) :
    Preserves cx w { w with heap := w.heap.modify r f } := by
  have identified : ∀ x, (∃ k, w.heap.id? x = some k) →
      ∃ k, (w.heap.modify r f).id? x = some k := by
    intro x ⟨k, hk⟩
    obtain ⟨rec, hrec, hrecid⟩ := Heap.id?_eq_some.1 hk
    unfold Heap.id?
    rw [Heap.record?_modify, hrec]
    split
    · next heq =>
      subst heq
      exact Option.isSome_iff_exists.1 (hid rec hrec (by rw [hrecid]; rfl))
    · exact ⟨k, hrecid⟩
  refine ⟨fun h => ⟨h.bound, fun {x rec} hx => ?_, fun c cell a hc ha =>
    identified a (h.anchored c cell a hc ha)⟩, rfl,
    rfl, identified⟩
  have hx' : (w.heap.modify r f).record? x = some rec := hx
  rw [Heap.record?_modify] at hx'
  split at hx'
  · next heq =>
    subst heq
    obtain ⟨old, hold, rfl⟩ := Option.map_eq_some_iff.1 hx'
    exact hkept h old hold
  · exact h.kept hx'

theorem initId (w : World) (r : RecordRef) (id : Resource) :
    Preserves cx w { w with heap := w.heap.initId r id } :=
  modify (fun _ _ _ => rfl) fun h _ hrec hconcrete => h.kept hrec hconcrete

theorem set {cur next : Record} {name : String} {v : Value} (hr : w.heap.record? r = some cur)
    (hn : cur.set cx.schema w.heap r name v = .ok next) :
    Preserves cx w { w with heap := w.heap.modify r fun _ => next } := by
  obtain ⟨htype, hid⟩ := Record.outline_of_set hn
  refine modify (fun rec hrec hsome => ?_) fun h rec hrec hconcrete {name' v'} hget => ?_
  · rw [hr] at hrec
    cases hrec
    rw [hid]
    exact hsome
  · rw [htype] at hconcrete ⊢
    unfold Record.set at hn
    rw [if_neg (by rw [hconcrete]; decide)] at hn
    split at hn
    · next f hf =>
      cases hacc : Record.accepted w.heap (some r) f v with
      | error e => rw [hacc] at hn; cases hn
      | ok v₀ =>
        rw [hacc] at hn
        cases hn
        have hstored : (cur.values.insert name v₀).get? name' = some v' := hget
        rw [Table.get?_insert] at hstored
        split at hstored
        · next heq =>
          subst heq
          cases hstored
          exact ⟨f, hf, Member.keeps_of_accepted hacc⟩
        · exact h.kept hr hconcrete hstored
    · cases hn

theorem modifyCell {c : LazyRef} (hr : ∃ k, w.heap.id? r = some k) :
    Preserves cx w
      { w with heap := w.heap.modifyCell c fun cell => { cell with resolved := some r } } where
  sound h :=
    { bound := h.bound
      kept := fun hx => h.kept hx
      anchored := fun c' cell a hc ha => by
        have hc' : (w.heap.modifyCell c _).cell? c' = some cell := hc
        rw [Heap.cell?_modifyCell] at hc'
        split at hc'
        · obtain ⟨old, -, rfl⟩ := Option.map_eq_some_iff.1 hc'
          cases ha
          exact hr
        · exact h.anchored c' cell a hc' ha }
  construction := rfl
  sources := rfl
  identified _ hx := hx

end World.Preserves

/-- Runs that keep the world sound. -/
def preserving (cx : Setting) : Contract where
  step := World.Preserves cx
  halt _ := True
  compared _ := True
  refl := .refl
  trans := .trans
  log _ _ := .of_eq rfl rfl rfl rfl
  back _ _ := trivial

namespace Engine

variable {cx : Setting} {w : World} {source : SourceRef} {r : RecordRef}
    {ty : TypeName} {id : Resource}

/-! ## Types -/

theorem bindingOf_preserves :
    (preserving cx).Keeps (bindingOf cx ty) (bindingOf cx ty) (fun _ w' => w'.heap = w.heap) w := by
  unfold Contract.Keeps
  cases hrun : bindingOf cx ty w with
  | error e w' =>
    obtain ⟨rfl, -, -⟩ := bindingOf_error hrun
    exact ⟨.refl _, trivial, fun _ => rfl⟩
  | ok b w' =>
    refine ⟨?_, (bindingOf_ok hrun).2.1, fun _ => rfl⟩
    obtain ⟨-, rfl⟩ | ⟨iri, -, hc, rfl, -⟩ := bindingOf_eq_ok hrun
    · exact .refl _
    · exact .bind hc

theorem init_preserves {tys : List TypeName} :
    (preserving cx).Keeps (init cx tys) (init cx tys) (fun _ _ => True) w := by
  unfold init
  refine .forM (I := fun _ _ => True) trivial fun _ ty _ _ w₁ _ _ => ?_
  exact .bind bindingOf_preserves fun b w₂ _ _ => .modify (.of_eq rfl rfl rfl rfl) trivial

/-! ## Writing -/

theorem initId_preserves :
    (preserving cx).Keeps (Run.modifyHeap (·.initId r id)) (Run.modifyHeap (·.initId r id))
      (fun _ _ => True) w := .modify (.initId w r id) trivial

theorem preserving_assigns : Assigns (preserving cx) cx where
  halt _ := trivial
  bound _ _ := bindingOf_preserves.mono fun _ _ _ _ => trivial
  count _ := .of_eq rfl rfl rfl rfl
  initId := .initId

theorem assignId_preserves : (preserving cx).Keeps (assignId cx r) (assignId cx r)
    (fun _ _ => True) w := assignId_keeps preserving_assigns

/-- **Writing** keeps a world sound. -/
theorem toGraph_preserves : (preserving cx).Keeps (toGraph cx r) (toGraph cx r)
    (fun _ _ => True) w := toGraph_keeps preserving_assigns.encodes

/-! ## Reading -/

theorem preserving_decodes {src : Source} : Decodes (preserving cx) cx source src where
  halt _ := trivial
  sources h := h.sources
  bound _ _ := bindingOf_preserves.mono fun _ _ _ _ => trivial
  alloc _ ty id := .alloc (outlineRecord ty id) rfl
  around hnew h :=
    { sound := fun hs => (h.sound (hs.of_eq rfl rfl)).of_eq rfl rfl
      construction := by
        rename_i w w' r id
        show w'.construction.erase id = w.construction
        rw [h.construction]
        exact Table.erase_insert r hnew
      sources := h.sources
      identified := h.identified }
  refine _ _ _ := .modify (fun _ _ _ => rfl) fun _ _ _ _ _ _ hget => by cases hget
  defer hc := .allocCell hc
  store _ _ hcur _ _ _ hset := .set hcur hset

/-- **Readings** keep a world sound. -/
theorem fromGraph_preserves : (preserving cx).Keeps (fromGraph cx source ty id)
    (fromGraph cx source ty id) (fun _ _ => True) w := fromGraph_keeps preserving_decodes

theorem resolve_preserves {c : LazyRef} (hidle : ∀ n, w.construction.get? n = none) :
    (preserving cx).Keeps (resolve cx c) (resolve cx c) (fun _ _ => True) w :=
  resolve_keeps (fun _ => preserving_decodes) fun _ hrun =>
    .modifyCell ⟨_, id?_of_fromGraph hidle hrun⟩

end Engine

end GraphMarshal
