import GraphMarshal.Proofs.Reading

/-!
# How reading changes the world

Reading a resource adds to the world. What stood in the heap before stays as it was, what is under
construction is the same afterwards, and only the record that is being filled changes, by the values
of its members. `Frame` says which records stay; `Extends` is the frame of a whole reading and
`Fills` that of the members of one record.
-/

namespace GraphMarshal

/-! ## Heaps -/

namespace Heap

variable {h : Heap} {r : RecordRef} {rec : Record}

theorem record?_eq_some_lt (hr : h.record? r = some rec) : r.index < h.records.size := by
  unfold record? at hr
  exact (Array.getElem?_eq_some_iff.1 hr).1

theorem exists_record? (hr : r.index < h.records.size) : ∃ rec, h.record? r = some rec :=
  ⟨h.records[r.index], Array.getElem?_eq_some_iff.2 ⟨hr, rfl⟩⟩

theorem id?_eq_some {k : Resource} :
    h.id? r = some k ↔ ∃ cur, h.record? r = some cur ∧ cur.id = some k :=
  Option.bind_eq_some_iff

theorem id?_eq_some_lt {k : Resource} (hk : h.id? r = some k) : r.index < h.records.size := by
  obtain ⟨cur, hcur, -⟩ := id?_eq_some.1 hk
  exact record?_eq_some_lt hcur

theorem record?_alloc (hr : h.record? r = some rec) (new : Record) :
    (h.alloc new).record? r = some rec := by
  have hlt := record?_eq_some_lt hr
  unfold record? alloc at *
  rw [Array.getElem?_push, if_neg (by omega)]
  exact hr

@[simp] theorem record?_alloc_next (h : Heap) (new : Record) :
    (h.alloc new).record? h.nextRecord = some new := by
  simp [record?, alloc, nextRecord]

theorem record?_alloc_cases {new : Record} {x : RecordRef}
    (hx : (h.alloc new).record? x = some rec) :
    h.record? x = some rec ∨ x = h.nextRecord ∧ rec = new := by
  unfold record? alloc at hx
  rw [Array.getElem?_push] at hx
  split at hx
  · next heq =>
    cases hx
    cases x
    exact .inr ⟨congrArg _ heq, rfl⟩
  · exact .inl hx

@[simp] theorem size_alloc (h : Heap) (new : Record) :
    (h.alloc new).records.size = h.records.size + 1 := by simp [alloc]

@[simp] theorem records_allocCell (h : Heap) (c : LazyCell) :
    (h.allocCell c).records = h.records := rfl

@[simp] theorem record?_allocCell (h : Heap) (c : LazyCell) (r : RecordRef) :
    (h.allocCell c).record? r = h.record? r := rfl

theorem cell?_allocCell {c : LazyRef} {cell : LazyCell} (hc : h.cell? c = some cell)
    (new : LazyCell) : (h.allocCell new).cell? c = some cell := by
  unfold cell? allocCell at *
  have hlt := (Array.getElem?_eq_some_iff.1 hc).1
  rw [Array.getElem?_push, if_neg (by omega)]
  exact hc

@[simp] theorem cell?_allocCell_next (h : Heap) (new : LazyCell) :
    (h.allocCell new).cell? h.nextCell = some new := by
  simp [cell?, allocCell, nextCell]

theorem record?_modify (h : Heap) (r x : RecordRef) (f : Record → Record) :
    (h.modify r f).record? x = if r = x then (h.record? x).map f else h.record? x := by
  unfold record? modify
  rw [Array.getElem?_modify]
  have : r.index = x.index ↔ r = x :=
    ⟨fun h => by cases r; cases x; exact congrArg _ h, fun h => h ▸ rfl⟩
  simp only [this]

theorem record?_modify_self (hr : h.record? r = some rec) (f : Record → Record) :
    (h.modify r f).record? r = some (f rec) := by
  rw [record?_modify, if_pos rfl, hr]
  rfl

@[simp] theorem size_modify (h : Heap) (r : RecordRef) (f : Record → Record) :
    (h.modify r f).records.size = h.records.size := by simp [modify]

@[simp] theorem cell?_modify (h : Heap) (r : RecordRef) (f : Record → Record) (c : LazyRef) :
    (h.modify r f).cell? c = h.cell? c := rfl

theorem cell?_modifyCell (h : Heap) (c x : LazyRef) (f : LazyCell → LazyCell) :
    (h.modifyCell c f).cell? x = if c = x then (h.cell? c).map f else h.cell? x := by
  unfold cell? modifyCell
  rw [Array.getElem?_modify]
  have : c.index = x.index ↔ c = x :=
    ⟨fun h => by cases c; cases x; exact congrArg _ h, fun h => h ▸ rfl⟩
  by_cases hcx : c = x
  · rw [if_pos (this.2 hcx), if_pos hcx, hcx]
  · rw [if_neg (mt this.1 hcx), if_neg hcx]

@[simp] theorem cell?_alloc (h : Heap) (rec : Record) (c : LazyRef) :
    (h.alloc rec).cell? c = h.cell? c := rfl

end Heap

/-! ## Records -/

theorem Record.set_eq_ok {s : Schema} {h : Heap} {r : RecordRef} {rec next : Record}
    {name : String} {v : Value} (hn : rec.set s h r name v = .ok next) :
    ∃ v', next = rec.store name v' ∧ (v' = v ∨ ∃ m, accepted h (some r) m v = .ok v') := by
  unfold set at hn
  split at hn
  · split at hn <;> cases hn
    exact ⟨v, rfl, .inl rfl⟩
  · split at hn
    · next m _ =>
      cases ha : accepted h (some r) m v with
      | error e => rw [ha] at hn; cases hn
      | ok v' => rw [ha] at hn; cases hn; exact ⟨v', rfl, .inr ⟨m, ha⟩⟩
    · cases hn

theorem Record.outline_of_set {s : Schema} {h : Heap} {r : RecordRef} {rec next : Record}
    {name : String} {v : Value} (hn : rec.set s h r name v = .ok next) :
    next.type = rec.type ∧ next.id = rec.id := by
  obtain ⟨v', rfl, -⟩ := set_eq_ok hn
  exact ⟨rfl, rfl⟩

/-! ## Frames -/

namespace World

/-- The world with one more record. -/
def alloc (w : World) (rec : Record) : World := { w with heap := w.heap.alloc rec }

/-- The world with a record under construction for a resource. -/
def enter (w : World) (id : Resource) (r : RecordRef) : World :=
  { w with construction := w.construction.insert id r }

/-- The world with nothing under construction for a resource. -/
def leave (w : World) (id : Resource) : World :=
  { w with construction := w.construction.erase id }

structure Frame (fixed : RecordRef → Prop) (w w' : World) : Prop where
  record : ∀ {r rec}, fixed r → w.heap.record? r = some rec → w'.heap.record? r = some rec
  size : w.heap.records.size ≤ w'.heap.records.size
  cell : ∀ {c cell}, w.heap.cell? c = some cell → w'.heap.cell? c = some cell
  binding : ∀ {ty b}, w.bindings.get? ty = some b → w'.bindings.get? ty = some b
  construction : w'.construction = w.construction
  sources : w'.sources = w.sources
  classes : w'.classes = w.classes
  generated : w'.generated = w.generated

/-- Everything that was there is there as it was. -/
abbrev Extends (w w' : World) : Prop := Frame (fun _ => True) w w'

/-- Only the values of one record changed. -/
structure Fills (r : RecordRef) (w w' : World) : Prop extends Frame (· ≠ r) w w' where
  outline : ∀ {rec}, w.heap.record? r = some rec →
    ∃ rec', w'.heap.record? r = some rec' ∧ rec'.type = rec.type ∧ rec'.id = rec.id

namespace Frame

variable {fixed : RecordRef → Prop} {w w₁ w₂ : World}

protected theorem refl (w : World) : Frame fixed w w :=
  ⟨fun _ h => h, Nat.le_refl _, fun h => h, fun h => h, rfl, rfl, rfl, rfl⟩

protected theorem trans (h : Frame fixed w w₁) (h' : Frame fixed w₁ w₂) : Frame fixed w w₂ where
  record hf hr := h'.record hf (h.record hf hr)
  size := Nat.le_trans h.size h'.size
  cell hc := h'.cell (h.cell hc)
  binding hb := h'.binding (h.binding hb)
  construction := h'.construction.trans h.construction
  sources := h'.sources.trans h.sources
  classes := h'.classes.trans h.classes
  generated := h'.generated.trans h.generated

theorem mono {fixed' : RecordRef → Prop} (h : Frame fixed w w₁) (hf : ∀ r, fixed' r → fixed r) :
    Frame fixed' w w₁ :=
  { h with record := fun hr => h.record (hf _ hr) }

theorem log (w : World) (c : SourceRef × SourceCall) :
    Frame fixed w { w with calls := c :: w.calls } :=
  ⟨fun _ h => h, Nat.le_refl _, fun h => h, fun h => h, rfl, rfl, rfl, rfl⟩

theorem source (h : Frame fixed w w₁) (s : SourceRef) : w₁.source s = w.source s := by
  unfold World.source; rw [h.sources]

theorem alloc (w : World) (rec : Record) : Frame fixed w (w.alloc rec) where
  record _ hr := Heap.record?_alloc hr rec
  size := by simp [World.alloc]
  cell hc := hc
  binding hb := hb
  construction := rfl
  sources := rfl
  classes := rfl
  generated := rfl

theorem allocCell (w : World) (cell : LazyCell) :
    Frame fixed w { w with heap := w.heap.allocCell cell } where
  record _ hr := hr
  size := Nat.le_refl _
  cell hc := Heap.cell?_allocCell hc cell
  binding hb := hb
  construction := rfl
  sources := rfl
  classes := rfl
  generated := rfl

theorem modify (w : World) (r : RecordRef) (f : Record → Record) :
    Frame (· ≠ r) w { w with heap := w.heap.modify r f } where
  record hf hr := by rw [Heap.record?_modify, if_neg (Ne.symm hf)]; exact hr
  size := by simp
  cell hc := hc
  binding hb := hb
  construction := rfl
  sources := rfl
  classes := rfl
  generated := rfl

end Frame

namespace Fills

variable {r x : RecordRef} {w w₁ w₂ : World}

theorem of_extends (h : Extends w w₁) : Fills r w w₁ :=
  { h.mono fun _ _ => trivial with outline := fun hr => ⟨_, h.record trivial hr, rfl, rfl⟩ }

protected theorem trans (h : Fills r w w₁) (h' : Fills r w₁ w₂) : Fills r w w₂ where
  toFrame := h.toFrame.trans h'.toFrame
  outline hr := by
    obtain ⟨rec₁, h₁, ht₁, hi₁⟩ := h.outline hr
    obtain ⟨rec₂, h₂, ht₂, hi₂⟩ := h'.outline h₁
    exact ⟨rec₂, h₂, ht₂.trans ht₁, hi₂.trans hi₁⟩

theorem of_set {s : Schema} {cur next : Record} {name : String} {v : Value}
    (hr : w.heap.record? r = some cur) (hn : cur.set s w.heap r name v = .ok next) :
    Fills r w { w with heap := w.heap.modify r fun _ => next } where
  toFrame := .modify w r _
  outline {rec} hrec := by
    rw [hr] at hrec
    cases hrec
    exact ⟨next, Heap.record?_modify_self hr _, Record.outline_of_set hn⟩

theorem outline_of (h : Fills r w w₁) {rec : Record} (hx : w.heap.record? x = some rec) :
    ∃ rec', w₁.heap.record? x = some rec' ∧ rec'.type = rec.type ∧ rec'.id = rec.id := by
  by_cases hxr : x = r
  · subst hxr; exact h.outline hx
  · exact ⟨rec, h.record hxr hx, rfl, rfl⟩

theorem type? (h : Fills r w w₁) {t : TypeName} (hx : w.heap.type? x = some t) :
    w₁.heap.type? x = some t := by
  obtain ⟨rec, hr, rfl⟩ := Option.map_eq_some_iff.1 hx
  obtain ⟨rec', hr', ht, -⟩ := h.outline_of hr
  exact Option.map_eq_some_iff.2 ⟨rec', hr', ht⟩

theorem id? (h : Fills r w w₁) {i : Resource} (hx : w.heap.id? x = some i) :
    w₁.heap.id? x = some i := by
  obtain ⟨rec, hr, hi⟩ := Heap.id?_eq_some.1 hx
  obtain ⟨rec', hr', -, hi'⟩ := h.outline_of hr
  exact Heap.id?_eq_some.2 ⟨rec', hr', hi'.trans hi⟩

end Fills

theorem Extends.type? {w w' : World} (h : Extends w w') {x : RecordRef} {t : TypeName}
    (hx : w.heap.type? x = some t) : w'.heap.type? x = some t :=
  (Fills.of_extends (r := x) h).type? hx

theorem Extends.id? {w w' : World} (h : Extends w w') {x : RecordRef} {i : Resource}
    (hx : w.heap.id? x = some i) : w'.heap.id? x = some i :=
  (Fills.of_extends (r := x) h).id? hx

end World

end GraphMarshal
