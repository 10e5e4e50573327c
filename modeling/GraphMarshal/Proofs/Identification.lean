import GraphMarshal.Engine.Identity
import GraphMarshal.Proofs.Construction

/-!
# Giving identifiers changes little else

Writing gives identifiers to the record that is written and to those it refers to. Every record
keeps its type, its values and the identifier that it has. What else may change are the resolved
types and the generated names, and within a closed set of records, whose types are resolved and
whose references stay in it, the prefix table does not change either.
-/

namespace GraphMarshal

/-- A value holds a reference, on its own or in a list. -/
inductive Value.Refers : Value → Reference → Prop
  | ref (x : Reference) : Refers (.ref x) x
  | list {items : List Value} {v : Value} {x : Reference} : v ∈ items → Refers v x →
    Refers (.list items) x

theorem Value.refers_ref {x y : Reference} : (Value.ref y).Refers x ↔ x = y := by
  constructor
  · rintro ⟨⟩
    rfl
  · rintro rfl
    exact .ref x

theorem Value.refers_list {items : List Value} {x : Reference} :
    (Value.list items).Refers x ↔ ∃ v ∈ items, v.Refers x := by
  constructor
  · rintro ⟨⟩
    exact ⟨_, ‹_›, ‹_›⟩
  · rintro ⟨v, hv, hx⟩
    exact .list hv hx

theorem Value.Refers.not_string {s : String} {x : Reference} : ¬(Value.string s).Refers x := nofun

theorem Record.get?_eq_some {s : Schema} {rec : Record} {name : String} {v : Value}
    (h : rec.get? s name = some v) :
    rec.values.get? name = some v ∨ v = .list [] := by
  have stored : ∀ {collection}, rec.stored name collection = some v →
      rec.values.get? name = some v ∨ v = .list [] := fun {collection} h => by
    unfold Record.stored at h
    split at h
    · next hv => exact .inl (hv.trans h)
    · split at h
      · exact .inr (Option.some.inj h).symm
      · cases h
  unfold Record.get? at h
  split at h
  · exact stored h
  · split at h
    · split at h
      · cases h
      · exact stored h
    · cases h

/-- Every deferred reference that is resolved leads to a record with an identifier. -/
def Heap.Anchored (h : Heap) : Prop :=
  ∀ c cell a, h.cell? c = some cell → cell.resolved = some a → ∃ k, h.id? a = some k

theorem Heap.sameReference_iff {h : Heap} {x y : Reference} : h.sameReference x y ↔
    x = y ∨ ∃ id, h.resource? x = some id ∧ h.resource? y = some id := by
  unfold sameReference
  by_cases hxy : x = y
  · simp [hxy]
  · cases h.resource? x <;> cases h.resource? y <;> simp [hxy, eq_comm]

theorem Heap.resource?_mono {h h' : Heap} (ha : h.Anchored)
    (hid : ∀ {a k}, h.id? a = some k → h'.id? a = some k)
    (hcell : ∀ {c cell}, h.cell? c = some cell → h'.cell? c = some cell) {x : Reference}
    {k : Resource} (hk : h.resource? x = some k) : h'.resource? x = some k := by
  cases x with
  | eager a => exact hid hk
  | lazy c =>
    obtain ⟨cell, hc, hnames⟩ := Option.map_eq_some_iff.1 hk
    refine Option.map_eq_some_iff.2 ⟨cell, hcell hc, ?_⟩
    unfold cellResource at hnames ⊢
    cases hres : cell.resolved with
    | none => rw [hres] at hnames; exact hnames
    | some a =>
      obtain ⟨j, hj⟩ := ha c cell a hc hres
      rw [hres, Option.bind_some, hj] at hnames
      rw [Option.bind_some, hid hj]
      exact hnames

namespace World

/-- A set of records that references do not lead out of, and whose types are resolved. -/
def Closed (w : World) (S : RecordRef → Prop) : Prop :=
  ∀ r, S r → ∃ rec b, w.heap.record? r = some rec ∧ w.bindings.get? rec.type = some b ∧
    ∀ name v x, rec.values.get? name = some v → v.Refers x → ∃ a, x = .eager a ∧ S a

/-- What giving identifiers changes. Where `closed` holds the prefix table stays. -/
structure Identifies (closed : Prop) (w w' : World) : Prop where
  record : ∀ {r rec}, w.heap.record? r = some rec →
    ∃ i, w'.heap.record? r = some { rec with id := i } ∧ ∀ k, rec.id = some k → i = some k
  size : w'.heap.records.size = w.heap.records.size
  lazies : w'.heap.lazies = w.heap.lazies
  binding : ∀ {ty b}, w.bindings.get? ty = some b → w'.bindings.get? ty = some b
  construction : w'.construction = w.construction
  sources : w'.sources = w.sources
  classes : w'.classes = w.classes
  generated : w.generated ≤ w'.generated
  names : closed → w'.namespaces = w.namespaces

namespace Identifies

variable {closed : Prop} {w w₁ w₂ : World} {r : RecordRef} {k : Resource}

protected theorem refl (w : World) : Identifies closed w w where
  record {_ rec} hr := ⟨rec.id, hr, fun _ hk => hk⟩
  size := rfl
  lazies := rfl
  binding hb := hb
  construction := rfl
  sources := rfl
  classes := rfl
  generated := Nat.le_refl _
  names _ := rfl

protected theorem trans (h : Identifies closed w w₁) (h' : Identifies closed w₁ w₂) :
    Identifies closed w w₂ where
  record hr := by
    obtain ⟨i, hi, hk⟩ := h.record hr
    obtain ⟨i', hi', hk'⟩ := h'.record hi
    exact ⟨i', hi', fun k hid => hk' k (hk k hid)⟩
  size := h'.size.trans h.size
  lazies := h'.lazies.trans h.lazies
  binding hb := h'.binding (h.binding hb)
  construction := h'.construction.trans h.construction
  sources := h'.sources.trans h.sources
  classes := h'.classes.trans h.classes
  generated := Nat.le_trans h.generated h'.generated
  names hc := (h'.names hc).trans (h.names hc)

theorem count (w : World) {cs : List (SourceRef × SourceCall)} {g : Nat} (hg : w.generated ≤ g) :
    Identifies closed w { w with calls := cs, generated := g } where
  record {_ rec} hr := ⟨rec.id, hr, fun _ hk => hk⟩
  size := rfl
  lazies := rfl
  binding hb := hb
  construction := rfl
  sources := rfl
  classes := rfl
  generated := hg
  names _ := rfl

theorem of_extends (h : w.Extends w₁) (hheap : w₁.heap = w.heap)
    (hn : closed → w₁.namespaces = w.namespaces) :
    Identifies closed w w₁ where
  record {_ rec} hr := ⟨rec.id, hheap ▸ hr, fun _ hk => hk⟩
  size := by rw [hheap]
  lazies := by rw [hheap]
  binding := h.binding
  construction := h.construction
  sources := h.sources
  classes := h.classes
  generated := Nat.le_of_eq h.generated.symm
  names := hn

theorem initId (w : World) (r : RecordRef) (k : Resource) :
    Identifies closed w { w with heap := w.heap.initId r k } where
  record {x rec} hx := by
    show ∃ i, (w.heap.modify r _).record? x = _ ∧ _
    rw [Heap.record?_modify, hx]
    split
    · exact ⟨some (rec.id.getD k), rfl, fun j hj => by rw [hj]; rfl⟩
    · exact ⟨rec.id, rfl, fun _ hk => hk⟩
  size := Heap.size_modify _ _ _
  lazies := rfl
  binding hb := hb
  construction := rfl
  sources := rfl
  classes := rfl
  generated := Nat.le_refl _
  names _ := rfl

theorem id? (h : Identifies closed w w₁) (hk : w.heap.id? r = some k) : w₁.heap.id? r = some k := by
  obtain ⟨rec, hr, hid⟩ := Heap.id?_eq_some.1 hk
  obtain ⟨i, hi, hkeep⟩ := h.record hr
  exact Heap.id?_eq_some.2 ⟨_, hi, hkeep k hid⟩

theorem cell? (h : Identifies closed w w₁) (c : LazyRef) : w₁.heap.cell? c = w.heap.cell? c := by
  unfold Heap.cell?
  rw [h.lazies]

theorem anchored (h : Identifies closed w w₁) (ha : w.heap.Anchored) : w₁.heap.Anchored := by
  intro c cell a hc hr
  rw [h.cell?] at hc
  obtain ⟨k, hk⟩ := ha c cell a hc hr
  exact ⟨k, h.id? hk⟩

theorem resource? (h : Identifies closed w w₁) (ha : w.heap.Anchored) {x : Reference}
    (hk : w.heap.resource? x = some k) : w₁.heap.resource? x = some k :=
  Heap.resource?_mono ha h.id? (fun {c _} hc => (h.cell? c).trans hc) hk

theorem closed_of {S : RecordRef → Prop} (h : Identifies closed w w₁) (hS : w.Closed S) :
    w₁.Closed S := by
  intro r hr
  obtain ⟨rec, b, hrec, hb, hrefs⟩ := hS r hr
  obtain ⟨i, hi, -⟩ := h.record hrec
  exact ⟨_, b, hi, h.binding hb, hrefs⟩

end Identifies

end World

/-- Runs that give identifiers. -/
def identifying (closed : Prop) : Contract where
  step := World.Identifies closed
  halt _ := True
  compared _ := True
  refl := .refl
  trans := .trans
  log w _ := .count w (Nat.le_refl _)
  back _ _ := trivial

namespace Engine

variable {closed : Prop} {cx : Setting} {w : World} {r : RecordRef} {S : RecordRef → Prop}

theorem bindingOf_identifies {ty : TypeName} (hb : closed → ∃ b, w.bindings.get? ty = some b) :
    (identifying closed).Keeps (bindingOf cx ty) (bindingOf cx ty)
      (fun b w' => w'.bindings.get? ty = some b) w := by
  unfold Contract.Keeps
  cases hrun : bindingOf cx ty w with
  | error e w' =>
    obtain ⟨rfl, -, -⟩ := bindingOf_error hrun
    exact ⟨.refl _, trivial, fun _ => rfl⟩
  | ok b w' =>
    obtain ⟨hext, hheap, hbound, hn⟩ := bindingOf_ok hrun
    refine ⟨.of_extends hext hheap fun hc => ?_, hbound, fun _ => rfl⟩
    obtain ⟨b', hb'⟩ := hb hc
    exact hn b' hb'

theorem referenceId_identifies {assign : RecordRef → Run Resource} {x : Reference}
    (hassign : ∀ a, x = .eager a →
      (identifying closed).Keeps (assign a) (assign a) (fun k w' => w'.heap.id? a = some k) w) :
    (identifying closed).Keeps (referenceId assign x) (referenceId assign x)
      (fun k w' => w'.heap.resource? x = some k) w := by
  cases x with
  | eager a => exact hassign a rfl
  | lazy c =>
    unfold referenceId
    refine .bind .get fun a w' _ ha => ?_
    obtain ⟨rfl, rfl⟩ := ha
    split
    · next k hk => exact .pure hk
    · exact .throw trivial

theorem get?_of_identifyingValue {rec : Record} {member : String} {v : Value}
    (h : identifyingValue cx rec member = .ok v) : rec.get? cx.schema member = some v := by
  unfold identifyingValue at h
  split at h
  · next v' hv' =>
    split at h <;> cases h
    exact hv'
  · cases h

theorem freshId_identifies {assign : RecordRef → Run Resource} {rec : Record}
    (hbound : closed → ∃ b, w.bindings.get? rec.type = some b)
    (hassign : ∀ w₁, w.Identifies closed w₁ → ∀ name v a, rec.values.get? name = some v →
      v.Refers (.eager a) →
      (identifying closed).Keeps (assign a) (assign a) (fun k w' => w'.heap.id? a = some k) w₁) :
    (identifying closed).Keeps (freshId cx assign rec) (freshId cx assign rec)
      (fun _ _ => True) w := by
  unfold freshId
  refine .bind (bindingOf_identifies hbound) fun b w₁ h₁ _ => ?_
  cases b.idMember with
  | none => exact .bind (.nextGenerated (.count w₁ (Nat.le_succ _))) fun n _ _ _ => .pure trivial
  | some m =>
    dsimp only
    cases hv : identifyingValue cx rec m.member with
    | error flaw => exact .fail trivial
    | ok v =>
      have hget : rec.get? cx.schema m.member = some v := get?_of_identifyingValue hv
      cases v with
      | resource id => exact .pure trivial
      | uri u => exact .pure trivial
      | ref x =>
        refine (referenceId_identifies fun a ha => ?_).mono fun _ _ _ _ => trivial
        subst ha
        rcases Record.get?_eq_some hget with hstored | hnil
        · exact hassign w₁ h₁ m.member _ a hstored (.ref _)
        · cases hnil
      | list items => exact .fail trivial
      | _ => exact .pure trivial

/-- **Giving an identifier** to a record: it has one afterwards, which is the one given. -/
theorem assignIdWithin_identifies : ∀ (n : Nat) {w : World} {r : RecordRef}, (closed → w.Closed S) →
    (closed → S r) →
    (identifying closed).Keeps (assignIdWithin cx n r) (assignIdWithin cx n r)
      (fun k w' => w'.heap.id? r = some k) w := by
  intro n
  induction n with
  | zero => exact fun _ _ => .throw trivial
  | succ n ih =>
    intro w r hS hr
    unfold assignIdWithin
    refine .bind (.recordAt trivial) fun cur w₁ _ hcur => ?_
    obtain ⟨rfl, hcur⟩ := hcur
    have hclosed : closed → ∃ b, w₁.bindings.get? cur.type = some b ∧
        ∀ name v x, cur.values.get? name = some v → v.Refers x →
          ∃ a, x = .eager a ∧ S a := fun hc => by
      obtain ⟨rec, b, hrec, hb, hrefs⟩ := hS hc r (hr hc)
      rw [hcur] at hrec
      cases hrec
      exact ⟨b, hb, hrefs⟩
    cases hid : cur.id with
    | some k => exact .pure (Heap.id?_eq_some.2 ⟨cur, hcur, hid⟩)
    | none =>
      dsimp only
      split
      · exact .fail trivial
      · refine .bind (freshId_identifies (fun hc => ?_) fun w₂ h₂ name v a hv hx => ?_)
          fun k w₂ h₂ _ => ?_
        · obtain ⟨b, hb, -⟩ := hclosed hc
          exact ⟨b, hb⟩
        · refine ih (fun hc => h₂.closed_of (hS hc)) fun hc => ?_
          obtain ⟨-, -, hrefs⟩ := hclosed hc
          obtain ⟨a', ha, hSa⟩ := hrefs name v _ hv hx
          cases ha
          exact hSa
        · refine .bind (V := fun _ w₃ => ∃ j, w₃.heap.id? r = some j) (.modify (.initId w₂ r k) ?_)
            fun _ w₃ _ hj => ?_
          · obtain ⟨i, hi, -⟩ := h₂.record hcur
            exact ⟨i.getD k, Heap.id?_eq_some.2 ⟨{ cur with id := some (i.getD k) },
              Heap.record?_modify_self hi _, rfl⟩⟩
          · obtain ⟨j, hj⟩ := hj
            refine .bind .get fun w₄ w₅ _ hw => ?_
            obtain ⟨rfl, rfl⟩ := hw
            refine .pure ?_
            rw [hj]
            rfl

theorem assignId_identifies (hS : closed → w.Closed S) (hr : closed → S r) :
    (identifying closed).Keeps (assignId cx r) (assignId cx r)
      (fun k w' => w'.heap.id? r = some k) w := by
  unfold assignId
  refine .bind .get fun a w' _ ha => ?_
  obtain ⟨rfl, rfl⟩ := ha
  exact assignIdWithin_identifies _ hS hr

end Engine

end GraphMarshal
