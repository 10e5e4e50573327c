import GraphMarshal.Proofs.References
import Mathlib.Logic.Relator

/-!
# Heaps that hold the same records

Two worlds may hold the same records at different places. A pairing says which place of the one
stands for which place of the other. It is an isomorphism where what is stored at paired places is
the same up to the pairing and no place is paired twice, so that paired records have the same types,
identifiers and values, share the same records and defer the same resources. A run follows another
one if it succeeds wherever that does, with the same result up to a pairing that has grown.
-/

namespace GraphMarshal

/-- Which places of two heaps stand for each other. -/
structure Pairing where
  record : RecordRef → RecordRef → Prop
  cell : LazyRef → LazyRef → Prop

/-- No place of one heap stands for a place of the other. -/
def Pairing.empty : Pairing := ⟨fun _ _ => False, fun _ _ => False⟩

/-! ## What is the same up to a pairing -/

/-- References to paired places. -/
inductive Pairing.Joins (P : Pairing) : Reference → Reference → Prop
  | eager {r r' : RecordRef} : P.record r r' → Joins P (.eager r) (.eager r')
  | lazy {c c' : LazyRef} : P.cell c c' → Joins P (.lazy c) (.lazy c')

mutual

/-- Values that differ in the places of their references only. -/
inductive Value.Like (P : Pairing) : Value → Value → Prop
  | atom {v : Value} : v.IsAtom → Like P v v
  | ref {x x' : Reference} : P.Joins x x' → Like P (.ref x) (.ref x')
  | list {vs vs' : List Value} : AllLike P vs vs' → Like P (.list vs) (.list vs')

inductive Value.AllLike (P : Pairing) : List Value → List Value → Prop
  | nil : AllLike P [] []
  | cons {v v' : Value} {vs vs' : List Value} : Like P v v' → AllLike P vs vs' →
    AllLike P (v :: vs) (v' :: vs')

end

structure Record.Like (P : Pairing) (rec rec' : Record) : Prop where
  type : rec'.type = rec.type
  id : rec'.id = rec.id
  values : ∀ name, Option.Rel (Value.Like P) (rec.values.get? name) (rec'.values.get? name)

structure LazyCell.Like (P : Pairing) (cell cell' : LazyCell) : Prop where
  target : cell'.target = cell.target
  id : cell'.id = cell.id
  source : cell'.source = cell.source
  resolved : Option.Rel P.record cell.resolved cell'.resolved

/-- Two computations end alike: both with results in a relation, or both with the same error. -/
inductive EndsAlike {ε α β : Type} (V : α → β → Prop) : Except ε α → Except ε β → Prop
  | ok {a : α} {b : β} : V a b → EndsAlike V (.ok a) (.ok b)
  | error (e : ε) : EndsAlike V (.error e) (.error e)

/-! ## Growing pairings -/

/-- A pairing is part of another one. -/
structure Pairing.Within (P Q : Pairing) : Prop where
  record : ∀ {r r'}, P.record r r' → Q.record r r'
  cell : ∀ {c c'}, P.cell c c' → Q.cell c c'

section

variable {α β : Type} {R R' : α → β → Prop} {o : Option α} {o' : Option β}

theorem optionRel_mono (h : Option.Rel R o o') (hR : ∀ a b, R a b → R' a b) :
    Option.Rel R' o o' := by
  cases h with
  | some h => exact .some (hR _ _ h)
  | none => exact .none

theorem bind_eq_of_optionRel {γ : Type} {f : α → Option γ} {g : β → Option γ}
    (h : Option.Rel R o o') (hf : ∀ a b, R a b → g b = f a) : o'.bind g = o.bind f := by
  cases h with
  | some h => exact hf _ _ h
  | none => rfl

end

section

variable {P Q R : Pairing} {v v' : Value} {vs vs' : List Value}

protected theorem Pairing.Within.refl (P : Pairing) : P.Within P := ⟨fun h => h, fun h => h⟩

protected theorem Pairing.Within.trans (h : P.Within Q) (h' : Q.Within R) : P.Within R :=
  ⟨fun hr => h'.record (h.record hr), fun hc => h'.cell (h.cell hc)⟩

theorem Pairing.Joins.mono {x x' : Reference} (hx : P.Joins x x') (h : P.Within Q) :
    Q.Joins x x' := by
  cases hx with
  | eager hr => exact .eager (h.record hr)
  | lazy hc => exact .lazy (h.cell hc)

mutual

theorem Value.Like.mono (h : P.Within Q) : ∀ {v v' : Value}, v.Like P v' → v.Like Q v'
  | _, _, .atom hv => .atom hv
  | _, _, .ref hx => .ref (hx.mono h)
  | _, _, .list hvs => .list (hvs.mono h)

theorem Value.AllLike.mono (h : P.Within Q) : ∀ {vs vs' : List Value}, Value.AllLike P vs vs' →
    Value.AllLike Q vs vs'
  | _, _, .nil => .nil
  | _, _, .cons hv hvs => .cons (hv.mono h) (hvs.mono h)

end

theorem Value.allLike_iff : Value.AllLike P vs vs' ↔ List.Forall₂ (Value.Like P) vs vs' := by
  constructor
  · intro h
    induction vs generalizing vs' with
    | nil => cases h; exact .nil
    | cons v vs ih =>
      cases h with
      | cons hv hvs => exact .cons hv (ih hvs)
  · intro h
    induction h with
    | nil => exact .nil
    | cons hv _ ih => exact .cons hv ih

theorem Record.Like.mono {rec rec' : Record} (h : P.Within Q) (hr : rec.Like P rec') :
    rec.Like Q rec' :=
  ⟨hr.type, hr.id, fun name => optionRel_mono (hr.values name) fun _ _ hv => hv.mono h⟩

theorem LazyCell.Like.mono {cell cell' : LazyCell} (h : P.Within Q) (hc : cell.Like P cell') :
    cell.Like Q cell' :=
  ⟨hc.target, hc.id, hc.source, optionRel_mono hc.resolved fun _ _ hr => h.record hr⟩

end

/-! ## Isomorphic heaps -/

/-- What is paired is there, is the same on both sides, and is paired once. -/
structure Pairing.Isomorphic (P : Pairing) (h h' : Heap) : Prop where
  record : ∀ {r r'}, P.record r r' →
    ∃ rec rec', h.record? r = some rec ∧ h'.record? r' = some rec' ∧ rec.Like P rec'
  cell : ∀ {c c'}, P.cell c c' →
    ∃ cell cell', h.cell? c = some cell ∧ h'.cell? c' = some cell' ∧ cell.Like P cell'
  uniqueRecord : Relator.BiUnique P.record
  uniqueCell : Relator.BiUnique P.cell

/-- The pairing with one more pair of records. -/
def Pairing.addRecord (P : Pairing) (r r' : RecordRef) : Pairing :=
  { P with record := fun a a' => P.record a a' ∨ a = r ∧ a' = r' }

/-- The pairing with one more pair of deferred references. -/
def Pairing.addCell (P : Pairing) (c c' : LazyRef) : Pairing :=
  { P with cell := fun a a' => P.cell a a' ∨ a = c ∧ a' = c' }

namespace Pairing

variable {P : Pairing} {h h' : Heap} {r r' : RecordRef} {c c' : LazyRef}

theorem within_addRecord : P.Within (P.addRecord r r') := ⟨.inl, fun hc => hc⟩

theorem within_addCell : P.Within (P.addCell c c') := ⟨fun hr => hr, .inl⟩

theorem biUnique_or {α : Type} {R : α → α → Prop} {a a' : α} (hR : Relator.BiUnique R)
    (hl : ∀ x, ¬R a x) (hr : ∀ x, ¬R x a') :
    Relator.BiUnique fun x x' => R x x' ∨ x = a ∧ x' = a' := by
  constructor
  · rintro x y z (hx | ⟨rfl, rfl⟩) (hy | ⟨rfl, hz⟩)
    · exact hR.1 hx hy
    · exact absurd (hz ▸ hx) (hr x)
    · exact absurd hy (hr y)
    · rfl
  · rintro x y z (hy | ⟨rfl, rfl⟩) (hz | ⟨hx, rfl⟩)
    · exact hR.2 hy hz
    · exact absurd (hx ▸ hy) (hl y)
    · exact absurd hz (hl z)
    · rfl

namespace Isomorphic

theorem id? (hP : P.Isomorphic h h') (hr : P.record r r') : h'.id? r' = h.id? r := by
  obtain ⟨rec, rec', hrec, hrec', hlike⟩ := hP.record hr
  simp [Heap.id?, hrec, hrec', hlike.id]

theorem resource? (hP : P.Isomorphic h h') {x x' : Reference} (hx : P.Joins x x') :
    h'.resource? x' = h.resource? x := by
  cases hx with
  | eager hr => exact hP.id? hr
  | lazy hc =>
    obtain ⟨cell, cell', hcell, hcell', hlike⟩ := hP.cell hc
    have hresolved : cell'.resolved.bind h'.id? = cell.resolved.bind h.id? :=
      bind_eq_of_optionRel hlike.resolved fun a a' ha => hP.id? ha
    simp [Heap.resource?, Heap.cellResource, hcell, hcell', hresolved, hlike.id]

theorem asked? (hP : P.Isomorphic h h') {x x' : Reference} (hx : P.Joins x x') :
    Option.Rel P.record (h.asked? x) (h'.asked? x') := by
  cases hx with
  | eager hr => exact .some hr
  | lazy hc =>
    obtain ⟨cell, cell', hcell, hcell', hlike⟩ := hP.cell hc
    simpa [Heap.asked?, hcell, hcell'] using hlike.resolved

theorem waits (hP : P.Isomorphic h h') {l l' : Option RecordRef} (hl : Option.Rel P.record l l')
    {x x' : Reference} (hx : P.Joins x x') : h'.waits l' x' = h.waits l x := by
  cases hl with
  | none => rfl
  | @some r r' hr =>
    have hasked := hP.asked? hx
    unfold Heap.waits
    generalize h.asked? x = o at hasked ⊢
    generalize h'.asked? x' = o' at hasked ⊢
    cases hasked with
    | none => rfl
    | @some a a' ha =>
      have hiff : a' = r' ↔ a = r :=
        ⟨fun heq => hP.uniqueRecord.1 (heq ▸ ha) hr, fun heq => hP.uniqueRecord.2 (heq ▸ ha) hr⟩
      simp [hiff]

theorem not_record_next (hP : P.Isomorphic h h') (x : RecordRef) : ¬P.record h.nextRecord x := by
  intro hx
  obtain ⟨_, _, hrec, -, -⟩ := hP.record hx
  exact Nat.lt_irrefl _ (Heap.record?_eq_some_lt hrec)

theorem not_next_record (hP : P.Isomorphic h h') (x : RecordRef) : ¬P.record x h'.nextRecord := by
  intro hx
  obtain ⟨_, _, -, hrec, -⟩ := hP.record hx
  exact Nat.lt_irrefl _ (Heap.record?_eq_some_lt hrec)

theorem not_cell_next (hP : P.Isomorphic h h') (x : LazyRef) : ¬P.cell h.nextCell x := by
  intro hx
  obtain ⟨_, _, hcell, -, -⟩ := hP.cell hx
  exact Nat.lt_irrefl _ (Array.getElem?_eq_some_iff.1 hcell).1

theorem not_next_cell (hP : P.Isomorphic h h') (x : LazyRef) : ¬P.cell x h'.nextCell := by
  intro hx
  obtain ⟨_, _, -, hcell, -⟩ := hP.cell hx
  exact Nat.lt_irrefl _ (Array.getElem?_eq_some_iff.1 hcell).1

theorem alloc (hP : P.Isomorphic h h') {rec rec' : Record} (hlike : rec.Like P rec') :
    (P.addRecord h.nextRecord h'.nextRecord).Isomorphic (h.alloc rec) (h'.alloc rec') where
  record {a a'} ha := by
    rcases ha with ha | ⟨rfl, rfl⟩
    · obtain ⟨cur, cur', hcur, hcur', hl⟩ := hP.record ha
      exact ⟨cur, cur', Heap.record?_alloc hcur _, Heap.record?_alloc hcur' _,
        hl.mono within_addRecord⟩
    · exact ⟨rec, rec', Heap.record?_alloc_next _ _, Heap.record?_alloc_next _ _,
        hlike.mono within_addRecord⟩
  cell hc := by
    obtain ⟨cell, cell', hcell, hcell', hl⟩ := hP.cell hc
    exact ⟨cell, cell', hcell, hcell', hl.mono within_addRecord⟩
  uniqueRecord := biUnique_or hP.uniqueRecord hP.not_record_next hP.not_next_record
  uniqueCell := hP.uniqueCell

theorem allocCell (hP : P.Isomorphic h h') {cell cell' : LazyCell} (hlike : cell.Like P cell') :
    (P.addCell h.nextCell h'.nextCell).Isomorphic (h.allocCell cell) (h'.allocCell cell') where
  record hr := by
    obtain ⟨rec, rec', hrec, hrec', hl⟩ := hP.record hr
    exact ⟨rec, rec', hrec, hrec', hl.mono within_addCell⟩
  cell {a a'} ha := by
    rcases ha with ha | ⟨rfl, rfl⟩
    · obtain ⟨cur, cur', hcur, hcur', hl⟩ := hP.cell ha
      exact ⟨cur, cur', Heap.cell?_allocCell hcur _, Heap.cell?_allocCell hcur' _,
        hl.mono within_addCell⟩
    · exact ⟨cell, cell', Heap.cell?_allocCell_next _ _, Heap.cell?_allocCell_next _ _,
        hlike.mono within_addCell⟩
  uniqueRecord := hP.uniqueRecord
  uniqueCell := biUnique_or hP.uniqueCell hP.not_cell_next hP.not_next_cell

theorem modify (hP : P.Isomorphic h h') (hr : P.record r r') {next next' : Record}
    (hlike : next.Like P next') :
    P.Isomorphic (h.modify r fun _ => next) (h'.modify r' fun _ => next') where
  record {a a'} ha := by
    obtain ⟨cur, cur', hcur, hcur', hl⟩ := hP.record ha
    rw [Heap.record?_modify, Heap.record?_modify, hcur, hcur']
    by_cases heq : r = a
    · subst heq
      have heq' : r' = a' := hP.uniqueRecord.2 hr ha
      rw [if_pos rfl, if_pos heq']
      exact ⟨next, next', rfl, rfl, hlike⟩
    · have hne : r' ≠ a' := fun heq' => heq (hP.uniqueRecord.1 hr (heq' ▸ ha))
      rw [if_neg heq, if_neg hne]
      exact ⟨cur, cur', rfl, rfl, hl⟩
  cell hc := hP.cell hc
  uniqueRecord := hP.uniqueRecord
  uniqueCell := hP.uniqueCell

end Isomorphic

end Pairing

/-! ## Storing values -/

section

variable {P : Pairing} {h h' : Heap} {l l' : Option RecordRef} {v v' : Value}

theorem EndsAlike.map {ε α β α' β' : Type} {V : α → β → Prop} {V' : α' → β' → Prop}
    {x : Except ε α} {y : Except ε β} {f : α → α'} {g : β → β'} (h : EndsAlike V x y)
    (hf : ∀ a b, V a b → V' (f a) (g b)) : EndsAlike V' (x.map f) (y.map g) := by
  cases h with
  | ok hv => exact .ok (hf _ _ hv)
  | error e => exact .error e

theorem EndsAlike.mapM {ε α β α' β' : Type} {V : α → β → Prop} {V' : α' → β' → Prop}
    {f : α → Except ε α'} {g : β → Except ε β'} {as : List α} {bs : List β}
    (h : List.Forall₂ V as bs) (hf : ∀ a b, V a b → EndsAlike V' (f a) (g b)) :
    EndsAlike (List.Forall₂ V') (as.mapM f) (bs.mapM g) := by
  induction h with
  | nil => exact .ok .nil
  | @cons a b as bs hab _ ih =>
    rw [List.mapM_cons, List.mapM_cons]
    have hhead := hf a b hab
    generalize f a = x at hhead ⊢
    generalize g b = y at hhead ⊢
    cases hhead with
    | error e => exact .error e
    | ok hv =>
      generalize as.mapM f = xs at ih ⊢
      generalize bs.mapM g = ys at ih ⊢
      cases ih with
      | error e => exact .error e
      | ok hvs => exact .ok (.cons hv hvs)

theorem Value.convert_of_isAtom (h h' : Heap) (l l' : Option RecordRef) (k : Kind)
    (hv : v.IsAtom) : v.convert h l k = v.convert h' l' k := by
  cases v with
  | ref x => exact hv.elim
  | _ => cases k <;> rfl

theorem Value.Like.convert (hP : P.Isomorphic h h') (hl : Option.Rel P.record l l')
    (hv : v.Like P v') (k : Kind) :
    EndsAlike (Value.Like P) (v.convert h l k) (v'.convert h' l' k) := by
  cases hv with
  | atom hatom =>
    rw [Value.convert_of_isAtom h' h l' l k hatom]
    cases hc : v.convert h l k with
    | error e => exact .error e
    | ok u =>
      have hu : u.IsAtom := by
        rcases Value.eq_or_isAtom_of_convert hc with rfl | hu
        · exact hatom
        · exact hu
      exact .ok (.atom hu)
  | @ref x x' hx =>
    cases k with
    | resource =>
      unfold Value.convert
      dsimp only
      rw [hP.resource? hx, hP.waits hl hx]
      split
      · exact .error _
      · split
        · exact .ok (.atom trivial)
        · exact .error _
    | ref target => exact .ok (.ref hx)
    | any => exact .ok (.ref hx)
    | _ => exact .error _
  | list hvs =>
    cases k with
    | any => exact .ok (.list hvs)
    | _ => exact .error _

theorem Value.Like.kindName (hv : v.Like P v') : v'.kindName = v.kindName := by
  cases hv <;> rfl

theorem Value.Like.convertList (hP : P.Isomorphic h h') (hl : Option.Rel P.record l l')
    (hv : v.Like P v') (k : Kind) :
    EndsAlike (Value.Like P) (v.convertList h l k) (v'.convertList h' l' k) := by
  have hkind := hv.kindName
  cases hv with
  | list hvs =>
    have hitems := EndsAlike.mapM (Value.allLike_iff.1 hvs) fun u u' (hu : u.Like P u') =>
      hu.convert hP hl k
    exact hitems.map fun _ _ hus => .list (Value.allLike_iff.2 hus)
  | ref hx => exact .error _
  | atom hatom =>
    cases v with
    | list items => exact hatom.elim
    | _ => exact .error _

theorem Record.Like.accepted (hP : P.Isomorphic h h') (hl : Option.Rel P.record l l')
    (hv : v.Like P v') (m : Member) :
    EndsAlike (Value.Like P) (Record.accepted h l m v) (Record.accepted h' l' m v') := by
  unfold Record.accepted
  split
  · exact .error _
  · exact .error _
  · exact .ok hv
  · split
    · exact hv.convertList hP hl _
    · exact hv.convert hP hl _

theorem Record.Like.store {rec rec' : Record} (hr : rec.Like P rec') (name : String)
    (hv : v.Like P v') : (rec.store name v).Like P (rec'.store name v') where
  type := hr.type
  id := hr.id
  values other := by
    simp only [Record.store, Table.get?_insert]
    split
    · exact .some hv
    · exact hr.values other

/-- A record at a place takes a value where the one at the paired place does, and both refuse it for
the same reason or wait for themselves. -/
theorem Record.Like.set {r r' : RecordRef} {rec rec' : Record} (hP : P.Isomorphic h h')
    (hplace : P.record r r') (hr : rec.Like P rec') (s : Schema) (name : String)
    (hv : v.Like P v') :
    EndsAlike (Record.Like P) (rec.set s h r name v) (rec'.set s h' r' name v') := by
  unfold Record.set
  rw [hr.type]
  split
  · split
    · exact .ok (hr.store name hv)
    · exact .error _
  · split
    · next m _ =>
      exact (Record.Like.accepted hP (.some hplace) hv m).map fun _ _ hu => hr.store name hu
    · exact .error _

end

end GraphMarshal
