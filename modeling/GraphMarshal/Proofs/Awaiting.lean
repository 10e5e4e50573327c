import GraphMarshal.Proofs.Encoding
import GraphMarshal.Proofs.Operations
import Mathlib.Data.Finset.Card

/-!
# Identifiers that wait for others

The identifier of a record may be that of the record that its identifying member refers to, which
gets its own first. So a record waits for another one, that one for a third, and so on. Giving an
identifier follows this chain, and it ends where the chain does. A chain that does not come back to
one of its records has no more of them than the heap. Nothing stops one that does: the recursion is
not guarded as that of readings is, and no number of steps is enough.
-/

namespace GraphMarshal

/-- Whether a reference names a place in the heap. -/
def Heap.Has (h : Heap) : Reference → Prop
  | .eager r => r.index < h.records.size
  | .lazy c => c.index < h.lazies.size

instance (h : Heap) : DecidablePred h.Has
  | .eager r => inferInstanceAs (Decidable (r.index < h.records.size))
  | .lazy c => inferInstanceAs (Decidable (c.index < h.lazies.size))

/-- The references that records hold name places in the heap. -/
def Heap.Intact (h : Heap) : Prop :=
  ∀ r rec name v x, h.record? r = some rec → rec.values.get? name = some v → v.Refers x → h.Has x

theorem Heap.Intact.of_get? {h : Heap} (hi : h.Intact) {s : Schema} {r : RecordRef} {rec : Record}
    {name : String} {x : Reference} (hr : h.record? r = some rec)
    (hx : rec.get? s name = some (.ref x)) : h.Has x := by
  rcases Record.get?_eq_some hx with hstored | hnil
  · exact hi r rec name _ x hr hstored (.ref x)
  · cases hnil

/-- A run ends with a result or with an error. -/
def Run.Returns {α : Type} (x : Run α) (w : World) : Prop :=
  (∃ a w', x w = .ok a w') ∨ ∃ e w', x w = .error (.failed e) w'

namespace Engine

/-! ## Chains -/

/-- The member that identifies the records of a type, if the type can be bound and names one. -/
def identifyingMember (cx : Setting) (w : World) (ty : TypeName) : Option String :=
  match w.bindings.get? ty with
  | some b => b.idMember.map (·.member)
  | none =>
    match cx.checkedClass ty with
    | .ok _ => (cx.schema.descriptor ty).idMember.map (·.member)
    | .error _ => none

/-- The record whose identifier a record without one waits for. -/
def awaited (cx : Setting) (w : World) (r : RecordRef) : Option RecordRef :=
  match w.heap.record? r with
  | none => none
  | some rec =>
    if rec.id.isSome || !cx.schema.carriesId rec.type then none
    else match (identifyingMember cx w rec.type).bind (rec.get? cx.schema) with
      | some (.ref (.eager a)) => some a
      | _ => none

/-- The record some steps along the chain from a record. -/
def awaitedAt (cx : Setting) (w : World) : Nat → RecordRef → Option RecordRef
  | 0, r => some r
  | n + 1, r => (awaited cx w r).bind (awaitedAt cx w n)

/-- The chain from a record comes back to one of its records. -/
def Loops (cx : Setting) (w : World) (r : RecordRef) : Prop :=
  ∃ i j a, i < j ∧ awaitedAt cx w i r = some a ∧ awaitedAt cx w j r = some a

variable {cx : Setting} {w w₁ w₂ : World} {r a : RecordRef} {rec : Record}

theorem awaited_eq_some : awaited cx w r = some a ↔ ∃ rec member, w.heap.record? r = some rec ∧
    rec.id = none ∧ cx.schema.carriesId rec.type ∧
    identifyingMember cx w rec.type = some member ∧
    rec.get? cx.schema member = some (.ref (.eager a)) := by
  unfold awaited
  constructor
  · intro h
    split at h
    · cases h
    · next rec hrec =>
      split at h
      · cases h
      · next hslot =>
        simp only [Bool.or_eq_true, Option.isSome_iff_ne_none, ne_eq, Bool.not_eq_true',
          not_or, not_not, Bool.not_eq_false] at hslot
        split at h
        · next b hb =>
          cases h
          obtain ⟨member, hmember, hget⟩ := Option.bind_eq_some_iff.1 hb
          exact ⟨rec, member, hrec, hslot.1, hslot.2, hmember, hget⟩
        · cases h
  · rintro ⟨rec, member, hrec, hid, hslot, hmember, hget⟩
    simp [hrec, hid, hslot, hmember, hget]

theorem awaitedAt_add (i n : Nat) (r : RecordRef) :
    awaitedAt cx w (i + n) r = (awaitedAt cx w i r).bind (awaitedAt cx w n) := by
  induction i generalizing r with
  | zero => rw [Nat.zero_add]; rfl
  | succ i ih =>
    rw [Nat.succ_add, awaitedAt, awaitedAt]
    cases awaited cx w r with
    | none => rfl
    | some a => exact ih a

theorem awaitedAt_none_of_le {i j : Nat} (h : awaitedAt cx w i r = none) (hij : i ≤ j) :
    awaitedAt cx w j r = none := by
  obtain ⟨n, rfl⟩ := Nat.exists_eq_add_of_le hij
  rw [awaitedAt_add, h]
  rfl

theorem Loops.endless (h : Loops cx w r) (n : Nat) : awaitedAt cx w n r ≠ none := by
  obtain ⟨i, j, a, hij, hi, hj⟩ := h
  obtain ⟨p, rfl⟩ := Nat.exists_eq_add_of_lt hij
  have hround : awaitedAt cx w (p + 1) a = some a := by
    rw [Nat.add_assoc, awaitedAt_add, hi] at hj
    exact hj
  have hrounds : ∀ k, awaitedAt cx w ((p + 1) * k) a = some a := by
    intro k
    induction k with
    | zero => rfl
    | succ k ih => rw [Nat.mul_succ, awaitedAt_add, ih]; exact hround
  intro hn
  have hle : n ≤ i + (p + 1) * n := by
    have hrounds : n ≤ (p + 1) * n := Nat.le_mul_of_pos_left n (Nat.succ_pos p)
    omega
  have hend := awaitedAt_none_of_le hn hle
  rw [awaitedAt_add, hi] at hend
  exact absurd (hend.symm.trans (hrounds n)) nofun

theorem not_loops_of_ends {n : Nat} (h : awaitedAt cx w n r = none) : ¬Loops cx w r :=
  fun hl => hl.endless n h

theorem has_awaited (hw : w.heap.Intact) (h : awaited cx w r = some a) :
    w.heap.Has (.eager a) := by
  obtain ⟨rec, member, hrec, -, -, -, hget⟩ := awaited_eq_some.1 h
  exact hw.of_get? hrec hget

theorem has_awaitedAt (hw : w.heap.Intact) : ∀ (n : Nat) {r a : RecordRef},
    w.heap.Has (.eager r) → awaitedAt cx w n r = some a → w.heap.Has (.eager a) := by
  intro n
  induction n with
  | zero =>
    intro r a hr h
    cases h
    exact hr
  | succ n ih =>
    intro r a _ h
    obtain ⟨b, hb, h⟩ := Option.bind_eq_some_iff.1 h
    exact ih (has_awaited hw hb) h

theorem awaitedAt_size_of_not_loops (hw : w.heap.Intact) (hr : w.heap.Has (.eager r))
    (h : ¬Loops cx w r) : awaitedAt cx w w.heap.records.size r = none := by
  by_contra hend
  have hall : ∀ i, i ≤ w.heap.records.size → ∃ a, awaitedAt cx w i r = some a := fun i hi =>
    Option.ne_none_iff_exists'.1 fun hi' => hend (awaitedAt_none_of_le hi' hi)
  let place (i : Nat) : Nat := ((awaitedAt cx w i r).getD r).index
  have hplace : ∀ i ∈ Finset.range (w.heap.records.size + 1),
      place i ∈ Finset.range w.heap.records.size := fun i hi => by
    obtain ⟨a, ha⟩ := hall i (Nat.lt_succ_iff.1 (Finset.mem_range.1 hi))
    have hplace : place i = a.index := by simp only [place, ha, Option.getD_some]
    rw [hplace, Finset.mem_range]
    exact has_awaitedAt hw i hr ha
  -- One place more than there are records: two of them are the same.
  obtain ⟨i, hi, j, hj, hne, heq⟩ := Finset.exists_ne_map_eq_of_card_lt_of_maps_to
    (by rw [Finset.card_range, Finset.card_range]; exact Nat.lt_succ_self _) hplace
  obtain ⟨a, ha⟩ := hall i (Nat.lt_succ_iff.1 (Finset.mem_range.1 hi))
  obtain ⟨b, hb⟩ := hall j (Nat.lt_succ_iff.1 (Finset.mem_range.1 hj))
  obtain rfl : a = b := by
    simp only [place, ha, hb, Option.getD_some] at heq
    cases a
    cases b
    exact congrArg _ heq
  rcases Nat.lt_or_gt_of_ne hne with hlt | hlt
  · exact h ⟨i, j, a, hlt, ha, hb⟩
  · exact h ⟨j, i, a, hlt, hb, ha⟩

/-! ## Runs that give identifiers -/

/-- What giving identifiers changes; types keep their identifying members. -/
structure Mints (cx : Setting) (w w' : World) : Prop extends w.Identifies False w' where
  member : ∀ ty, identifyingMember cx w' ty = identifyingMember cx w ty

namespace Mints

protected theorem refl (w : World) : Mints cx w w := ⟨.refl w, fun _ => rfl⟩

protected theorem trans (h : Mints cx w w₁) (h' : Mints cx w₁ w₂) : Mints cx w w₂ :=
  ⟨h.toIdentifies.trans h'.toIdentifies, fun ty => (h'.member ty).trans (h.member ty)⟩

theorem earlier (h : Mints cx w w₁) (hr : w₁.heap.record? r = some rec) :
    ∃ old, w.heap.record? r = some old ∧ rec = { old with id := rec.id } ∧
      (rec.id = none → old.id = none) := by
  have hlt := Heap.record?_eq_some_lt hr
  rw [h.size] at hlt
  obtain ⟨old, hold⟩ := Heap.exists_record? hlt
  obtain ⟨i, hi, hkeep⟩ := h.record hold
  rw [hr] at hi
  cases hi
  refine ⟨old, hold, rfl, fun hnone => ?_⟩
  cases hid : old.id with
  | none => rfl
  | some k => exact absurd (hnone.symm.trans (hkeep k hid)) nofun

theorem has (h : Mints cx w w₁) {x : Reference} (hx : w.heap.Has x) : w₁.heap.Has x := by
  cases x with
  | eager a => exact Nat.lt_of_lt_of_eq hx h.size.symm
  | lazy c => exact Nat.lt_of_lt_of_eq hx (congrArg Array.size h.lazies.symm)

theorem intact (h : Mints cx w w₁) (hw : w.heap.Intact) : w₁.heap.Intact := by
  intro r rec name v x hr hv hx
  obtain ⟨old, hold, hrec, -⟩ := h.earlier hr
  rw [hrec] at hv
  exact h.has (hw r old name v x hold hv hx)

theorem awaited_of (h : Mints cx w w₁) (ha : awaited cx w₁ r = some a) :
    awaited cx w r = some a := by
  obtain ⟨rec, member, hrec, hid, hslot, hmember, hget⟩ := awaited_eq_some.1 ha
  obtain ⟨old, hold, heq, hnone⟩ := h.earlier hrec
  rw [heq] at hslot hmember hget
  rw [h.member] at hmember
  exact awaited_eq_some.2 ⟨old, member, hold, hnone hid, hslot, hmember, hget⟩

theorem awaitedAt_none (h : Mints cx w w₁) : ∀ (n : Nat) {r : RecordRef},
    awaitedAt cx w n r = none → awaitedAt cx w₁ n r = none := by
  intro n
  induction n with
  | zero => exact fun hr => hr
  | succ n ih =>
    intro r hr
    show (awaited cx w₁ r).bind _ = none
    cases ha : awaited cx w₁ r with
    | none => rfl
    | some a =>
      refine ih ?_
      rw [awaitedAt, h.awaited_of ha] at hr
      exact hr

theorem awaitedAt_eq (h : Mints cx w w₁) (hheap : w₁.heap = w.heap) (n : Nat) (r : RecordRef) :
    awaitedAt cx w₁ n r = awaitedAt cx w n r := by
  have hawaited : ∀ r, awaited cx w₁ r = awaited cx w r := fun r => by
    unfold awaited
    simp only [hheap, h.member]
  induction n generalizing r with
  | zero => rfl
  | succ n ih =>
    rw [awaitedAt, awaitedAt, hawaited]
    exact Option.bind_congr fun a _ => ih a

end Mints

/-- Runs that give identifiers and stop as told. -/
def minting (cx : Setting) (halt : Halt → Prop) : Contract where
  step := Mints cx
  halt := halt
  compared _ := True
  refl := .refl
  trans := .trans
  log w _ := ⟨.count w (Nat.le_refl _), fun _ => rfl⟩
  back _ _ := trivial

variable {halt : Halt → Prop} {assign assign' : RecordRef → Run Resource}
  {V : Resource → World → Prop}

theorem Mints.of_bound {ty : TypeName} {b : TypeBinding} (hrun : bindingOf cx ty w = .ok b w₁) :
    Mints cx w w₁ := by
  obtain ⟨hext, hheap, -, -⟩ := bindingOf_ok hrun
  refine ⟨.of_extends hext hheap nofun, fun ty' => ?_⟩
  obtain ⟨-, rfl⟩ | ⟨iri, hb, hc, rfl, -⟩ := bindingOf_eq_ok hrun
  · rfl
  · unfold identifyingMember World.resolved
    by_cases heq : ty = ty'
    · subst heq
      rw [Table.get?_insert_self, hb, hc]
      simp [TypeBinding.build, Option.map_map, Function.comp_def]
    · rw [Table.get?_insert, if_neg heq]

theorem bindingOf_mints {ty : TypeName}
    (hfail : ∀ flaw, w.bindings.get? ty = none → cx.checkedClass ty = .error flaw →
      halt (.failed (.invalid flaw))) :
    (minting cx halt).Keeps (bindingOf cx ty) (bindingOf cx ty) (fun b w' => w'.heap = w.heap ∧
      b.idMember.map (·.member) = identifyingMember cx w ty) w := by
  cases hrun : bindingOf cx ty w with
  | ok b w₁ =>
    obtain ⟨-, hheap, hbound, -⟩ := bindingOf_ok hrun
    have hmints := Mints.of_bound hrun
    refine .of_ok hrun hmints ⟨hheap, ?_⟩ fun _ => hrun
    rw [← hmints.member]
    unfold identifyingMember
    rw [hbound]
  | error e w₁ =>
    obtain ⟨rfl, hnone, flaw, rfl, hflaw⟩ := bindingOf_error hrun
    unfold Contract.Keeps
    rw [hrun]
    exact ⟨.refl _, hfail flaw hnone hflaw, fun _ => rfl⟩

theorem referenceId_lazy {K : Contract} {c : LazyRef} (assign assign' : RecordRef → Run Resource)
    (hc : w.heap.Has (.lazy c)) :
    K.Keeps (referenceId assign (.lazy c)) (referenceId assign' (.lazy c))
      (fun _ _ => True) w := by
  have hcell : w.heap.cell? c = some w.heap.lazies[c.index] :=
    Array.getElem?_eq_some_iff.2 ⟨hc, rfl⟩
  have hnames : w.heap.resource? (.lazy c) = some (w.heap.cellResource w.heap.lazies[c.index]) :=
    congrArg (Option.map w.heap.cellResource) hcell
  refine .bind .get fun w₁ w₂ _ hw => ?_
  rw [hw.1, hnames]
  exact .pure trivial

theorem freshId_awaited (hrec : w.heap.record? r = some rec) (ha : awaited cx w r = some a)
    (hassign : ∀ w₁, Mints cx w w₁ → w₁.heap = w.heap →
      (minting cx halt).Keeps (assign a) (assign' a) V w₁) :
    (minting cx halt).Keeps (freshId cx assign rec) (freshId cx assign' rec) V w := by
  obtain ⟨rec', member, hrec', -, -, hmember, hget⟩ := awaited_eq_some.1 ha
  rw [hrec] at hrec'
  cases hrec'
  have hbound : ∀ flaw, w.bindings.get? rec.type = none →
      cx.checkedClass rec.type = .error flaw → halt (.failed (.invalid flaw)) := by
    intro flaw hb hflaw
    unfold identifyingMember at hmember
    rw [hb, hflaw] at hmember
    cases hmember
  unfold freshId
  refine .bind (bindingOf_mints hbound) fun b w₁ h₁ hb => ?_
  obtain ⟨hheap, hb⟩ := hb
  rw [hmember] at hb
  obtain ⟨m, hm, rfl⟩ := Option.map_eq_some_iff.1 hb
  have hvalue : identifyingValue cx rec m.member = .ok (.ref (.eager a)) := by
    unfold identifyingValue
    rw [hget]
    rfl
  rw [hm]
  dsimp only
  rw [hvalue]
  exact hassign w₁ h₁ hheap

theorem freshId_unawaited (hw : w.heap.Intact) (hrec : w.heap.record? r = some rec)
    (hid : rec.id = none) (hslot : cx.schema.carriesId rec.type) (ha : awaited cx w r = none)
    (hfails : ∀ e, halt (.failed e)) :
    (minting cx halt).Keeps (freshId cx assign rec) (freshId cx assign' rec)
      (fun _ _ => True) w := by
  unfold freshId
  refine .bind (bindingOf_mints fun _ _ _ => hfails _) fun b w₁ _ hb => ?_
  obtain ⟨hheap, hb⟩ := hb
  cases hm : b.idMember with
  | none =>
    have hcount : Mints cx w₁ { w₁ with generated := w₁.generated + 1 } :=
      ⟨.count w₁ (Nat.le_succ _), fun _ => rfl⟩
    exact .bind (.nextGenerated hcount) fun _ _ _ _ => .pure trivial
  | some m =>
    rw [hm] at hb
    dsimp only
    cases hv : identifyingValue cx rec m.member with
    | error flaw => exact .fail (hfails _)
    | ok v =>
      have hget : rec.get? cx.schema m.member = some v := get?_of_identifyingValue hv
      cases v with
      | ref x =>
        cases x with
        | eager a =>
          have hsome : awaited cx w r = some a :=
            awaited_eq_some.2 ⟨rec, m.member, hrec, hid, hslot, hb.symm, hget⟩
          exact absurd (ha.symm.trans hsome) nofun
        | lazy c =>
          have hc : w₁.heap.Has (.lazy c) := hheap ▸ hw.of_get? hrec hget
          exact referenceId_lazy assign assign' hc
      | list items => exact .fail (hfails _)
      | _ => exact .pure trivial

theorem assignIdWithin_succ {n : Nat} (hrec : w.heap.record? r = some rec) (hid : rec.id = none)
    (hslot : cx.schema.carriesId rec.type) :
    assignIdWithin cx (n + 1) r w = (do
      let id ← freshId cx (assignIdWithin cx n) rec
      Run.modifyHeap (·.initId r id)
      pure (((← get).heap.id? r).getD id) : Run Resource) w := by
  rw [assignIdWithin, Run.bind_apply_ok (Run.recordAt_apply hrec), hid]
  simp only [hslot, Bool.not_true, Bool.false_eq_true, ↓reduceIte]

/-- Along a chain that ends no budget is used up, by induction on its length; a larger budget
changes nothing. -/
theorem assignIdWithin_ends (hfails : ∀ e, halt (.failed e)) : ∀ (n m : Nat) {w : World}
    {r : RecordRef}, w.heap.Intact → w.heap.Has (.eager r) → awaitedAt cx w n r = none → n ≤ m →
    (minting cx halt).Keeps (assignIdWithin cx n r) (assignIdWithin cx m r)
      (fun _ _ => True) w := by
  intro n
  induction n with
  | zero => exact fun _ {_ _} _ _ h => absurd h nofun
  | succ n ih =>
    intro m w r hw hr h hm
    obtain ⟨m, rfl⟩ : ∃ k, m = k + 1 := ⟨m - 1, by omega⟩
    obtain ⟨rec, hrec⟩ := Heap.exists_record? hr
    cases hid : rec.id with
    | some k =>
      have hdone : ∀ n, assignIdWithin cx (n + 1) r w = .ok k w := fun n => by
        rw [assignIdWithin, Run.bind_apply_ok (Run.recordAt_apply hrec), hid]
        rfl
      exact .of_ok (hdone n) (.refl w) trivial fun _ => hdone _
    | none =>
      cases hslot : cx.schema.carriesId rec.type with
      | false =>
        have hrefused : ∀ n, assignIdWithin cx (n + 1) r w =
            (Run.invalid (.noIdentifierSlot rec.type) : Run Resource) w := fun n => by
          rw [assignIdWithin, Run.bind_apply_ok (Run.recordAt_apply hrec), hid]
          simp [hslot]
        exact .congr (hrefused n) (hrefused m) (.fail (hfails _))
      | true =>
        refine .congr (assignIdWithin_succ hrec hid hslot) (assignIdWithin_succ hrec hid hslot) ?_
        refine .bind (V := fun _ _ => True) ?fresh fun k w₂ _ _ => ?_
        case fresh =>
          cases ha : awaited cx w r with
          | none => exact freshId_unawaited hw hrec hid hslot ha hfails
          | some a =>
            rw [awaitedAt, ha] at h
            refine freshId_awaited hrec ha fun w₁ h₁ hheap => ?_
            exact ih m (h₁.intact hw) (h₁.has (has_awaited hw ha)) (h₁.awaitedAt_none n h)
              (Nat.le_of_succ_le_succ hm)
        have hfill : Mints cx w₂ { w₂ with heap := w₂.heap.initId r k } :=
          ⟨.initId w₂ r k, fun _ => rfl⟩
        refine .bind (V := fun _ _ => True) (.modify hfill trivial) fun _ _ _ _ => ?_
        exact .bind .get fun _ _ _ _ => .pure trivial

/-- A chain longer than the budget uses it up. -/
theorem assignIdWithin_exhausted : ∀ (n : Nat) {w : World} {r : RecordRef},
    awaitedAt cx w n r ≠ none → ∃ w', assignIdWithin cx n r w = .error .exhausted w' := by
  suffices ∀ (n : Nat) {w : World} {r : RecordRef}, awaitedAt cx w n r ≠ none →
      (minting cx (· = .exhausted)).Keeps (assignIdWithin cx n r) (assignIdWithin cx n r)
        (fun _ _ => False) w from fun n w r h => by
    have hk := this n h
    cases hrun : assignIdWithin cx n r w with
    | ok k w' => exact (hk.ok hrun).2.1.elim
    | error e w' =>
      obtain ⟨-, rfl, -⟩ := hk.error hrun
      exact ⟨w', rfl⟩
  intro n
  induction n with
  | zero => exact fun _ => .throw rfl
  | succ n ih =>
    intro w r h
    cases ha : awaited cx w r with
    | none => exact absurd (by rw [awaitedAt, ha]; rfl) h
    | some a =>
      rw [awaitedAt, ha] at h
      obtain ⟨rec, -, hrec, hid, hslot, -, -⟩ := awaited_eq_some.1 ha
      refine .congr (assignIdWithin_succ hrec hid hslot) (assignIdWithin_succ hrec hid hslot) ?_
      refine .bind (V := fun _ _ => False) ?_ fun _ _ _ hfalse => hfalse.elim
      refine freshId_awaited hrec ha fun w₁ h₁ hheap => ih ?_
      rw [h₁.awaitedAt_eq hheap]
      exact h

/-! ## Whole runs -/

/-- Runs that give identifiers and end with a result or with an error. -/
abbrev answering (cx : Setting) : Contract := minting cx fun h => ∃ e, h = .failed e

theorem returns_of_answering {α : Type} {x y : Run α} {V : α → World → Prop}
    (h : (answering cx).Keeps x y V w) : Run.Returns x w := by
  cases hrun : x w with
  | ok a w' => exact .inl ⟨a, w', hrun⟩
  | error e w' =>
    obtain ⟨-, ⟨e, rfl⟩, -⟩ := h.error hrun
    exact .inr ⟨e, w', hrun⟩

theorem assignIdWithin_answers (hw : w.heap.Intact) (hr : w.heap.Has (.eager r))
    (hend : awaitedAt cx w w.heap.records.size r = none) {n : Nat}
    (hn : w.heap.records.size ≤ n) :
    (answering cx).Keeps (assignIdWithin cx w.heap.records.size r) (assignIdWithin cx n r)
      (fun _ _ => True) w :=
  assignIdWithin_ends (fun e => ⟨e, rfl⟩) _ n hw hr hend hn

/-- Every budget that is large enough does what the least one does. -/
theorem assignIdWithin_eq (hw : w.heap.Intact) (hr : w.heap.Has (.eager r))
    (hend : awaitedAt cx w w.heap.records.size r = none) {n : Nat}
    (hn : w.heap.records.size ≤ n) :
    assignIdWithin cx n r w = assignIdWithin cx w.heap.records.size r w := by
  have hk := assignIdWithin_answers hw hr hend hn
  cases hrun : assignIdWithin cx w.heap.records.size r w with
  | ok k w' => exact (hk.ok hrun).2.2 trivial
  | error e w' => exact (hk.error hrun).2.2 trivial

theorem assignId_apply (cx : Setting) (w : World) (r : RecordRef) :
    assignId cx r w = assignIdWithin cx (w.heap.records.size + 1) r w := by
  unfold assignId
  rw [Run.bind_apply_ok (Run.get_apply w)]

theorem assignId_answers (hw : w.heap.Intact) (hr : w.heap.Has (.eager r))
    (hend : awaitedAt cx w w.heap.records.size r = none) :
    (answering cx).Keeps (assignId cx r) (assignId cx r) (fun _ _ => True) w := by
  have heq : assignId cx r w = assignIdWithin cx w.heap.records.size r w :=
    (assignId_apply cx w r).trans (assignIdWithin_eq hw hr hend (Nat.le_succ _))
  exact .congr heq heq (assignIdWithin_answers hw hr hend (Nat.le_refl _))

/-- A record is written if no chain from it or from a record that it refers to comes back. -/
theorem toGraph_answers (hw : w.heap.Intact) (hrec : w.heap.record? r = some rec)
    (hself : ¬Loops cx w r)
    (hrefs : ∀ name v a, rec.values.get? name = some v → v.Refers (.eager a) → ¬Loops cx w a) :
    (answering cx).Keeps (toGraph cx r) (toGraph cx r) (fun _ _ => True) w := by
  have hr : w.heap.Has (.eager r) := Heap.record?_eq_some_lt hrec
  have hassign : ∀ {w₁ a}, Mints cx w w₁ → w.heap.Has (.eager a) → ¬Loops cx w a →
      (answering cx).Keeps (assignId cx a) (assignId cx a) (fun _ _ => True) w₁ := by
    intro w₁ a h ha hl
    refine assignId_answers (h.intact hw) (h.has ha) ?_
    rw [h.size]
    exact h.awaitedAt_none _ (awaitedAt_size_of_not_loops hw ha hl)
  refine toGraph_keeps (R := fun x => w.heap.Has x ∧ ∀ a, x = .eager a → ¬Loops cx w a) ?_
  exact
    { fails := fun e => ⟨e, rfl⟩
      bound := fun _ ty => (bindingOf_mints fun _ _ _ => ⟨_, rfl⟩).mono fun _ _ _ _ => trivial
      count := fun {w₁} _ => ⟨.count w₁ (Nat.le_succ _), fun _ => rfl⟩
      record := fun {w₁} h => by
        obtain ⟨i, hi, -⟩ := h.record hrec
        have hrun := Run.recordAt_apply hi
        refine .of_ok hrun (.refl w₁) (fun name v x hv hx => ?_) fun _ => hrun
        exact ⟨hw r rec name v x hrec hv hx, fun a ha => hrefs name v a hv (ha ▸ hx)⟩
      self := fun h => hassign h hr hself
      named := fun {w₁} h x hx => by
        cases x with
        | eager a => exact hassign h hx.1 (hx.2 a rfl)
        | lazy c => exact referenceId_lazy _ _ (h.has hx.1) }

/-- **Giving identifiers ends** for a record whose chain does not come back, with an identifier or
an error, and so does writing it if that goes for the records that it refers to as well; a larger
budget changes nothing. On a chain that comes back every budget is used up. -/
theorem assignId_returns (cx : Setting) (w : World) (r : RecordRef) (hw : w.heap.Intact)
    (hr : w.heap.Has (.eager r)) :
    (¬Loops cx w r → Run.Returns (assignId cx r) w ∧
      ∀ n, w.heap.records.size ≤ n → assignIdWithin cx n r w = assignId cx r w) ∧
    (Loops cx w r → ∀ n, ∃ w', assignIdWithin cx n r w = .error .exhausted w') ∧
    (¬Loops cx w r → (∀ rec name v a, w.heap.record? r = some rec →
      rec.values.get? name = some v → v.Refers (.eager a) → ¬Loops cx w a) →
        Run.Returns (toGraph cx r) w) := by
  refine ⟨fun hl => ?_, fun hl n => assignIdWithin_exhausted n (hl.endless n),
    fun hself hrefs => ?_⟩
  · have hend := awaitedAt_size_of_not_loops hw hr hl
    refine ⟨returns_of_answering (assignId_answers hw hr hend), fun n hn => ?_⟩
    rw [assignId_apply, assignIdWithin_eq hw hr hend hn,
      assignIdWithin_eq hw hr hend (Nat.le_succ _)]
  · obtain ⟨rec, hrec⟩ := Heap.exists_record? hr
    exact returns_of_answering
      (toGraph_answers hw hrec hself fun name v a => hrefs rec name v a hrec)

/-- Peers who are identified by another one. -/
def peerSetting : Setting where
  config := { defaultLanguage := "en" }
  schema := { types := [{
    name := "Peer"
    descriptor := {
      classIri := some "urn:Peer"
      idMember := some { member := "peer" }
      members := [{
        name := "peer", kind := .ref (some "Peer"), predicate := some "urn:peer" }] } }] }

/-- Two peers; the first is identified by the second, who has an identifier. -/
def peerWorld : World := (World.initial peerSetting.config).run peerSetting
  [.create "Peer" none, .create "Peer" (some (.iri "urn:b")),
    .set ⟨0⟩ "peer" (.ref (.eager ⟨1⟩))]

/-- Two peers who are identified by each other. -/
def peersWorld : World := (World.initial peerSetting.config).run peerSetting
  [.create "Peer" none, .create "Peer" none, .set ⟨0⟩ "peer" (.ref (.eager ⟨1⟩)),
    .set ⟨1⟩ "peer" (.ref (.eager ⟨0⟩))]

theorem intact_of_peers {h : Heap} (hv : ∀ rec ∈ h.records, rec.values = ∅ ∨
    ∃ a, rec.values = Table.insert ∅ "peer" (.ref (.eager a)) ∧ h.Has (.eager a)) : h.Intact := by
  intro r rec name v x hr hget hx
  rcases hv rec (Array.mem_of_getElem? hr) with hnone | ⟨a, hsome, ha⟩
  · rw [hnone] at hget
    cases hget
  · rw [hsome, Table.get?_insert] at hget
    split at hget
    · cases hget
      rw [Value.refers_ref.1 hx]
      exact ha
    · cases hget

theorem intact_peerWorld : peerWorld.heap.Intact := by
  have hrecords : peerWorld.heap.records = #[
      { type := "Peer", values := Table.insert ∅ "peer" (.ref (.eager ⟨1⟩)) },
      { type := "Peer", id := some (.iri "urn:b") }] := rfl
  refine intact_of_peers fun rec hrec => ?_
  rw [hrecords] at hrec
  rcases List.mem_cons.1 (Array.mem_toList_iff.2 hrec) with rfl | hrec
  · exact .inr ⟨⟨1⟩, rfl, by decide +kernel⟩
  · obtain rfl := List.mem_singleton.1 hrec
    exact .inl rfl

theorem intact_peersWorld : peersWorld.heap.Intact := by
  have hrecords : peersWorld.heap.records = #[
      { type := "Peer", values := Table.insert ∅ "peer" (.ref (.eager ⟨1⟩)) },
      { type := "Peer", values := Table.insert ∅ "peer" (.ref (.eager ⟨0⟩)) }] := rfl
  refine intact_of_peers fun rec hrec => ?_
  rw [hrecords] at hrec
  rcases List.mem_cons.1 (Array.mem_toList_iff.2 hrec) with rfl | hrec
  · exact .inr ⟨⟨1⟩, rfl, by decide +kernel⟩
  · obtain rfl := List.mem_singleton.1 hrec
    exact .inr ⟨⟨0⟩, rfl, by decide +kernel⟩

/-- The first peer gets the identifier of the second, and is written with it. -/
theorem assignId_returns_peer :
    peerWorld.heap.Intact ∧ peerWorld.heap.Has (.eager ⟨0⟩) ∧
      ¬Loops peerSetting peerWorld ⟨0⟩ ∧ ¬Loops peerSetting peerWorld ⟨1⟩ ∧
      Run.Returns (assignId peerSetting ⟨0⟩) peerWorld ∧
      (∃ w', assignIdWithin peerSetting 2 ⟨0⟩ peerWorld = .ok (.iri "urn:b") w') ∧
      Run.Returns (toGraph peerSetting ⟨0⟩) peerWorld := by
  have hhas : peerWorld.heap.Has (.eager ⟨0⟩) := by decide +kernel
  have hself : ¬Loops peerSetting peerWorld ⟨0⟩ :=
    not_loops_of_ends (n := 2) (by decide +kernel)
  have hpeer : ¬Loops peerSetting peerWorld ⟨1⟩ :=
    not_loops_of_ends (n := 1) (by decide +kernel)
  obtain ⟨hends, -, hwrites⟩ := assignId_returns peerSetting peerWorld ⟨0⟩ intact_peerWorld hhas
  obtain ⟨hreturns, heq⟩ := hends hself
  have hid : Run.passes (fun k _ => k = .iri "urn:b")
      (assignIdWithin peerSetting 2 ⟨0⟩ peerWorld) := by decide +kernel
  obtain ⟨k, w', hrun, hk⟩ := Run.exists_ok hid
  refine ⟨intact_peerWorld, hhas, hself, hpeer, hreturns, ⟨w', ?_⟩, hwrites hself ?_⟩
  · rw [hrun, of_decide_eq_true hk]
  · intro rec name v a hrec hv hx
    have hrec' : rec = { type := "Peer", values := Table.insert ∅ "peer" (.ref (.eager ⟨1⟩)) } :=
      (Option.some.inj hrec).symm
    rw [hrec', Table.get?_insert] at hv
    split at hv
    · cases hv
      cases Value.refers_ref.1 hx
      exact hpeer
    · cases hv

/-- Peers who are identified by each other never get an identifier: whatever the budget, it is used
up. -/
theorem assignId_endless_peers :
    ∃ w r, w.Reachable peerSetting ∧ w.heap.Intact ∧ w.heap.Has (.eager r) ∧
      ∀ n, ∃ w', assignIdWithin peerSetting n r w = .error .exhausted w' := by
  have hloops : Loops peerSetting peersWorld ⟨0⟩ :=
    ⟨0, 2, ⟨0⟩, by decide, rfl, by decide +kernel⟩
  exact ⟨peersWorld, ⟨0⟩, World.Reachable.initial.run _, intact_peersWorld, by decide +kernel,
    fun n => assignIdWithin_exhausted n (hloops.endless n)⟩

end Engine

end GraphMarshal
