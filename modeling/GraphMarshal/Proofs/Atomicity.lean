import GraphMarshal.Proofs.Awaiting

/-!
# One identifier for a whole chain

Giving an identifier follows the identifying references from record to record, up to one that has an
identifier or that refers to no other. Every check comes on the way there and every slot is filled
on the way back, so the records of the chain get one identifier, or none of them gets any.
-/

namespace GraphMarshal

theorem World.Sound.idMember {cx : Setting} {w : World} {ty : TypeName} {b : TypeBinding}
    (h : w.Sound cx) (hb : w.bindings.get? ty = some b) :
    b.idMember.map (·.member) = (cx.schema.descriptor ty).idMember.map (·.member) := by
  obtain ⟨n, iri, -, rfl⟩ := h.bound hb
  simp [TypeBinding.build, Option.map_map, Function.comp_def]

namespace Engine

/-! ## Chains of identifying references -/

/-- The record that a value refers to. -/
def eagerReference? : Value → Option RecordRef
  | .ref (.eager a) => some a
  | _ => none

/-- The record that the identifying member of a record refers to. -/
def identifyingReference? (cx : Setting) (h : Heap) (x : RecordRef) : Option RecordRef :=
  (h.record? x).bind fun rec => (cx.schema.descriptor rec.type).idMember.bind fun m =>
    (rec.get? cx.schema m.member).bind eagerReference?

/-- A record without an identifier refers to the record that it is identified by. -/
def PassesOn (cx : Setting) (h : Heap) (x y : RecordRef) : Prop :=
  h.id? x = none ∧ identifyingReference? cx h x = some y

/-- A record lies on the chain from `r`. -/
def OnChain (cx : Setting) (h : Heap) (r x : RecordRef) : Prop :=
  Relation.ReflTransGen (PassesOn cx h) r x

/-- No record on the chain from `r` is met again. -/
def Acyclic (cx : Setting) (h : Heap) (r : RecordRef) : Prop :=
  ∀ x, OnChain cx h r x → ¬Relation.TransGen (PassesOn cx h) x x

variable {cx : Setting} {w w₁ w₂ : World} {h : Heap} {r x y : RecordRef} {rec : Record}

theorem onChain_of_last (hlast : ∀ y, ¬PassesOn cx h r y) : OnChain cx h r x ↔ x = r :=
  Relation.reflTransGen_iff_eq hlast

theorem onChain_of_passesOn (hr : PassesOn cx h r y) :
    OnChain cx h r x ↔ x = r ∨ OnChain cx h y x := by
  unfold OnChain
  rw [Relation.ReflTransGen.cases_head_iff]
  constructor
  · rintro (rfl | ⟨b, hb, hx⟩)
    · exact .inl rfl
    · obtain rfl : b = y := Option.some.inj (hb.2.symm.trans hr.2)
      exact .inr hx
  · rintro (rfl | hx)
    · exact .inl rfl
    · exact .inr ⟨y, hr, hx⟩

theorem identifyingReference?_of_bound {b : TypeBinding} (hs : w.Sound cx)
    (hb : w.bindings.get? rec.type = some b) (hrec : h.record? r = some rec) :
    identifyingReference? cx h r =
      b.idMember.bind fun m => (rec.get? cx.schema m.member).bind eagerReference? := by
  have hm := hs.idMember hb
  unfold identifyingReference?
  rw [hrec]
  show ((cx.schema.descriptor rec.type).idMember.bind fun m => _) = _
  cases hd : (cx.schema.descriptor rec.type).idMember <;> cases hb : b.idMember <;>
    simp_all

/-! ## Giving an identifier along the chain -/

theorem idOfValue_cases (assign : RecordRef → Run Resource) (ns : Option String) (v : Value)
    (w : World) :
    (∃ a, eagerReference? v = some a ∧ idOfValue assign ns v w = assign a w) ∨
    eagerReference? v = none ∧
      ((∃ k, idOfValue assign ns v w = .ok k w) ∨ ∃ e, idOfValue assign ns v w = .error e w) := by
  cases v with
  | ref x =>
    cases x with
    | eager a => exact .inl ⟨a, rfl, rfl⟩
    | lazy c =>
      refine .inr ⟨rfl, ?_⟩
      rw [idOfValue, referenceId, Run.bind_apply_ok (Run.get_apply w)]
      cases w.heap.resource? (.lazy c) with
      | some k => exact .inl ⟨k, rfl⟩
      | none => exact .inr ⟨.dangling, rfl⟩
  | list items => exact .inr ⟨rfl, .inr ⟨_, rfl⟩⟩
  | _ => exact .inr ⟨rfl, .inl ⟨_, rfl⟩⟩

/-- A record asks another one for an identifier, or finds one itself, or fails. The heap is as
before up to there. -/
theorem freshId_cases (assign : RecordRef → Run Resource) (hs : w.Sound cx)
    (hrec : w.heap.record? r = some rec) :
    (∃ a w₁, identifyingReference? cx w.heap r = some a ∧ w₁.heap = w.heap ∧ w₁.Sound cx ∧
      freshId cx assign rec w = assign a w₁) ∨
    (∃ k w₁, identifyingReference? cx w.heap r = none ∧ w₁.heap = w.heap ∧
      freshId cx assign rec w = .ok k w₁) ∨
    ∃ e w₁, w₁.heap = w.heap ∧ freshId cx assign rec w = .error e w₁ := by
  unfold freshId
  cases hrun : bindingOf cx rec.type w with
  | error e w₁ =>
    obtain ⟨rfl, -, -⟩ := bindingOf_error hrun
    exact .inr (.inr ⟨e, w₁, rfl, by rw [Run.bind_apply, hrun]⟩)
  | ok b w₁ =>
    obtain ⟨-, hheap, hbound, -⟩ := bindingOf_ok hrun
    have hs₁ : w₁.Sound cx := (bindingOf_preserves.ok hrun).1.sound hs
    rw [Run.bind_apply_ok hrun, identifyingReference?_of_bound hs₁ hbound hrec]
    cases b.idMember with
    | none => exact .inr (.inl ⟨_, { w₁ with generated := w₁.generated + 1 }, rfl, hheap, rfl⟩)
    | some m =>
      dsimp only
      cases hv : identifyingValue cx rec m.member with
      | error flaw => exact .inr (.inr ⟨_, w₁, hheap, rfl⟩)
      | ok v =>
        have hget : rec.get? cx.schema m.member = some v := get?_of_identifyingValue hv
        rw [Option.bind_some, hget]
        rcases idOfValue_cases assign m.ns v w₁ with ⟨a, ha, hrun⟩ | ⟨hnone, ⟨k, hrun⟩ | ⟨e, hrun⟩⟩
        · exact .inl ⟨a, w₁, ha, hheap, hs₁, hrun⟩
        · exact .inr (.inl ⟨k, w₁, hnone, hheap, hrun⟩)
        · exact .inr (.inr ⟨e, w₁, hheap, hrun⟩)

/-- What a run does to the identifiers of a heap: those on the chain from `r` get its result, or all
stay. -/
def Spreads (cx : Setting) (h : Heap) (r : RecordRef) : EStateM.Result Halt World Resource → Prop
  | .ok k w' => (∀ x, OnChain cx h r x → w'.heap.id? x = some k) ∧
      ∀ x, ¬OnChain cx h r x → w'.heap.id? x = h.id? x
  | .error _ w' => w'.heap = h

theorem spreads_of_last {k : Resource} {w' : World} (hlast : ∀ y, ¬PassesOn cx h r y)
    (hk : w'.heap.id? r = some k) (hother : ∀ x, x ≠ r → w'.heap.id? x = h.id? x) :
    Spreads cx h r (.ok k w') := by
  refine ⟨fun x hx => ?_, fun x hx => hother x fun heq => hx ((onChain_of_last hlast).2 heq)⟩
  obtain rfl := (onChain_of_last hlast).1 hx
  exact hk

theorem id?_initId_of_ne {k : Resource} (hne : x ≠ r) : (h.initId r k).id? x = h.id? x := by
  unfold Heap.id? Heap.initId
  rw [Heap.record?_modify, if_neg (Ne.symm hne)]

theorem id?_initId_self {k : Resource} (hrec : h.record? r = some rec) :
    (h.initId r k).id? r = some (rec.id.getD k) :=
  Heap.id?_eq_some.2 ⟨_, Heap.record?_modify_self hrec _, rfl⟩

theorem Spreads.id? {k : Resource} {w' : World} (hs : Spreads cx h r (.ok k w')) (x : RecordRef) :
    w'.heap.id? x = some k ∨ w'.heap.id? x = h.id? x := by
  by_cases hx : OnChain cx h r x
  · exact .inl (hs.1 x hx)
  · exact .inr (hs.2 x hx)

/-- The chain from a record that refers to another one is that record and the chain from the other
one. -/
theorem Spreads.step {k : Resource} {w' : World} (hs : Spreads cx h y (.ok k w'))
    (hr : PassesOn cx h r y) (hk : (w'.heap.initId r k).id? r = some k) :
    Spreads cx h r (.ok k { w' with heap := w'.heap.initId r k }) := by
  refine ⟨fun x hx => ?_, fun x hx => ?_⟩
  · by_cases hxr : x = r
    · exact hxr ▸ hk
    · have hrest := ((onChain_of_passesOn hr).1 hx).resolve_left hxr
      exact (id?_initId_of_ne hxr).trans (hs.1 x hrest)
  · have hxr : x ≠ r := fun heq => hx ((onChain_of_passesOn hr).2 (.inl heq))
    have hrest : ¬OnChain cx h y x := fun hrest => hx ((onChain_of_passesOn hr).2 (.inr hrest))
    exact (id?_initId_of_ne hxr).trans (hs.2 x hrest)

/-- The identifier found is put into the slot, which may have been filled on the way. -/
theorem assignIdWithin_fills {n : Nat} {k : Resource} {i : Option Resource}
    (hrec : w.heap.record? r = some rec) (hid : rec.id = none) (hslot : cx.schema.carriesId rec.type)
    (hrun : freshId cx (assignIdWithin cx n) rec w = .ok k w₁)
    (hrec₁ : w₁.heap.record? r = some { rec with id := i }) (hi : i = none ∨ i = some k) :
    assignIdWithin cx (n + 1) r w = .ok k { w₁ with heap := w₁.heap.initId r k } ∧
      (w₁.heap.initId r k).id? r = some k := by
  have hfilled : (w₁.heap.initId r k).id? r = some k := by
    rw [id?_initId_self hrec₁]
    rcases hi with rfl | rfl <;> rfl
  refine ⟨?_, hfilled⟩
  rw [assignIdWithin_succ hrec hid hslot, Run.bind_apply_ok hrun]
  show EStateM.Result.ok (((w₁.heap.initId r k).id? r).getD k) _ = _
  rw [hfilled]
  rfl

/-- **One step after another**, the chain gets one identifier or none: the record that is asked
first comes last, so until it has its answer the heap is that of the rest of the chain. -/
theorem assignIdWithin_spreads : ∀ (n : Nat) {w : World} {r : RecordRef}, w.Sound cx →
    Spreads cx w.heap r (assignIdWithin cx n r w) := by
  intro n
  induction n with
  | zero => exact fun _ => rfl
  | succ n ih =>
    intro w r hs
    cases hrec : w.heap.record? r with
    | none =>
      rw [assignIdWithin, Run.bind_apply, Run.recordAt, Run.bind_apply_ok (Run.get_apply w), hrec]
      rfl
    | some rec =>
      cases hid : rec.id with
      | some k =>
        have hk : w.heap.id? r = some k := Heap.id?_eq_some.2 ⟨rec, hrec, hid⟩
        rw [assignIdWithin, Run.bind_apply_ok (Run.recordAt_apply hrec), hid]
        exact spreads_of_last (fun y hy => Option.some_ne_none k (hk.symm.trans hy.1)) hk fun _ _ => rfl
      | none =>
        have hnone : w.heap.id? r = none := by rw [Heap.id?, hrec]; exact hid
        cases hslot : cx.schema.carriesId rec.type with
        | false =>
          rw [assignIdWithin, Run.bind_apply_ok (Run.recordAt_apply hrec), hid]
          simp only [hslot, Bool.not_false, ↓reduceIte]
          rfl
        | true =>
          rcases freshId_cases (assignIdWithin cx n) hs hrec with
            ⟨a, w₁, ha, hheap, hs₁, hrun⟩ | ⟨k, w₁, hlast, hheap, hrun⟩ | ⟨e, w₁, hheap, hrun⟩
          · have hrest := ih (r := a) hs₁
            rw [hheap] at hrest
            cases hrun₁ : assignIdWithin cx n a w₁ with
            | error e w₂ =>
              rw [hrun₁] at hrest
              rw [assignIdWithin_succ hrec hid hslot, Run.bind_apply, hrun, hrun₁]
              exact hrest
            | ok k w₂ =>
              rw [hrun₁] at hrest
              have hids : w₁.Identifies False w₂ :=
                ((assignIdWithin_identifies n (S := fun _ => False) False.elim False.elim).ok hrun₁).1
              obtain ⟨i, hi, -⟩ := hids.record (hheap ▸ hrec)
              have hslot₂ : i = none ∨ i = some k := by
                rcases hrest.id? r with hr | hr <;> rw [Heap.id?, hi] at hr
                · exact .inr hr
                · exact .inl (hr.trans hnone)
              obtain ⟨hdone, hk⟩ := assignIdWithin_fills hrec hid hslot (hrun.trans hrun₁) hi hslot₂
              rw [hdone]
              exact hrest.step ⟨hnone, ha⟩ hk
          · obtain ⟨hdone, hk⟩ := assignIdWithin_fills hrec hid hslot hrun
              (i := none) (by rw [hheap, hrec, ← hid]) (.inl rfl)
            rw [hdone]
            refine spreads_of_last (fun y hy => Option.some_ne_none y (hy.2.symm.trans hlast)) hk
              fun x hx => ?_
            exact (id?_initId_of_ne hx).trans (by rw [hheap])
          · rw [assignIdWithin_succ hrec hid hslot, Run.bind_apply, hrun]
            exact hheap

/-! ## Chains that end -/

theorem passesOn_of_awaited (hs : w.Sound cx) (ha : awaited cx w r = some x) :
    PassesOn cx w.heap r x := by
  obtain ⟨rec, member, hrec, hid, -, hmember, hget⟩ := awaited_eq_some.1 ha
  have hdeclared : (cx.schema.descriptor rec.type).idMember.map (·.member) = some member := by
    unfold identifyingMember at hmember
    split at hmember
    · next b hb => rw [← hs.idMember hb, hmember]
    · split at hmember
      · exact hmember
      · cases hmember
  obtain ⟨m, hm, rfl⟩ := Option.map_eq_some_iff.1 hdeclared
  refine ⟨by rw [Heap.id?, hrec]; exact hid, ?_⟩
  unfold identifyingReference?
  rw [hrec, Option.bind_some, hm, Option.bind_some, hget]
  rfl

theorem onChain_of_awaitedAt (hs : w.Sound cx) : ∀ (n : Nat) {r : RecordRef},
    awaitedAt cx w n r = some x → OnChain cx w.heap r x := by
  intro n
  induction n with
  | zero =>
    intro r h
    cases h
    exact .refl
  | succ n ih =>
    intro r h
    obtain ⟨y, hy, h⟩ := Option.bind_eq_some_iff.1 h
    exact .head (passesOn_of_awaited hs hy) (ih h)

theorem not_loops_of_acyclic (hs : w.Sound cx) (h : Acyclic cx w.heap r) : ¬Loops cx w r := by
  rintro ⟨i, j, x, hij, hi, hj⟩
  obtain ⟨p, rfl⟩ := Nat.exists_eq_add_of_lt hij
  rw [Nat.add_assoc, awaitedAt_add, hi, Option.bind_some] at hj
  obtain ⟨y, hy, hback⟩ := Option.bind_eq_some_iff.1 hj
  refine h x (onChain_of_awaitedAt hs i hi) ?_
  exact .head' (passesOn_of_awaited hs hy) (onChain_of_awaitedAt hs p hback)

/-- **Identifiers are given to a whole chain or not at all.** If no record on the chain from a
record is met again, giving an identifier ends. Either every record on the chain has the identifier
given, with those that had one before keeping it, and all other records are as they were, or there
is an error and no identifier has changed. -/
theorem assignId_atomic (cx : Setting) (w : World) (r : RecordRef) (hs : w.Sound cx)
    (hw : w.heap.Intact) (hr : w.heap.Has (.eager r)) (hchain : Acyclic cx w.heap r) :
    (∃ k w', assignId cx r w = .ok k w' ∧
      (∀ x, OnChain cx w.heap r x → w'.heap.id? x = some k) ∧
      (∀ x, ¬OnChain cx w.heap r x → w'.heap.id? x = w.heap.id? x) ∧
      ∀ x j, w.heap.id? x = some j → w'.heap.id? x = some j) ∨
    ∃ e w', assignId cx r w = .error (.failed e) w' ∧ ∀ x, w'.heap.id? x = w.heap.id? x := by
  have hspreads : Spreads cx w.heap r (assignId cx r w) :=
    assignId_apply cx w r ▸ assignIdWithin_spreads _ hs
  have hend := awaitedAt_size_of_not_loops hw hr (not_loops_of_acyclic hs hchain)
  rcases returns_of_answering (assignId_answers hw hr hend) with ⟨k, w', hrun⟩ | ⟨e, w', hrun⟩
  · rw [hrun] at hspreads
    have hids : w.Identifies False w' :=
      ((assignId_identifies (S := fun _ => False) nofun nofun).ok hrun).1
    exact .inl ⟨k, w', hrun, hspreads.1, hspreads.2, fun x j hj => hids.id? hj⟩
  · rw [hrun] at hspreads
    exact .inr ⟨e, w', hrun, fun x => by rw [show w'.heap = w.heap from hspreads]⟩

theorem passesOn_peerWorld (h : PassesOn peerSetting peerWorld.heap x y) : x = ⟨0⟩ ∧ y = ⟨1⟩ := by
  obtain ⟨hid, hy⟩ := h
  obtain ⟨rec, hrec, -⟩ := Option.bind_eq_some_iff.1 hy
  have hlt : x.index < 2 := Heap.record?_eq_some_lt hrec
  obtain ⟨n⟩ := x
  match n with
  | 0 => exact ⟨rfl, (Option.some.inj hy).symm⟩
  | 1 => exact absurd hid nofun
  | n + 2 => exact absurd hlt (by show ¬n + 2 < 2; omega)

theorem acyclic_peerWorld : Acyclic peerSetting peerWorld.heap ⟨0⟩ := by
  intro x _ hx
  obtain ⟨y, hfirst, -⟩ := Relation.TransGen.head'_iff.1 hx
  obtain ⟨z, -, hlast⟩ := Relation.TransGen.tail'_iff.1 hx
  obtain rfl := (passesOn_peerWorld hfirst).1
  exact absurd (passesOn_peerWorld hlast).2 (by decide)

/-- The peer who refers to another one gets the identifier of the other, who keeps it. -/
theorem assignId_atomic_peer :
    peerWorld.Sound peerSetting ∧ peerWorld.heap.Intact ∧ peerWorld.heap.Has (.eager ⟨0⟩) ∧
      Acyclic peerSetting peerWorld.heap ⟨0⟩ ∧ peerWorld.heap.id? ⟨0⟩ = none ∧
      OnChain peerSetting peerWorld.heap ⟨0⟩ ⟨1⟩ ∧
      ∃ w', assignId peerSetting ⟨0⟩ peerWorld = .ok (.iri "urn:b") w' ∧
        w'.heap.id? ⟨0⟩ = some (.iri "urn:b") ∧ w'.heap.id? ⟨1⟩ = some (.iri "urn:b") := by
  have hs : peerWorld.Sound peerSetting := (World.Reachable.initial.run _).stable.sound
  have hhas : peerWorld.heap.Has (.eager ⟨0⟩) := by decide +kernel
  have hnext : OnChain peerSetting peerWorld.heap ⟨0⟩ ⟨1⟩ := .single ⟨rfl, by decide +kernel⟩
  have hgives : Run.passes (fun k _ => k = .iri "urn:b") (assignId peerSetting ⟨0⟩ peerWorld) := by
    decide +kernel
  obtain ⟨k, w', hrun, hk⟩ := Run.exists_ok hgives
  obtain rfl : k = .iri "urn:b" := of_decide_eq_true hk
  refine ⟨hs, intact_peerWorld, hhas, acyclic_peerWorld, rfl, hnext, w', hrun, ?_⟩
  rcases assignId_atomic peerSetting peerWorld ⟨0⟩ hs intact_peerWorld hhas acyclic_peerWorld with
    ⟨k', w'', hrun', hall, -⟩ | ⟨e, w'', hrun', -⟩
  · rw [hrun] at hrun'
    cases hrun'
    exact ⟨hall _ .refl, hall _ hnext⟩
  · rw [hrun] at hrun'
    cases hrun'

end Engine

end GraphMarshal
