import GraphMarshal.Proofs.Following
import GraphMarshal.Proofs.Termination

/-!
# Strictness only adds failures

A strict reading that succeeds, or that waits for ever, has tolerated nothing: every related record
has been read and no node was left out. So each step of it is followed by the same step with any
other strictness, down to the steps of the related readings, and the records that the two make are
the same up to a pairing of their places.
-/

namespace GraphMarshal

/-- The setting with another strictness. -/
def Setting.withStrict (cx : Setting) (strict : Bool) : Setting :=
  { cx with config := { cx.config with strict } }

@[simp] theorem Setting.schema_withStrict (cx : Setting) (strict : Bool) :
    (cx.withStrict strict).schema = cx.schema := rfl

namespace Engine

variable {cx : Setting} {strict : Bool} {P : Pairing} {rd : Reading} {m : MemberBinding}
  {source : SourceRef} {read read' : Reader}

/-- Readings of related resources follow one another, from all matched worlds. -/
def ReadsAlike (read read' : Reader) : Prop :=
  ∀ (P : Pairing) ty node, P.Follows (read ty node) (read' ty node) fun Q => Q.record

/-- Both or neither of two optional values, the same up to a pairing. -/
abbrev LikeValue (P : Pairing) : Option Value → Option Value → Prop := Option.Rel (Value.Like P)

/-! ## Nodes -/

theorem unresolvable_follows (flaw : Flaw) :
    P.Follows (unresolvable (cx.withStrict true) flaw) (unresolvable (cx.withStrict strict) flaw)
      LikeValue :=
  .invalid flaw

theorem typeOfNode_follows (node : Resource) :
    P.Follows (typeOfNode rd node) (typeOfNode rd node) fun _ => Eq := by
  have asserted : ∀ {Q : Pairing} {w w' : World} (g : Graph), Q.Matches w w' →
      assertedType w' g node.toTerm = assertedType w g node.toTerm := fun g hw => by
    unfold assertedType
    rw [hw.typeForClass]
  unfold typeOfNode
  refine .bind .get fun Q w w' _ hw => ?_
  rw [asserted rd.graph hw]
  split
  · exact .pure rfl
  · refine .bindSame (.describe rd.source node) fun R o _ => ?_
    split
    · next g => exact .bind .get fun _ w₁ w₁' _ hw₁ => .pure (asserted g hw₁).symm
    · exact .pure rfl

/-- A strict reading goes on only with a record. -/
theorem related_follows (hread : ReadsAlike read read') (target : TypeName) (node : Resource) :
    P.Follows (related (cx.withStrict true) read rd m target node)
      (related (cx.withStrict strict) read' rd m target node) LikeValue := by
  unfold related
  split
  · refine .bind (.allocCell ⟨rfl, rfl, rfl, .none⟩) fun Q c c' _ hc => ?_
    exact .pure (.some (.ref (.lazy hc)))
  -- An error of the related reading is an error here, and there is nothing to follow.
  · exact .attempt (hread P target node) (fun _ _ => ⟨_, rfl⟩) fun _ _ _ _ hr =>
      .pure (.some (.ref (.eager hr)))

theorem nodeValue_follows (hread : ReadsAlike read read') (node : Resource) :
    P.Follows (nodeValue (cx.withStrict true) read rd m node)
      (nodeValue (cx.withStrict strict) read' rd m node) LikeValue := by
  unfold nodeValue
  split
  · exact .pure (.some (.atom trivial))
  · cases node with
    | iri i => exact .pure (.some (.atom trivial))
    | blank b => exact unresolvable_follows _
  · exact related_follows hread _ node
  · refine .bindSame (typeOfNode_follows node) fun Q o _ => ?_
    split
    · exact related_follows hread _ node
    · exact unresolvable_follows _
  · refine .bindSame (typeOfNode_follows node) fun Q o _ => ?_
    split
    · exact related_follows hread _ node
    · exact .pure (.some (.atom trivial))
  · exact unresolvable_follows _

theorem termValue_follows (hread : ReadsAlike read read') (t : Term) :
    P.Follows (termValue (cx.withStrict true) read rd m t)
      (termValue (cx.withStrict strict) read' rd m t) LikeValue := by
  unfold termValue
  split
  · refine .ofExcept fun o ho => ⟨o, ho, ?_⟩
    cases o with
    | none => exact .none
    | some v => exact .some (.atom (Literal.decode_isAtom ho))
  · exact nodeValue_follows hread _

/-! ## Lists -/

theorem walkFrom_follows : ∀ (n : Nat) (P : Pairing) (seen : List Term) (cell : Term),
    P.Follows (walkFrom source n seen cell) (walkFrom source n seen cell) fun _ => Eq
  | 0, _, _, _ => .throw nofun
  | n + 1, P, seen, cell => by
    unfold walkFrom
    split
    · exact .pure rfl
    · split
      · exact .pure rfl
      · next id _ =>
        refine .bindSame (.describe source id) fun Q o _ => ?_
        split
        · exact .fail _
        · next g =>
          dsimp only
          split
          · exact .pure rfl
          · next rest _ =>
            exact .bindSame (walkFrom_follows n Q (cell :: seen) rest) fun _ _ _ => .pure rfl

theorem walkList_follows (head : Term) :
    P.Follows (walkList source head) (walkList source head) fun _ => Eq := by
  unfold walkList
  refine .bind .get fun Q w w' _ hw => ?_
  rw [hw.source source]
  exact walkFrom_follows _ Q [] head

theorem listElements_follows (t : Term) :
    P.Follows (listElements rd m t) (listElements rd m t) fun _ => Eq := by
  unfold listElements
  split
  · exact .pure rfl
  · split
    · exact .pure rfl
    · refine .bindSame (.dialect rd.source) fun Q d _ => ?_
      refine .bindSame (.query rd.source _) fun R o _ => ?_
      split
      · exact .pure rfl
      · exact .fail _
      · next fetched =>
        split
        · exact .pure rfl
        · next head _ =>
          split
          · exact .bindSame (walkList_follows head) fun _ _ _ => .pure rfl
          · exact .pure rfl

/-! ## Members -/

theorem element_follows (hread : ReadsAlike read read') (t : Term) :
    P.Follows (element (cx.withStrict true) read rd m t)
      (element (cx.withStrict strict) read' rd m t) Value.Like := by
  unfold element
  refine .bind (termValue_follows hread t) fun Q o o' _ ho => ?_
  cases ho with
  | some hv => exact .pure hv
  | none => exact .invalid _

theorem elementsOf_follows (hread : ReadsAlike read read') (t : Term) :
    P.Follows (elementsOf (cx.withStrict true) read rd m t)
      (elementsOf (cx.withStrict strict) read' rd m t)
      fun Q => List.Forall₂ (Value.Like Q) := by
  have elements : ∀ (Q : Pairing) (ts : List Term),
      Q.Follows (ts.mapM (element (cx.withStrict true) read rd m))
        (ts.mapM (element (cx.withStrict strict) read' rd m))
        fun R => List.Forall₂ (Value.Like R) := fun Q ts =>
    .mapM (fun h hv => hv.mono h) fun t _ _ _ => element_follows hread t
  unfold elementsOf
  split
  · exact .pure .nil
  · split
    · exact .bindSame (listElements_follows t) fun Q _ _ => elements Q _
    · exact .bindSame (.pure rfl) fun Q _ _ => elements Q _

theorem collectionValue_follows (hread : ReadsAlike read read') (objects : List Term) :
    P.Follows (collectionValue (cx.withStrict true) read rd m objects)
      (collectionValue (cx.withStrict strict) read' rd m objects) Value.Like := by
  unfold collectionValue
  refine .bind (V := fun Q => List.Forall₂ (List.Forall₂ (Value.Like Q)))
    (.mapM (fun h hvs => hvs.imp fun _ _ hv => hv.mono h) fun t _ Q _ => elementsOf_follows hread t)
    fun Q parts parts' _ hparts => ?_
  exact .pure (.list (Value.allLike_iff.2 (List.rel_flatten hparts)))

theorem singleValue_follows (hread : ReadsAlike read read') (objects : List Term) :
    P.Follows (singleValue (cx.withStrict true) read rd m objects)
      (singleValue (cx.withStrict strict) read' rd m objects) LikeValue := by
  have hsame : m.candidates (cx.withStrict strict).config objects =
      m.candidates (cx.withStrict true).config objects := rfl
  unfold singleValue
  rw [hsame]
  split
  · exact .pure .none
  · exact termValue_follows hread _
  · exact .fail _

theorem memberValue_follows (hread : ReadsAlike read read') (objects : List Term) :
    P.Follows (memberValue (cx.withStrict true) read rd m objects)
      (memberValue (cx.withStrict strict) read' rd m objects) LikeValue := by
  unfold memberValue
  split
  · exact .bind (collectionValue_follows hread objects) fun _ _ _ _ hv => .pure (.some hv)
  · exact singleValue_follows hread objects

theorem assign_follows {r r' : RecordRef} {id : Resource} {v v' : Value} (hr : P.record r r')
    (hv : v.Like P v') :
    P.Follows (assign (cx.withStrict true) r m id v) (assign (cx.withStrict strict) r' m id v')
      fun _ _ _ => True := by
  unfold assign
  refine .bind (.recordAt hr) fun Q cur cur' hPQ hcur => ?_
  refine .bind .get fun R w w' hQR hw => ?_
  have hplace := hQR.record (hPQ.record hr)
  have hset := (hcur.mono hQR).set hw.heap hplace cx.schema m.name ((hv.mono hPQ).mono hQR)
  simp only [Setting.schema_withStrict]
  generalize cur.set cx.schema w.heap r m.name v = o at hset ⊢
  generalize cur'.set cx.schema w'.heap r' m.name v' = o' at hset ⊢
  cases hset with
  | ok hnext => exact .modifyRecord hplace hnext
  | error stop =>
    cases stop with
    | failed e =>
      dsimp only
      split
      · exact .pure trivial
      · exact .invalid _
    | blocked => exact .blocked

theorem readPredicate_follows (hread : ReadsAlike read read') {b : TypeBinding}
    {r r' : RecordRef} (hr : P.record r r') (predicate : String) :
    P.Follows (readPredicate (cx.withStrict true) read rd b r predicate)
      (readPredicate (cx.withStrict strict) read' rd b r' predicate) fun _ _ _ => True := by
  unfold readPredicate
  split
  · exact .pure trivial
  · next m _ =>
    refine .bind (.onError (memberValue_follows hread _)) fun Q o o' hPQ ho => ?_
    cases ho with
    | none => exact .pure trivial
    | some hv => exact assign_follows (hPQ.record hr) hv

theorem readMembers_follows (hread : ReadsAlike read read') {b : TypeBinding} {r r' : RecordRef}
    (hr : P.record r r') :
    P.Follows (readMembers (cx.withStrict true) read rd b r)
      (readMembers (cx.withStrict strict) read' rd b r') fun _ _ _ => True :=
  .forM fun predicate _ hPQ => readPredicate_follows hread (hPQ.record hr) predicate

/-! ## Resources -/

theorem bindingOf_follows (ty : TypeName) :
    P.Follows (bindingOf (cx.withStrict true) ty) (bindingOf (cx.withStrict strict) ty)
      fun _ => Eq := by
  intro w w' hw
  refine ⟨fun b w₁ hrun => ?_, fun w₁ hrun => ?_⟩
  case refine_2 =>
    obtain ⟨-, -, flaw, heq, -⟩ := bindingOf_error hrun
    cases heq
  obtain ⟨hb, rfl⟩ | ⟨iri, hnew, hc, rfl, rfl⟩ := bindingOf_eq_ok hrun
  · exact ⟨P, b, w', bindingOf_of_cached (hw.bindings ▸ hb), .refl P, hw, rfl⟩
  · have hnew' : w'.bindings.get? ty = none := hw.bindings ▸ hnew
    have hc' : (cx.withStrict strict).checkedClass ty = .ok iri := hc
    have hresolved : w'.resolved (cx.withStrict strict) ty iri =
        { w' with
          namespaces := (w.resolved (cx.withStrict true) ty iri).namespaces
          bindings := (w.resolved (cx.withStrict true) ty iri).bindings } := by
      unfold World.resolved
      rw [hw.namespaces, hw.bindings]
      rfl
    refine ⟨P, _, _, bindingOf_of_checked hnew' hc', .refl P, ?_, ?_⟩
    · rw [hresolved]
      exact { hw with namespaces := rfl, bindings := rfl }
    · rw [hw.namespaces]
      rfl

theorem refine_follows {r r' : RecordRef} (hr : P.record r r') (ty : TypeName) :
    P.Follows (refine (cx.withStrict true) rd r ty) (refine (cx.withStrict strict) rd r' ty)
      fun _ _ _ => True := by
  unfold refine
  refine .bind .get fun Q w w' hPQ hw => ?_
  simp only [hw.typeForClass, Setting.schema_withStrict]
  split
  · exact .pure trivial
  · exact .ite (fun _ => .modifyRecord (hPQ.record hr) ⟨rfl, rfl, fun _ => .none⟩) fun _ =>
      .pure trivial

theorem prepare_follows {r r' : RecordRef} (hr : P.record r r') (ty : TypeName) (id : Resource) :
    P.Follows (prepare (cx.withStrict true) source r ty id)
      (prepare (cx.withStrict strict) source r' ty id) fun _ => Eq := by
  unfold prepare
  refine .bindSame (.describe source id) fun Q o hPQ => ?_
  split
  · exact .fail _
  · next g =>
    dsimp only
    split
    · exact .pure rfl
    · refine .bind (refine_follows (hPQ.record hr) ty) fun R _ _ hQR _ => ?_
      refine .bind (.recordAt (hQR.record (hPQ.record hr))) fun S cur cur' _ hcur => ?_
      rw [hcur.type]
      exact .bindSame (bindingOf_follows cur.type) fun _ _ _ => .pure rfl

theorem fill_follows (hread : ReadsAlike read read') {r r' : RecordRef} (hr : P.record r r')
    (ty : TypeName) (id : Resource) :
    P.Follows (fill (cx.withStrict true) read source r ty id)
      (fill (cx.withStrict strict) read' source r' ty id) fun _ _ _ => True := by
  unfold fill
  refine .bindSame (prepare_follows hr ty id) fun Q o hPQ => ?_
  split
  · exact .pure trivial
  · exact readMembers_follows hread (hPQ.record hr)

theorem construct_follows (hread : ReadsAlike read read') :
    ReadsAlike (construct (cx.withStrict true) read source)
      (construct (cx.withStrict strict) read' source) := by
  intro P ty id
  unfold construct
  refine .ite (fun _ => .invalid _) fun _ => ?_
  refine .bind (.alloc ⟨rfl, rfl, fun _ => .none⟩) fun Q r r' _ hr => ?_
  refine .bind (.underConstruction hr (fill_follows hread hr ty id)) fun R _ _ hQR _ => ?_
  exact .pure (hQR.record hr)

theorem reuseOr_follows {make make' : Reader} (hmake : ReadsAlike make make') :
    ReadsAlike (reuseOr make) (reuseOr make') := by
  intro P ty id
  unfold reuseOr
  refine .bind .get fun Q w w' _ hw => ?_
  have hid := hw.construction id
  generalize w.construction.get? id = o at hid ⊢
  generalize w'.construction.get? id = o' at hid ⊢
  cases hid with
  | some hr => exact .pure hr
  | none => exact hmake Q ty id

/-- Readings follow one another, by induction on how deep they are nested. -/
theorem readWithin_follows : ∀ n, ReadsAlike (readWithin (cx.withStrict true) source n)
    (readWithin (cx.withStrict strict) source n)
  | 0 => reuseOr_follows fun _ _ _ => .throw nofun
  | n + 1 => reuseOr_follows (construct_follows (readWithin_follows n))

/-- A successful strict reading is followed by the reading with any strictness. -/
theorem fromGraph_follows (cx : Setting) (strict : Bool) (source : SourceRef) :
    ReadsAlike (fromGraph (cx.withStrict true) source)
      (fromGraph (cx.withStrict strict) source) := by
  intro P ty id
  unfold fromGraph
  refine .bind .get fun Q w w' _ hw => ?_
  rw [hw.source source]
  exact readWithin_follows _ Q ty id

/-- **Strictness only adds failures**: where a strict engine gives a record, a lenient one that is
equal to it in everything else gives a record too, and the pairing of their records grows to an
isomorphism that pairs the two. What fails leniently fails strictly. -/
theorem fromGraph_strictness (cx : Setting) (P : Pairing) (w w' : World) (source : SourceRef)
    (ty : TypeName) (id : Resource) (hw : P.Matches w w') :
    (∀ r w₁, fromGraph (cx.withStrict true) source ty id w = .ok r w₁ →
      ∃ Q r' w₁', fromGraph (cx.withStrict false) source ty id w' = .ok r' w₁' ∧
        P.Within Q ∧ Q.Matches w₁ w₁' ∧ Q.record r r') ∧
    ∀ e w₁', fromGraph (cx.withStrict false) source ty id w' = .error (.failed e) w₁' →
      ∃ e' w₁, fromGraph (cx.withStrict true) source ty id w = .error (.failed e') w₁ := by
  have hfollows : ∀ r w₁, fromGraph (cx.withStrict true) source ty id w = .ok r w₁ →
      ∃ Q r' w₁', fromGraph (cx.withStrict false) source ty id w' = .ok r' w₁' ∧
        P.Within Q ∧ Q.Matches w₁ w₁' ∧ Q.record r r' := fun r w₁ hrun =>
    (fromGraph_follows cx false source P ty id hw).1 hrun
  -- The strict reading does not give a record or wait for ever: that would be followed.
  refine ⟨hfollows, fun e w₁' hfails => ?_⟩
  have hends : ending.extending.Keeps (fromGraph (cx.withStrict true) source ty id) _
      (fun _ _ => True) w := fromGraph_ends (cx.withStrict true) ty id rfl (Nat.le_refl _)
  cases hrun : fromGraph (cx.withStrict true) source ty id w with
  | ok r w₁ =>
    obtain ⟨Q, r', w₂, hgives, -⟩ := hfollows r w₁ hrun
    rw [hgives] at hfails
    cases hfails
  | error e' w₁ =>
    obtain ⟨-, rfl | ⟨e', rfl⟩, -⟩ := hends.error hrun
    · obtain ⟨w₂, hwaits⟩ := (fromGraph_follows cx false source P ty id hw).2 hrun
      rw [hwaits] at hfails
      cases hfails
    · exact ⟨e', w₁, rfl⟩

/-- A world that reads about the same persons and has another record already. -/
def laterRingWorld : World := ringWorld.alloc (outlineRecord "Person" (.iri "urn:z"))

/-- A ring of persons is read strictly, and leniently into other places of another heap. -/
theorem fromGraph_strictness_ring :
    Pairing.empty.Matches ringWorld laterRingWorld ∧ ∃ (Q : Pairing) (r r' : RecordRef)
      (w₁ w₁' : World),
      fromGraph (ringSetting.withStrict true) ⟨0⟩ "Person" (.iri "urn:a") ringWorld = .ok r w₁ ∧
      fromGraph (ringSetting.withStrict false) ⟨0⟩ "Person" (.iri "urn:a") laterRingWorld =
        .ok r' w₁' ∧ Q.Matches w₁ w₁' ∧ Q.record r r' ∧ r' ≠ r := by
  have hmatches : Pairing.empty.Matches ringWorld laterRingWorld :=
    Pairing.matches_idle rfl rfl rfl (fun _ => rfl) (fun _ => rfl) fun _ => rfl
  obtain ⟨r, w₁, hrun, hr⟩ := Run.exists_ok (p := fun r _ => r = ⟨0⟩)
    (x := fromGraph (ringSetting.withStrict true) ⟨0⟩ "Person" (.iri "urn:a") ringWorld)
    (by decide +kernel)
  obtain ⟨r₂, w₂, hrun₂, hr₂⟩ := Run.exists_ok (p := fun r _ => r = ⟨1⟩)
    (x := fromGraph (ringSetting.withStrict false) ⟨0⟩ "Person" (.iri "urn:a") laterRingWorld)
    (by decide +kernel)
  obtain ⟨Q, r', w₁', hrun', -, hQ, hpaired⟩ := (fromGraph_strictness ringSetting .empty ringWorld
    laterRingWorld ⟨0⟩ "Person" (.iri "urn:a") hmatches).1 r w₁ hrun
  refine ⟨hmatches, Q, r, r', w₁, w₁', hrun, hrun', hQ, hpaired, ?_⟩
  rw [hrun₂] at hrun'
  cases hrun'
  rw [of_decide_eq_true hr, of_decide_eq_true hr₂]
  decide

end Engine

end GraphMarshal
