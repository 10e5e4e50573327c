import GraphMarshal.Proofs.Aftermath

/-!
# Leniency

Without strictness a related resource that cannot be read is tolerated where a member holds one
value: the member is left unset. It is not tolerated in a collection, whose elements have to have
values: there the whole reading fails. `OwnFault` lists what else a lenient reading fails for, none
of which is about a related resource.
-/

namespace GraphMarshal

theorem Term.isResource_eq_false_of_ofTerm? {t : Term} (h : Resource.ofTerm? t = none) :
    t.isResource = false := by
  cases t <;> first | rfl | cases h

namespace Engine

variable {cx : Setting} {source : SourceRef} {ty : TypeName} {id : Resource} {w w' : World}
  {rd : Reading} {m : MemberBinding} {read : Reader} {t : Term}

/-- Why a lenient reading fails by itself: its type, its description, the literals and the number of
its values, a list that the source does not give, or a value that its record refuses. -/
inductive OwnFault (cx : Setting) (source : SourceRef) (w : World) (ty : TypeName) (id : Resource) :
    MappingError → Prop
  | slot : cx.schema.carriesId ty = false →
    OwnFault cx source w ty id (.invalid (.noIdentifierSlot ty))
  | undescribed {f : SourceError} : (w.source source).describe id = .error f →
    OwnFault cx source w ty id (.source f)
  | unbound {rd : Reading} {flaw : Flaw} : rd.id = id →
    (w.source source).describe id = .ok rd.graph →
    cx.checkedClass (settledType cx w rd ty) = .error flaw →
    OwnFault cx source w ty id (.invalid flaw)
  | ambiguous {rd : Reading} {b : TypeBinding} {predicate : String} {m : MemberBinding} {n : Nat} :
    Reaches cx source w ty id rd b → b.memberFor? predicate = some m → m.collection = false →
    (m.candidates cx.config (rd.graph.objects rd.subject predicate)).length = n → 2 ≤ n →
    OwnFault cx source w ty id (.ambiguousValue m.name n)
  | undecoded {rd : Reading} {b : TypeBinding} {predicate : String} {m : MemberBinding} {t : Term}
    {e : MappingError} : Reaches cx source w ty id rd b → b.memberFor? predicate = some m →
    Offered (w.source source) rd m (rd.graph.objects rd.subject predicate) t →
    t.isResource = false → Literal.decode t m.kind = .error e →
    OwnFault cx source w ty id (memberError m id e)
  | unserved {rd : Reading} {b : TypeBinding} {predicate : String} {m : MemberBinding}
    {e : MappingError} : Reaches cx source w ty id rd b → b.memberFor? predicate = some m →
    m.collection → (w.source source).Refuses e → OwnFault cx source w ty id (memberError m id e)
  | refused {rd : Reading} {b : TypeBinding} {m : MemberBinding} {e : AssignError} :
    Reaches cx source w ty id rd b → m ∈ b.members → Refuses cx (settledType cx w rd ty) m e →
    OwnFault cx source w ty id (.invalid (.unassignedMember m.name id e))

/-- A term that a collection of the resource takes as an element has no value, and is named by the
error. -/
def LacksElement (cx : Setting) (source : SourceRef) (w : World) (ty : TypeName) (id : Resource)
    (e : MappingError) : Prop :=
  ∃ rd b predicate m t w₁ w₂, Reaches cx source w ty id rd b ∧ b.memberFor? predicate = some m ∧
    m.collection ∧ Offered (w.source source) rd m (rd.graph.objects rd.subject predicate) t ∧
    termValue cx (readWithin cx source (w.source source).nodes.length) rd m t w₁ = .ok none w₂ ∧
    e = .invalid (.badElement t m.name)

theorem TermFault.undecoded_of_lenient {N : MappingError → Prop} {e : MappingError}
    (hlenient : cx.config.strict = false) (h : TermFault cx m N t e) :
    t.isResource = false ∧ Literal.decode t m.kind = .error e := by
  cases h with
  | undecoded ht he => exact ⟨Term.isResource_eq_false_of_ofTerm? ht, he⟩
  | flawed hstrict _ _ => rw [hlenient] at hstrict; cases hstrict
  | unmaterialized hstrict _ _ => rw [hlenient] at hstrict; cases hstrict

theorem ReadingFault.own_or_lacksElement {e : MappingError} (hlenient : cx.config.strict = false)
    (h : ReadingFault cx source (readWithin cx source (w.source source).nodes.length)
      (fun _ => True) w ty id e) :
    OwnFault cx source w ty id e ∨ LacksElement cx source w ty id e := by
  cases h with
  | slot hc => exact .inl (.slot hc)
  | undescribed hf => exact .inl (.undescribed hf)
  | unbound hid hdesc hflaw => exact .inl (.unbound hid hdesc hflaw)
  | refused hreach hm hr => exact .inl (.refused hreach hm hr)
  | member hreach hm he =>
    cases he with
    | ambiguous hsingle hn => exact .inl (.ambiguous hreach hm hsingle rfl hn)
    | single hsingle hts ht =>
      obtain ⟨hlit, hdecode⟩ := ht.undecoded_of_lenient hlenient
      refine .inl (.undecoded hreach hm (.object ?_) hlit hdecode)
      exact MemberBinding.mem_of_mem_candidates (hts ▸ List.mem_singleton_self _)
    | collection hcoll hc =>
      cases hc with
      | unserved hr => exact .inl (.unserved hreach hm hcoll hr)
      | element hoffered hel =>
        have hoffered := hoffered.mono fun _ => MemberBinding.mem_of_mem_collected
        cases hel with
        | term ht =>
          obtain ⟨hlit, hdecode⟩ := ht.undecoded_of_lenient hlenient
          exact .inl (.undecoded hreach hm hoffered hlit hdecode)
        | empty hrun => exact .inr ⟨_, _, _, _, _, _, _, hreach, hm, hcoll, hoffered, hrun, rfl⟩

/-! ## Related resources -/

/-- The contract of runs that do not fail, whatever else they do. -/
def unfailing : Contract where
  step _ _ := True
  halt h := ∀ e, h ≠ .failed e
  compared _ := True
  refl _ := trivial
  trans _ _ := trivial
  log _ _ := trivial
  back _ _ := trivial

theorem keeps_any {α : Type} (x : Run α) (w : World) :
    (unfailing.failing fun _ => True).Keeps x x (fun _ _ => True) w := by
  unfold Contract.Keeps
  cases x w with
  | ok a w' => exact ⟨trivial, trivial, fun _ => rfl⟩
  | error e w' =>
    refine ⟨trivial, ?_, fun _ => rfl⟩
    cases e with
    | failed e => trivial
    | blocked => exact fun e he => by cases he
    | exhausted => exact fun e he => by cases he
    | dangling => exact fun e he => by cases he

/-- Whatever reading a related resource does, a lenient reading does not fail for it. -/
theorem related_unfailing (hlenient : cx.config.strict = false) (target : TypeName)
    (node : Resource) :
    unfailing.Keeps (related cx read rd m target node) (related cx read rd m target node)
      (fun _ _ => True) w := by
  unfold related
  split
  · exact .bind (V := fun _ _ => True) (.allocCell trivial trivial) fun _ _ _ _ => .pure trivial
  · refine .bind (.attempt (keeps_any (read target node) w)) fun r _ _ _ => ?_
    cases r with
    | ok r => exact .pure trivial
    | error e =>
      dsimp only
      rw [hlenient]
      exact .pure trivial

theorem nodeValue_unfailing (hlenient : cx.config.strict = false) (node : Resource) :
    unfailing.Keeps (nodeValue cx read rd m node) (nodeValue cx read rd m node)
      (fun _ _ => True) w := by
  have hnone : ∀ {w₁} flaw, unfailing.Keeps (unresolvable cx flaw) (unresolvable cx flaw)
      (fun _ _ => True) w₁ := fun flaw => by
    unfold unresolvable
    rw [hlenient]
    exact .pure trivial
  unfold nodeValue
  split
  · exact .pure trivial
  · split
    · exact .pure trivial
    · exact hnone _
  · exact related_unfailing hlenient _ _
  · refine .bind (typeOfNode_keeps node) fun ty _ _ _ => ?_
    cases ty with
    | some target => exact related_unfailing hlenient _ _
    | none => exact hnone _
  · refine .bind (typeOfNode_keeps node) fun ty _ _ _ => ?_
    cases ty with
    | some target => exact related_unfailing hlenient _ _
    | none => exact .pure trivial
  · exact hnone _

theorem termValue_unfailing (hlenient : cx.config.strict = false) (ht : t.isResource)
    (e : MappingError) : termValue cx read rd m t w ≠ .error (.failed e) w' := by
  intro hrun
  unfold termValue at hrun
  cases hn : Resource.ofTerm? t with
  | none =>
    rw [Term.isResource_eq_false_of_ofTerm? hn] at ht
    cases ht
  | some node =>
    rw [hn] at hrun
    exact ((nodeValue_unfailing hlenient node).error hrun).2.1 e rfl

/-! ## Members -/

theorem element_of_none (h : termValue cx read rd m t w = .ok none w') :
    element cx read rd m t w = .error (.failed (.invalid (.badElement t m.name))) w' := by
  unfold element
  rw [Run.bind_apply_ok h]
  rfl

theorem readPredicate_of_none {b : TypeBinding} {predicate : String} (r : RecordRef)
    (hm : b.memberFor? predicate = some m) (hsingle : m.collection = false)
    (ht : m.candidates cx.config (rd.graph.objects rd.subject predicate) = [t])
    (h : termValue cx read rd m t w = .ok none w') :
    readPredicate cx read rd b r predicate w = .ok () w' := by
  have hvalue : memberValue cx read rd m (rd.graph.objects rd.subject predicate) w =
      .ok none w' := by
    unfold memberValue singleValue
    rw [hsingle, ht]
    exact h
  have hattempt : Run.attempt (memberValue cx read rd m (rd.graph.objects rd.subject predicate)) w =
      .ok (.ok none) w' := by
    unfold Run.attempt
    rw [hvalue]
  have herror : Run.onError (memberError m rd.id)
      (memberValue cx read rd m (rd.graph.objects rd.subject predicate)) w = .ok none w' :=
    Run.bind_apply_ok hattempt
  unfold readPredicate
  rw [hm]
  exact Run.bind_apply_ok herror

/-- **Leniency**: a lenient reading gives a record, waits for ever for a resource that refers to
itself, fails for a reason of its own, or fails because an element of a collection has no value.
Whatever the reading of related resources does, a resource is no reason to fail where a member holds
one value, and the member is left as it is. In a collection it is, as soon as it has no value. -/
theorem fromGraph_lenient (cx : Setting) (w : World) (source : SourceRef) (ty : TypeName)
    (id : Resource) (hlenient : cx.config.strict = false) :
    ((∃ r w', fromGraph cx source ty id w = .ok r w') ∨
      ((∃ w', fromGraph cx source ty id w = .error .blocked w') ∧
        (w.Registered → w.Entangled cx source (w.source source))) ∨
      ∃ e w', fromGraph cx source ty id w = .error (.failed e) w' ∧
        (OwnFault cx source w ty id e ∨ LacksElement cx source w ty id e)) ∧
    ∀ (read : Reader) (rd : Reading) (m : MemberBinding) (t : Term) (w₁ w₂ : World), t.isResource →
      (∀ e, termValue cx read rd m t w₁ ≠ .error (.failed e) w₂) ∧
      (termValue cx read rd m t w₁ = .ok none w₂ →
        (∀ (b : TypeBinding) (predicate : String) (r : RecordRef),
          b.memberFor? predicate = some m → m.collection = false →
          m.candidates cx.config (rd.graph.objects rd.subject predicate) = [t] →
          readPredicate cx read rd b r predicate w₁ = .ok () w₂) ∧
        element cx read rd m t w₁ = .error (.failed (.invalid (.badElement t m.name))) w₂) := by
  refine ⟨?_, fun read rd m t w₁ w₂ ht => ⟨termValue_unfailing hlenient ht, fun hnone =>
    ⟨fun b predicate r hm hsingle hts => readPredicate_of_none r hm hsingle hts hnone,
      element_of_none hnone⟩⟩⟩
  obtain ⟨r, w', hrun, -⟩ | ⟨e, w', hrun, -⟩ | hblocked := fromGraph_outcome cx w source ty id
  · exact .inl ⟨r, w', hrun⟩
  · exact .inr (.inr ⟨e, w', hrun, (fromGraph_fails hrun).own_or_lacksElement hlenient⟩)
  · exact .inr (.inl hblocked)

/-- A person knows one person at most. -/
def acquaintance : MemberBinding where
  name := "knows"
  kind := .ref (some "Person")
  predicate := "urn:knows"
  collection := false
  ordered := false
  language := none
  lazy := false
  xsdUri := false

def acquaintanceBinding : TypeBinding :=
  { type := "Person", classIri := "urn:Person", namespaces := [], idMember := none
    members := [acquaintance] }

/-- The person known has two names and cannot be read, so that she is left out. -/
theorem fromGraph_lenient_named :
    (namedSetting false).config.strict = false ∧ ∃ w',
      termValue (namedSetting false) (readWithin (namedSetting false) ⟨0⟩ 2)
        ⟨⟨0⟩, .iri "urn:a", namedGraph⟩ acquaintance (.iri "urn:b") namedWorld = .ok none w' ∧
      readPredicate (namedSetting false) (readWithin (namedSetting false) ⟨0⟩ 2)
        ⟨⟨0⟩, .iri "urn:a", namedGraph⟩ acquaintanceBinding ⟨0⟩ "urn:knows" namedWorld =
          .ok () w' := by
  obtain ⟨o, w', hrun, hnone⟩ := Run.exists_ok (p := fun o _ => o.isNone)
    (x := termValue (namedSetting false) (readWithin (namedSetting false) ⟨0⟩ 2)
      ⟨⟨0⟩, .iri "urn:a", namedGraph⟩ acquaintance (.iri "urn:b") namedWorld) (by decide +kernel)
  rw [Option.isNone_iff_eq_none.1 hnone] at hrun
  obtain ⟨-, hlenient⟩ :=
    fromGraph_lenient (namedSetting false) namedWorld ⟨0⟩ "Person" (.iri "urn:a") rfl
  have hunset := ((hlenient _ _ _ _ _ _ rfl).2 hrun).1 acquaintanceBinding "urn:knows" ⟨0⟩
  exact ⟨rfl, w', hrun, hunset (by decide) rfl (by decide +kernel)⟩

/-- A lenient reading fails because a related resource cannot be read. -/
theorem fromGraph_lenient_fails :
    (namedSetting false).config.strict = false ∧
      ∃ w', fromGraph (namedSetting false) ⟨0⟩ "Person" (.iri "urn:a") namedWorld =
        .error (.failed (.invalid (.badElement (.iri "urn:b") "knows"))) w' := by
  refine ⟨rfl, Run.exists_failed ?_⟩
  decide +kernel

end Engine

end GraphMarshal
