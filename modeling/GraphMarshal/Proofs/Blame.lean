import GraphMarshal.Proofs.Encoding
import GraphMarshal.Proofs.Termination

/-!
# What failures blame

A reading fails with an invalid mapping, with an ambiguous value, or with the refusal of the source
to describe the resource itself. Whatever else goes wrong gets out as the cause of an invalid
mapping. In strict mode the error of a related record gets out of every record that it is read for,
and each of them puts an invalid mapping in front, so that the root cause stays. A related record is
read for another one if the reading of that one depends on how its own ends (`calls_iff`). Writing
knows only invalid mappings, and they have no cause.
-/

namespace GraphMarshal

/-- An error and its causes, outermost first. -/
def MappingError.chain : MappingError → List MappingError
  | .caused flaw cause => .caused flaw cause :: cause.chain
  | e => [e]

namespace Engine

/-! ## Errors of readings -/

/-- The errors that readings may fail with. A literal without a value is only ever a cause. -/
inductive Outward : MappingError → Prop
  | invalid (flaw : Flaw) : Outward (.invalid flaw)
  | caused (flaw : Flaw) {e : MappingError} : Outward e → Outward (.caused flaw e)
  | undecoded (flaw : Flaw) (datatype lexical : String) (fault : LiteralFault) :
    Outward (.caused flaw (.unsupportedLiteral datatype lexical fault))
  | ambiguous (member : String) (count : Nat) : Outward (.ambiguousValue member count)
  | source (f : SourceError) : Outward (.source f)

/-- The errors that a member may meet: those of readings, and literals without a value. -/
def Inward (e : MappingError) : Prop :=
  Outward e ∨ ∃ datatype lexical fault, e = .unsupportedLiteral datatype lexical fault

variable {cx : Setting} {source : SourceRef} {src : Source} {ty : TypeName} {id : Resource}
  {w w' : World} {rd : Reading} {m : MemberBinding} {read read' : Reader} {t : Term}
  {objects : List Term} {e : MappingError}

theorem Outward.chain (h : Outward e) : ∀ x ∈ e.chain,
    x ≠ .config ∧ (∀ iri, x ≠ .unknownType iri) ∧
      ∀ datatype lexical fault, x = .unsupportedLiteral datatype lexical fault →
        ∃ flaw, .caused flaw x ∈ e.chain := by
  induction h with
  | invalid | ambiguous | source =>
    intro x hx
    obtain rfl := List.mem_singleton.1 hx
    exact ⟨nofun, nofun, nofun⟩
  | caused flaw _ ih =>
    refine List.forall_mem_cons.2 ⟨⟨nofun, nofun, nofun⟩, fun x hx => ?_⟩
    obtain ⟨hconfig, htype, hliteral⟩ := ih x hx
    refine ⟨hconfig, htype, fun d l f heq => ?_⟩
    obtain ⟨flaw, hflaw⟩ := hliteral d l f heq
    exact ⟨flaw, List.mem_cons_of_mem _ hflaw⟩
  | undecoded flaw d l f =>
    refine List.forall_mem_cons.2 ⟨⟨nofun, nofun, nofun⟩, fun x hx => ?_⟩
    obtain rfl := List.mem_singleton.1 hx
    exact ⟨nofun, nofun, fun _ _ _ _ => ⟨flaw, List.mem_cons_self⟩⟩

theorem inward_of_decode (h : Literal.decode t m.kind = .error e) : Inward e := by
  unfold Literal.decode at h
  split at h
  · split at h
    · cases h
    · split at h <;> cases h
      exact .inr ⟨_, _, _, rfl⟩
  · cases h
    exact .inl (.invalid _)

theorem TermFault.inward (h : TermFault cx m Outward t e) : Inward e := by
  cases h with
  | undecoded _ hdecode => exact inward_of_decode hdecode
  | flawed _ _ _ => exact .inl (.invalid _)
  | unmaterialized _ _ he => exact .inl (.caused _ he)

theorem MemberFault.inward (h : MemberFault cx src read rd m Outward objects e) : Inward e := by
  cases h with
  | ambiguous _ _ => exact .inl (.ambiguous _ _)
  | single _ _ ht => exact ht.inward
  | collection _ hc =>
    cases hc with
    | unserved hr =>
      obtain ⟨f, rfl, -⟩ := hr
      exact .inl (.source f)
    | element _ hel =>
      cases hel with
      | term ht => exact ht.inward
      | empty _ => exact .inl (.invalid _)

theorem memberError_outward (h : Inward e) :
    Outward (memberError m id e) ∧ ∀ f, memberError m id e ≠ .source f := by
  rcases h with h | ⟨d, l, f, rfl⟩
  · cases h with
    | invalid flaw => exact ⟨.invalid flaw, nofun⟩
    | caused flaw he => exact ⟨.caused flaw he, nofun⟩
    | undecoded flaw d l f => exact ⟨.undecoded flaw d l f, nofun⟩
    | ambiguous name count => exact ⟨.ambiguous name count, nofun⟩
    | source f => exact ⟨.caused _ (.source f), nofun⟩
  · exact ⟨.undecoded _ d l f, nofun⟩

theorem ReadingFault.outward (h : ReadingFault cx source read Outward w ty id e) :
    Outward e ∧ ∀ f, e = .source f → (w.source source).describe id = .error f := by
  cases h with
  | slot _ => exact ⟨.invalid _, nofun⟩
  | undescribed hf =>
    refine ⟨.source _, fun f heq => ?_⟩
    cases heq
    exact hf
  | unbound _ _ _ => exact ⟨.invalid _, nofun⟩
  | member _ _ he =>
    obtain ⟨hout, hsource⟩ := memberError_outward he.inward
    exact ⟨hout, fun f heq => absurd heq (hsource f)⟩
  | refused _ _ _ => exact ⟨.invalid _, nofun⟩

/-- Readings that fail, if they do, with errors that may get out. -/
def classed : Terms where
  halt
    | .failed e => Outward e
    | _ => True
  compared _ := True
  back _ _ := trivial

theorem readWithin_classed : ∀ n w ty id, classed.extending.Keeps (readWithin cx source n ty id)
    (readWithin cx source n ty id) (fun _ _ => True) w := by
  intro n
  induction n with
  | zero =>
    intro w ty id
    refine .bind .get fun _ _ _ _ => ?_
    split
    · exact .pure trivial
    · exact .throw trivial
  | succ n ih =>
    intro w ty id
    cases hr : w.construction.get? id with
    | some r =>
      exact .of_ok (readWithin_registered hr) (.refl w) trivial fun _ => readWithin_registered hr
    | none =>
      refine .congr (readWithin_succ_new hr) (readWithin_succ_new hr) ?_
      exact (construct_fails hr trivial fun w' _ target node _ => ih w' target node).of_failing
        fun e he => (ReadingFault.outward he).1

/-- A reading that fails does so with an error that may get out, which is a refusal of the source
only if the resource itself cannot be described. -/
theorem fromGraph_outward {h : Halt} (hrun : fromGraph cx source ty id w = .error h w') :
    h = .blocked ∨ ∃ e, h = .failed e ∧ Outward e ∧
      ∀ f, e = .source f → (w.source source).describe id = .error f := by
  obtain ⟨-, rfl | ⟨e, rfl⟩, -⟩ := (fromGraph_ends cx ty id rfl (Nat.le_refl _)).error hrun
  · exact .inl rfl
  refine .inr ⟨e, rfl, ?_⟩
  rw [fromGraph_apply rfl] at hrun
  cases hr : w.construction.get? id with
  | some r =>
    rw [readWithin_registered hr] at hrun
    cases hrun
  | none =>
    rw [readWithin_succ_new hr] at hrun
    have hfails : (classed.extending.failing _).Keeps
        (construct cx (readWithin cx source (w.source source).nodes.length) source ty id) _
        (fun _ _ => True) w :=
      construct_fails hr trivial fun w' _ target node _ => readWithin_classed _ w' target node
    exact ReadingFault.outward (hfails.error hrun).2.1

/-! ## Calls for related resources -/

/-- A run calls its reader for a resource in a world: where the reader stops there other than with
an error, the run stops like that. -/
def Calls {α : Type} (x : Reader → Run α) (read : Reader) (w : World) (ty : TypeName)
    (id : Resource) (w₁ : World) : Prop :=
  ∀ (read' : Reader) (h : Halt), (∀ e, h ≠ .failed e) → (∃ w₂, read' ty id w₁ = .error h w₂) →
    (∀ ty' id' w', (ty', id', w') ≠ (ty, id, w₁) → read' ty' id' w' = read ty' id' w') →
    ∃ w', x read' w = .error h w'

/-- Two runs end alike, unless the first one ends as `S` says or the second one as `T` says. -/
def AlikeUnless {α : Type} (S T : Halt → Prop) (x y : Run α) (w : World) : Prop :=
  x w = y w ∨ (∃ h w', S h ∧ x w = .error h w') ∨ ∃ h w', T h ∧ y w = .error h w'

/-- Ends that get out of a resource as they are: with invalid mappings for a cause, or without an
error. -/
structure GetsOut (S T : Halt → Prop) : Prop where
  caused : ∀ {h}, S h → ∃ flaw e, h = .failed (.caused flaw e)
  halted : ∀ {h}, T h → ∀ e, h ≠ .failed e

theorem attempt_of_halted {α : Type} {x : Run α} {h : Halt} (hh : ∀ e, h ≠ .failed e)
    (hx : x w = .error h w') : Run.attempt x w = .error h w' := by
  unfold Run.attempt
  rw [hx]
  cases h with
  | failed e => exact absurd rfl (hh e)
  | blocked => rfl
  | exhausted => rfl
  | dangling => rfl

variable {S T : Halt → Prop}

namespace AlikeUnless

variable {α β : Type} {x y : Run α}

protected theorem rfl : AlikeUnless S T x x w := .inl rfl

protected theorem bind {f g : α → Run β} (hx : AlikeUnless S T x y w)
    (hf : ∀ a w', AlikeUnless S T (f a) (g a) w') : AlikeUnless S T (x >>= f) (y >>= g) w := by
  unfold AlikeUnless
  rw [Run.bind_apply, Run.bind_apply]
  rcases hx with hx | ⟨h, w', hS, hx⟩ | ⟨h, w', hT, hy⟩
  · rw [hx]
    cases y w with
    | ok a w' => exact hf a w'
    | error h w' => exact .inl rfl
  · rw [hx]
    exact .inr (.inl ⟨h, w', hS, rfl⟩)
  · rw [hy]
    exact .inr (.inr ⟨h, w', hT, rfl⟩)

protected theorem mapM {f g : α → Run β} (hf : ∀ a w', AlikeUnless S T (f a) (g a) w') :
    ∀ (l : List α) (w : World), AlikeUnless S T (l.mapM f) (l.mapM g) w
  | [], _ => .rfl
  | a :: l, w => by
    rw [List.mapM_cons, List.mapM_cons]
    exact .bind (hf a w) fun _ w' => .bind (.mapM hf l w') fun _ _ => .rfl

protected theorem forM {f g : α → Run Unit} (hf : ∀ a w', AlikeUnless S T (f a) (g a) w') :
    ∀ (l : List α) (w : World), AlikeUnless S T (l.forM f) (l.forM g) w
  | [], _ => .rfl
  | a :: l, w => .bind (hf a w) fun _ w' => .forM hf l w'

protected theorem onError (hout : GetsOut S T) (h : AlikeUnless S T x y w) :
    AlikeUnless S T (Run.onError (memberError m id) x) (Run.onError (memberError m id) y) w := by
  unfold AlikeUnless Run.onError
  rw [Run.bind_apply, Run.bind_apply]
  rcases h with h | ⟨h, w', hS, hx⟩ | ⟨h, w', hT, hy⟩
  · unfold Run.attempt
    rw [h]
    exact .inl rfl
  · obtain ⟨flaw, e, rfl⟩ := hout.caused hS
    unfold Run.attempt
    rw [hx]
    exact .inr (.inl ⟨_, w', hS, rfl⟩)
  · rw [attempt_of_halted (hout.halted hT) hy]
    exact .inr (.inr ⟨h, w', hT, rfl⟩)

end AlikeUnless

/-- Two readers read alike, unless the first one fails in strict mode with an error that `S` has as
a cause, or the second one ends as `T` says. -/
def ReadsUnless (cx : Setting) (S T : Halt → Prop) (read read' : Reader) : Prop :=
  ∀ ty id w, read ty id w = read' ty id w ∨
    (∃ e w', cx.config.strict ∧ (∀ flaw, S (.failed (.caused flaw e))) ∧
      read ty id w = .error (.failed e) w') ∨
    ∃ h w', T h ∧ read' ty id w = .error h w'

section

variable (hout : GetsOut S T) (hread : ReadsUnless cx S T read read')
include hout hread

/-- In strict mode the error of a related record becomes the cause of an invalid mapping. -/
theorem related_unless (target : TypeName) (node : Resource) (w : World) :
    AlikeUnless S T (related cx read rd m target node) (related cx read' rd m target node) w := by
  unfold related
  split
  · exact .rfl
  · unfold AlikeUnless
    rw [Run.bind_apply, Run.bind_apply]
    rcases hread target node w with h | ⟨e, w', hstrict, hS, h⟩ | ⟨h, w', hT, h'⟩
    · unfold Run.attempt
      rw [h]
      exact .inl rfl
    · unfold Run.attempt
      rw [h]
      dsimp only
      rw [if_pos hstrict]
      exact .inr (.inl ⟨_, w', hS (.unmaterialized node m.name), rfl⟩)
    · rw [attempt_of_halted (hout.halted hT) h']
      exact .inr (.inr ⟨h, w', hT, rfl⟩)

theorem nodeValue_unless (node : Resource) (w : World) :
    AlikeUnless S T (nodeValue cx read rd m node) (nodeValue cx read' rd m node) w := by
  unfold nodeValue
  split
  · exact .rfl
  · exact .rfl
  · exact related_unless hout hread _ node w
  · refine .bind .rfl fun o w' => ?_
    split
    · exact related_unless hout hread _ node w'
    · exact .rfl
  · refine .bind .rfl fun o w' => ?_
    split
    · exact related_unless hout hread _ node w'
    · exact .rfl
  · exact .rfl

theorem termValue_unless (t : Term) (w : World) :
    AlikeUnless S T (termValue cx read rd m t) (termValue cx read' rd m t) w := by
  unfold termValue
  split
  · exact .rfl
  · exact nodeValue_unless hout hread _ w

theorem element_unless (t : Term) (w : World) :
    AlikeUnless S T (element cx read rd m t) (element cx read' rd m t) w :=
  .bind (termValue_unless hout hread t w) fun _ _ => .rfl

theorem elementsOf_unless (t : Term) (w : World) :
    AlikeUnless S T (elementsOf cx read rd m t) (elementsOf cx read' rd m t) w := by
  unfold elementsOf
  split
  · exact .rfl
  · dsimp only
    split
    · exact .bind .rfl fun _ w' => .mapM (element_unless hout hread) _ w'
    · exact .bind .rfl fun _ w' => .mapM (element_unless hout hread) _ w'

theorem memberValue_unless (objects : List Term) (w : World) :
    AlikeUnless S T (memberValue cx read rd m objects) (memberValue cx read' rd m objects) w := by
  unfold memberValue
  split
  · refine .bind ?_ fun _ _ => .rfl
    exact .bind (.mapM (elementsOf_unless hout hread) _ w) fun _ _ => .rfl
  · unfold singleValue
    split
    · exact .rfl
    · exact termValue_unless hout hread _ w
    · exact .rfl

theorem readMembers_unless (b : TypeBinding) (r : RecordRef) (w : World) :
    AlikeUnless S T (readMembers cx read rd b r) (readMembers cx read' rd b r) w := by
  refine .forM (fun predicate w' => ?_) _ w
  unfold readPredicate
  split
  · exact .rfl
  · exact .bind (.onError hout (memberValue_unless hout hread _ w')) fun _ _ => .rfl

theorem construct_unless (ty : TypeName) (id : Resource) (w : World) :
    AlikeUnless S T (construct cx read source ty id) (construct cx read' source ty id) w := by
  cases hslot : cx.schema.carriesId ty with
  | false =>
    unfold construct
    rw [hslot]
    simp only [Bool.not_false, ↓reduceIte]
    exact .rfl
  | true =>
    have hfill : AlikeUnless S T (fill cx read source w.heap.nextRecord ty id)
        (fill cx read' source w.heap.nextRecord ty id) (entered w ty id) := by
      refine .bind .rfl fun o w' => ?_
      cases o with
      | none => exact .rfl
      | some found => exact readMembers_unless hout hread found.2 w.heap.nextRecord w'
    unfold AlikeUnless
    rw [construct_apply hslot, construct_apply hslot]
    rcases hfill with h | ⟨h, w', hS, hx⟩ | ⟨h, w', hT, hy⟩
    · rw [h]
      exact .inl rfl
    · rw [hx]
      exact .inr (.inl ⟨h, w'.leave id, hS, rfl⟩)
    · rw [hy]
      exact .inr (.inr ⟨h, w'.leave id, hT, rfl⟩)

theorem reuseOr_unless (ty : TypeName) (id : Resource) (w : World) :
    AlikeUnless S T (reuseOr (construct cx read source) ty id)
      (reuseOr (construct cx read' source) ty id) w := by
  refine .bind .rfl fun a w' => ?_
  split
  · exact .rfl
  · exact construct_unless hout hread ty id w'

end

open Classical in
/-- The reader that stops in one call. -/
noncomputable def stopAt (read : Reader) (ty : TypeName) (id : Resource) (w₁ : World) (h : Halt) :
    Reader := fun ty' id' w =>
  if (ty', id', w) = (ty, id, w₁) then .error h w else read ty' id' w

/-- **A reading calls for what it depends on**: it makes a call just if another answer to this call,
and to no other one, would make it end in another way. -/
theorem calls_iff {ty' : TypeName} {id' : Resource} {w₁ : World} :
    Calls (fun read => reuseOr (construct cx read source) ty id) read w ty' id' w₁ ↔
      ∃ read' : Reader,
        (∀ t i u, (t, i, u) ≠ (ty', id', w₁) → read' t i u = read t i u) ∧
        reuseOr (construct cx read' source) ty id w ≠
          reuseOr (construct cx read source) ty id w := by
  constructor
  · intro hcalls
    have hstops : ∀ h, (∀ e, h ≠ .failed e) → ∃ w',
        reuseOr (construct cx (stopAt read ty' id' w₁ h) source) ty id w = .error h w' :=
      fun h hh => hcalls _ h hh ⟨w₁, if_pos rfl⟩ fun _ _ _ hne => if_neg hne
    -- The run does not stop in both ways, and so one of the two answers makes a difference.
    obtain ⟨w', hw'⟩ := hstops .exhausted nofun
    obtain ⟨w'', hw''⟩ := hstops .dangling nofun
    by_cases h : reuseOr (construct cx read source) ty id w = .error .exhausted w'
    · refine ⟨stopAt read ty' id' w₁ .dangling, fun _ _ _ hne => if_neg hne, ?_⟩
      rw [hw'', h]
      nofun
    · refine ⟨stopAt read ty' id' w₁ .exhausted, fun _ _ _ hne => if_neg hne, ?_⟩
      rw [hw']
      exact fun heq => h heq.symm
  · rintro ⟨other, hother, hdiffer⟩ read' h hh ⟨w₂, hstop⟩ hsame
    have hout : GetsOut (fun _ => False) (· = h) := ⟨False.elim, fun heq => heq ▸ hh⟩
    -- Both readers are like the one that stops, as long as that one is not asked there.
    have halike : ∀ k : Reader, (∀ t i u, (t, i, u) ≠ (ty', id', w₁) → k t i u = read t i u) →
        reuseOr (construct cx k source) ty id w = reuseOr (construct cx read' source) ty id w ∨
          ∃ w', reuseOr (construct cx read' source) ty id w = .error h w' := fun k hk => by
      have hreads : ReadsUnless cx (fun _ => False) (· = h) k read' := fun t i u => by
        by_cases hcall : (t, i, u) = (ty', id', w₁)
        · cases hcall
          exact .inr (.inr ⟨h, w₂, rfl, hstop⟩)
        · exact .inl ((hk t i u hcall).trans (hsame t i u hcall).symm)
      rcases reuseOr_unless hout hreads ty id w with heq | ⟨_, _, hno, _⟩ | ⟨_, w', rfl, hend⟩
      · exact .inl heq
      · exact hno.elim
      · exact .inr ⟨w', hend⟩
    rcases halike read fun _ _ _ _ => rfl with hread | hend
    · rcases halike other hother with hread' | hend
      · exact absurd (hread'.trans hread.symm) hdiffer
      · exact hend
    · exact hend

/-- In strict mode a reading fails where it calls for a related resource that cannot be read, with
an invalid mapping for this cause. -/
theorem fails_of_calls {ty' : TypeName} {id' : Resource} {w₁ w₂ : World}
    (hstrict : cx.config.strict)
    (hcalls : Calls (fun read => reuseOr (construct cx read source) ty id) read w ty' id' w₁)
    (hfails : read ty' id' w₁ = .error (.failed e) w₂) :
    ∃ flaw w', reuseOr (construct cx read source) ty id w =
      .error (.failed (.caused flaw e)) w' := by
  obtain ⟨read', hsame, hdiffer⟩ := calls_iff.1 hcalls
  have hout : GetsOut (fun h => ∃ flaw, h = .failed (.caused flaw e)) fun _ => False :=
    ⟨fun ⟨flaw, heq⟩ => ⟨flaw, e, heq⟩, False.elim⟩
  have hreads : ReadsUnless cx (fun h => ∃ flaw, h = .failed (.caused flaw e)) (fun _ => False)
      read read' := fun t i u => by
    by_cases hcall : (t, i, u) = (ty', id', w₁)
    · cases hcall
      exact .inr (.inl ⟨e, w₂, hstrict, fun flaw => ⟨flaw, rfl⟩, hfails⟩)
    · exact .inl (hsame t i u hcall).symm
  rcases reuseOr_unless hout hreads ty id w with heq | ⟨_, w', ⟨flaw, rfl⟩, hend⟩ | ⟨_, _, hno, _⟩
  · exact absurd heq.symm hdiffer
  · exact ⟨flaw, w', hend⟩
  · exact hno.elim

/-- The related record that a reading calls for first, if its first predicate has one object and
belongs to a member that holds one record of a given type, at once. -/
def firstCall? (cx : Setting) (rd : Reading) (b : TypeBinding) : Option (TypeName × Resource) := do
  let predicate ← (rd.graph.predicatesOf rd.subject).head?
  let m ← b.memberFor? predicate
  match m.candidates cx.config (rd.graph.objects rd.subject predicate), m.kind with
  | [t], .ref (some target) =>
    if m.collection || m.lazy then none else (Resource.ofTerm? t).map (target, ·)
  | _, _ => none

theorem calls_firstCall {b : TypeBinding} {target : TypeName} {node : Resource} {w₁ : World}
    (hnew : w.construction.get? id = none) (hslot : cx.schema.carriesId ty)
    (hready : prepare cx source w.heap.nextRecord ty id (entered w ty id) = .ok (some (rd, b)) w₁)
    (hfirst : firstCall? cx rd b = some (target, node)) :
    Calls (fun read => reuseOr (construct cx read source) ty id) read w target node w₁ := by
  intro read' h hh ⟨w₂, hstop⟩ _
  obtain ⟨predicate, hpred, hfirst⟩ := Option.bind_eq_some_iff.1 hfirst
  obtain ⟨m, hm, hfirst⟩ := Option.bind_eq_some_iff.1 hfirst
  split at hfirst
  case h_2 => cases hfirst
  next t target' hcandidates hkind =>
  split at hfirst
  · cases hfirst
  next hone =>
  obtain ⟨node', hnode, heq⟩ := Option.map_eq_some_iff.1 hfirst
  cases heq
  rw [Bool.or_eq_true, not_or, Bool.not_eq_true, Bool.not_eq_true] at hone
  have hvalue : memberValue cx read' rd m (rd.graph.objects rd.subject predicate) w₁ =
      .error h w₂ := by
    unfold memberValue singleValue termValue nodeValue related
    rw [hone.1, hcandidates]
    dsimp only
    rw [hnode, hkind, hone.2]
    dsimp only
    exact (Run.bind_apply _ _ _).trans (by rw [attempt_of_halted hh hstop])
  have hmembers : readMembers cx read' rd b w.heap.nextRecord w₁ = .error h w₂ := by
    obtain ⟨rest, hpreds⟩ := List.head?_eq_some_iff.1 hpred
    unfold readMembers
    rw [hpreds]
    refine (Run.bind_apply _ _ _).trans ?_
    unfold readPredicate Run.onError
    rw [hm]
    dsimp only
    rw [Run.bind_apply, Run.bind_apply, attempt_of_halted hh hvalue]
  refine ⟨w₂.leave id, ?_⟩
  show reuseOr (construct cx read' source) ty id w = _
  rw [reuseOr_new hnew, construct_apply hslot]
  unfold fill
  rw [Run.bind_apply_ok hready]
  dsimp only
  rw [hmembers]

/-- In a reading, at some depth, a related record is called for and fails with an error. -/
inductive FailsInside (cx : Setting) (source : SourceRef) (e : MappingError) :
    Nat → TypeName → Resource → World → Prop
  | here {n : Nat} {ty ty' : TypeName} {id id' : Resource} {w w₁ w₂ : World} :
    Calls (fun read => reuseOr (construct cx read source) ty id) (readWithin cx source n) w
      ty' id' w₁ →
    readWithin cx source n ty' id' w₁ = .error (.failed e) w₂ →
    FailsInside cx source e (n + 1) ty id w
  | deeper {n : Nat} {ty ty' : TypeName} {id id' : Resource} {w w₁ : World} :
    Calls (fun read => reuseOr (construct cx read source) ty id) (readWithin cx source n) w
      ty' id' w₁ →
    FailsInside cx source e n ty' id' w₁ → FailsInside cx source e (n + 1) ty id w

/-- The error of a related record gets out in strict mode, with its root cause, by induction on how
deep it is. -/
theorem FailsInside.gets_out {n : Nat} (hstrict : cx.config.strict)
    (h : FailsInside cx source e n ty id w) :
    ∃ flaw cause w', readWithin cx source n ty id w = .error (.failed (.caused flaw cause)) w' ∧
      cause.rootCause = e.rootCause := by
  induction h with
  | here hcalls hfails =>
    obtain ⟨flaw, w', hrun⟩ := fails_of_calls hstrict hcalls hfails
    exact ⟨flaw, e, w', hrun, rfl⟩
  | deeper hcalls _ ih =>
    obtain ⟨flaw, cause, w₂, hfails, hroot⟩ := ih
    obtain ⟨flaw', w', hrun⟩ := fails_of_calls hstrict hcalls hfails
    exact ⟨flaw', _, w', hrun, hroot⟩

/-! ## Errors of writing -/

/-- If a run fails, it does so with an invalid mapping that has no cause. -/
def Plain {α : Type} (x : Run α) : Prop :=
  ∀ w e w', x w = .error (.failed e) w' → ∃ flaw, e = .invalid flaw

namespace Plain

variable {α β : Type}

protected theorem pure (a : α) : Plain (pure a) := fun _ _ _ hrun => by cases hrun

protected theorem throw {h : Halt} (hh : ∀ e, h ≠ .failed e) : Plain (throw h : Run α) :=
  fun _ _ _ hrun => by
    cases hrun
    exact absurd rfl (hh _)

protected theorem invalid (flaw : Flaw) : Plain (Run.invalid flaw : Run α) :=
  fun _ _ _ hrun => by
    cases hrun
    exact ⟨flaw, rfl⟩

protected theorem get : Plain (get : Run World) := fun _ _ _ hrun => by cases hrun

protected theorem modify (f : World → World) : Plain (modify f : Run Unit) :=
  fun _ _ _ hrun => by cases hrun

protected theorem bind {x : Run α} {f : α → Run β} (hx : Plain x) (hf : ∀ a, Plain (f a)) :
    Plain (x >>= f) := fun w e w' hrun => by
  rw [Run.bind_apply] at hrun
  split at hrun
  · exact hf _ _ e w' hrun
  · next hfails =>
    cases hrun
    exact hx w e w' hfails

protected theorem mapM {f : α → Run β} (hf : ∀ a, Plain (f a)) : ∀ l : List α, Plain (l.mapM f)
  | [] => .pure []
  | a :: l => by
    rw [List.mapM_cons]
    exact .bind (hf a) fun _ => .bind (.mapM hf l) fun _ => .pure _

protected theorem recordAt (r : RecordRef) : Plain (Run.recordAt r) :=
  .bind .get fun w => by
    split
    · exact .pure _
    · exact .throw nofun

protected theorem nextGenerated : Plain Run.nextGenerated :=
  .bind .get fun _ => .bind (.modify _) fun _ => .pure _

theorem bindingOf (cx : Setting) (ty : TypeName) : Plain (bindingOf cx ty) :=
  fun _ _ _ hrun => by
    obtain ⟨-, -, flaw, heq, -⟩ := bindingOf_error hrun
    cases heq
    exact ⟨flaw, rfl⟩

theorem encode (v : Value) (language : Option String) :
    Plain (Run.ofExcept (Literal.encode v language)) := by
  unfold Literal.encode
  split
  · exact .pure _
  · exact .pure _
  · split
    · exact .pure _
    · exact .invalid _

theorem referenceId {assign : RecordRef → Run Resource} (hassign : ∀ r, Plain (assign r)) :
    ∀ x : Reference, Plain (referenceId assign x)
  | .eager r => hassign r
  | .lazy c => .bind .get fun w => by
    split
    · exact .pure _
    · exact .throw nofun

theorem freshId {assign : RecordRef → Run Resource} (hassign : ∀ r, Plain (assign r))
    (cx : Setting) (rec : Record) : Plain (freshId cx assign rec) := by
  refine .bind (.bindingOf cx rec.type) fun b => ?_
  split
  · exact .bind .nextGenerated fun _ => .pure _
  · split
    · exact .invalid _
    · unfold idOfValue
      split
      · exact .pure _
      · exact .pure _
      · exact .referenceId hassign _
      · exact .invalid _
      · exact .pure _

theorem assignIdWithin (cx : Setting) : ∀ (n : Nat) (r : RecordRef), Plain (assignIdWithin cx n r)
  | 0, _ => .throw nofun
  | n + 1, r => .bind (.recordAt r) fun cur => by
    split
    · exact .pure _
    · split
      · exact .invalid _
      · refine .bind (.freshId (assignIdWithin cx n) cx cur) fun _ => ?_
        exact .bind (.modify _) fun _ => .bind .get fun _ => .pure _

theorem assignId (cx : Setting) (r : RecordRef) : Plain (assignId cx r) :=
  .bind .get fun _ => .assignIdWithin cx _ r

theorem termOf (cx : Setting) (m : MemberBinding) (v : Value) : Plain (termOf cx m v) := by
  unfold Engine.termOf
  split
  · exact .bind (.referenceId (.assignId cx) _) fun _ => .pure _
  · exact .pure _
  · exact .invalid _
  · split
    · exact .pure _
    · split
      · exact .encode _ _
      · exact .pure _

theorem memberTriples (cx : Setting) (subject : Term) (m : MemberBinding) (v : Value) :
    Plain (memberTriples cx subject m v) := by
  unfold Engine.memberTriples
  split
  · refine .bind (.mapM (.termOf cx m) _) fun terms => ?_
    split
    · refine .bind (.mapM (fun t => ?_) terms) fun _ => .pure _
      exact .bind (.bind .nextGenerated fun _ => .pure _) fun _ => .pure _
    · exact .pure _
  · exact .bind (.termOf cx m _) fun _ => .pure _

theorem toGraph (cx : Setting) (r : RecordRef) : Plain (toGraph cx r) :=
  .bind (.recordAt r) fun cur => .bind (.bindingOf cx cur.type) fun _ =>
    .bind (.assignId cx r) fun _ => .bind (.recordAt r) fun _ =>
      .bind (.mapM (fun _ => .memberTriples cx _ _ _) _) fun _ => .pure _

end Plain

/-- **Classes of errors.** A reading that does not end with a record waits for ever or fails: with
an invalid mapping, an ambiguous value or, only if the source refuses to describe the resource
itself, this refusal. No type is unknown and no configuration invalid anywhere in the chain of
causes, and a literal without a value is only found there as the cause of an invalid mapping. In
strict mode a related record that fails, however deep, makes the whole reading fail with an invalid
mapping of the same root cause, which is ambiguous or not as the error itself. Writing a record and
giving it an identifier fail with invalid mappings that have no cause. -/
theorem error_classes (cx : Setting) :
    (∀ source ty id w h w', fromGraph cx source ty id w = .error h w' →
      h = .blocked ∨ ∃ e, h = .failed e ∧
        (e.isInvalid ∨ (∃ member count, e = .ambiguousValue member count) ∨
          ∃ f, e = .source f ∧ (w.source source).describe id = .error f) ∧
        ∀ x ∈ e.chain, x ≠ .config ∧ (∀ iri, x ≠ .unknownType iri) ∧
          ∀ datatype lexical fault, x = .unsupportedLiteral datatype lexical fault →
            ∃ flaw, .caused flaw x ∈ e.chain) ∧
    (∀ source ty id w e, cx.config.strict →
      FailsInside cx source e ((w.source source).nodes.length + 1) ty id w →
      ∃ e' w', fromGraph cx source ty id w = .error (.failed e') w' ∧ e'.isInvalid ∧
        e'.rootCause = e.rootCause ∧ e'.isAmbiguous = e.isAmbiguous) ∧
    (∀ r w e w', toGraph cx r w = .error (.failed e) w' → ∃ flaw, e = .invalid flaw) ∧
    ∀ r w e w', assignId cx r w = .error (.failed e) w' → ∃ flaw, e = .invalid flaw := by
  refine ⟨?reading, ?strict, Plain.toGraph cx, Plain.assignId cx⟩
  case reading =>
    intro source ty id w h w' hrun
    obtain rfl | ⟨e, rfl, hout, hsource⟩ := fromGraph_outward hrun
    · exact .inl rfl
    refine .inr ⟨e, rfl, ?_, hout.chain⟩
    cases hout with
    | invalid | caused | undecoded => exact .inl rfl
    | ambiguous member count => exact .inr (.inl ⟨member, count, rfl⟩)
    | source f => exact .inr (.inr ⟨f, rfl, hsource f rfl⟩)
  case strict =>
    intro source ty id w e hstrict hinside
    obtain ⟨flaw, cause, w', hrun, hroot⟩ := hinside.gets_out hstrict
    rw [← fromGraph_apply rfl] at hrun
    have hsame : (MappingError.caused flaw cause).rootCause = e.rootCause := hroot
    refine ⟨_, w', hrun, rfl, hsame, ?_⟩
    unfold MappingError.isAmbiguous
    rw [hsame]

/-- Whether a reading first calls for a related record, in a world that passes a test. -/
def callsFirst (cx : Setting) (source : SourceRef) (ty : TypeName) (id : Resource)
    (target : TypeName) (node : Resource) (p : World → Bool) (w : World) : Bool :=
  (w.construction.get? id).isNone && cx.schema.carriesId ty &&
    Run.passes (fun o w₁ =>
        o.any (fun found => firstCall? cx found.1 found.2 = some (target, node)) && p w₁)
      (prepare cx source w.heap.nextRecord ty id (entered w ty id))

theorem exists_call {target : TypeName} {node : Resource} {p : World → Bool}
    (h : callsFirst cx source ty id target node p w) :
    ∃ w₁, p w₁ ∧ ∀ read,
      Calls (fun read => reuseOr (construct cx read source) ty id) read w target node w₁ := by
  unfold callsFirst at h
  rw [Bool.and_eq_true, Bool.and_eq_true, Option.isNone_iff_eq_none] at h
  obtain ⟨⟨hnew, hslot⟩, hready⟩ := h
  obtain ⟨o, w₁, hready, hcall⟩ := Run.exists_ok hready
  rw [Bool.and_eq_true, Option.any_eq_true] at hcall
  obtain ⟨⟨⟨rd, b⟩, rfl, hfirst⟩, hp⟩ := hcall
  exact ⟨w₁, hp, fun _ => calls_firstCall hnew hslot hready (of_decide_eq_true hfirst)⟩

/-- Persons with one name who know one person. -/
def chainSetting : Setting where
  config := { defaultLanguage := "en", strict := true }
  schema := { types := [{
    name := "Person"
    descriptor := {
      classIri := some "urn:Person"
      members := [{ name := "name", kind := .string, predicate := some "urn:name" },
        { name := "knows", kind := .ref (some "Person"), predicate := some "urn:knows" }] } }] }

/-- A person knows one who knows one with two names. -/
def chainGraph : Graph := .ofTriples
  [⟨.iri "urn:a", .iri "urn:knows", .iri "urn:b"⟩, ⟨.iri "urn:b", .iri "urn:knows", .iri "urn:c"⟩,
    ⟨.iri "urn:c", .iri "urn:name", .string "C1"⟩, ⟨.iri "urn:c", .iri "urn:name", .string "C2"⟩]

/-- A world that reads about them. -/
def chainWorld : World :=
  { namespaces := .wellKnown, sources := #[({ graph := chainGraph } : Memory).toSource] }

/-- The names of the third person are what the reading of the first one fails for. -/
theorem error_classes_chain :
    chainSetting.config.strict ∧
      FailsInside chainSetting ⟨0⟩ (.ambiguousValue "name" 2)
        ((chainWorld.source ⟨0⟩).nodes.length + 1) "Person" (.iri "urn:a") chainWorld ∧
      ∃ e w', fromGraph chainSetting ⟨0⟩ "Person" (.iri "urn:a") chainWorld =
          .error (.failed e) w' ∧ e.isInvalid ∧ e.isAmbiguous ∧
        e.rootCause = .ambiguousValue "name" 2 := by
  have htest : callsFirst chainSetting ⟨0⟩ "Person" (.iri "urn:a") "Person" (.iri "urn:b")
      (callsFirst chainSetting ⟨0⟩ "Person" (.iri "urn:b") "Person" (.iri "urn:c") fun w =>
        Run.failure? (readWithin chainSetting ⟨0⟩ 1 "Person" (.iri "urn:c") w) =
          some (.ambiguousValue "name" 2)) chainWorld := by
    decide +kernel
  obtain ⟨w₁, htest₁, hcalls⟩ := exists_call htest
  obtain ⟨w₂, htest₂, hcalls₁⟩ := exists_call htest₁
  obtain ⟨w₃, hfails⟩ := Run.exists_failed (of_decide_eq_true htest₂)
  have hinside : FailsInside chainSetting ⟨0⟩ (.ambiguousValue "name" 2)
      ((chainWorld.source ⟨0⟩).nodes.length + 1) "Person" (.iri "urn:a") chainWorld :=
    .deeper (hcalls _) (.here (hcalls₁ _) hfails)
  obtain ⟨e, w', hrun, hinvalid, hroot, hambiguous⟩ :=
    (error_classes chainSetting).2.1 ⟨0⟩ "Person" (.iri "urn:a") chainWorld _ rfl hinside
  exact ⟨rfl, hinside, e, w', hrun, hinvalid, hambiguous, hroot⟩

end Engine

end GraphMarshal
