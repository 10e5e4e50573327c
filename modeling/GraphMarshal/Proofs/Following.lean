import GraphMarshal.Proofs.Construction
import GraphMarshal.Proofs.Pairing

/-!
# Runs that follow one another

`Follows` compares two runs that start in matched worlds: worlds of engines that are equal in what
they have registered and read from, and whose heaps a pairing matches. The second run has to follow
the first one where that succeeds and where it waits for ever, and not where it fails. A run that
allocates makes the pairing grow, so what a rule says of a result it says of the pairing at the end.
-/

namespace GraphMarshal

/-- Engines that have registered the same and read from the same sources, with matched records. -/
structure Pairing.Matches (P : Pairing) (w w' : World) : Prop where
  heap : P.Isomorphic w.heap w'.heap
  namespaces : w'.namespaces = w.namespaces
  classes : w'.classes = w.classes
  bindings : w'.bindings = w.bindings
  source : ∀ s, w'.source s = w.source s
  construction : ∀ n, Option.Rel P.record (w.construction.get? n) (w'.construction.get? n)

/-- Wherever `x` succeeds from a matched world, so does `y`, in a matched world again and with a
result that `V` relates, and wherever `x` waits for ever, so does `y`. -/
def Pairing.Follows (P : Pairing) {α β : Type} (x : Run α) (y : Run β)
    (V : Pairing → α → β → Prop) : Prop :=
  ∀ ⦃w w' : World⦄, P.Matches w w' →
    (∀ ⦃a : α⦄ ⦃w₁ : World⦄, x w = .ok a w₁ →
      ∃ Q b w₁', y w' = .ok b w₁' ∧ P.Within Q ∧ Q.Matches w₁ w₁' ∧ V Q a b) ∧
    ∀ ⦃w₁ : World⦄, x w = .error .blocked w₁ → ∃ w₁', y w' = .error .blocked w₁'

namespace Pairing

variable {P Q : Pairing} {w w' : World}

/-- Engines with nothing under construction match, whatever their heaps hold. -/
theorem matches_idle (hn : w'.namespaces = w.namespaces) (hc : w'.classes = w.classes)
    (hb : w'.bindings = w.bindings) (hs : ∀ s, w'.source s = w.source s)
    (hidle : ∀ n, w.construction.get? n = none) (hidle' : ∀ n, w'.construction.get? n = none) :
    Pairing.empty.Matches w w' where
  heap := ⟨nofun, nofun, ⟨nofun, nofun⟩, ⟨nofun, nofun⟩⟩
  namespaces := hn
  classes := hc
  bindings := hb
  source := hs
  construction n := by
    rw [hidle n, hidle' n]
    exact .none

namespace Matches

variable {r r' : RecordRef} {id : Resource}

theorem withHeap (hP : P.Matches w w') (hPQ : P.Within Q) {h h' : Heap}
    (hQ : Q.Isomorphic h h') : Q.Matches { w with heap := h } { w' with heap := h' } where
  heap := hQ
  namespaces := hP.namespaces
  classes := hP.classes
  bindings := hP.bindings
  source := hP.source
  construction n := optionRel_mono (hP.construction n) fun _ _ hr => hPQ.record hr

theorem enter (hP : P.Matches w w') (hr : P.record r r') :
    P.Matches (w.enter id r) (w'.enter id r') :=
  { hP with
    construction := fun n => by
      simp only [World.enter, Table.get?_insert]
      split
      · exact .some hr
      · exact hP.construction n }

theorem leave (hP : P.Matches w w') : P.Matches (w.leave id) (w'.leave id) :=
  { hP with
    construction := fun n => by
      simp only [World.leave, Table.get?_erase]
      split
      · exact .none
      · exact hP.construction n }

theorem typeForClass (hP : P.Matches w w') : w'.typeForClass = w.typeForClass := by
  funext iri
  unfold World.typeForClass
  rw [hP.namespaces, hP.classes]

end Matches

namespace Follows

variable {α β α' β' : Type} {x : Run α} {y : Run β} {V : Pairing → α → β → Prop}

protected theorem pure {a : α} {b : β} (hv : V P a b) : P.Follows (pure a) (pure b) V := by
  intro w w' hw
  refine ⟨?_, nofun⟩
  rintro _ _ ⟨⟩
  exact ⟨P, b, w', rfl, .refl P, hw, hv⟩

protected theorem throw {e : Halt} (he : e ≠ .blocked) : P.Follows (throw e) y V := by
  intro w w' _
  refine ⟨nofun, ?_⟩
  rintro _ ⟨⟩
  exact absurd rfl he

protected theorem blocked : P.Follows (throw .blocked : Run α) (throw .blocked : Run β) V :=
  fun _ w' _ => ⟨nofun, fun _ _ => ⟨w', rfl⟩⟩

protected theorem bind {f : α → Run α'} {g : β → Run β'} {V' : Pairing → α' → β' → Prop}
    (hx : P.Follows x y V)
    (hf : ∀ Q a b, P.Within Q → V Q a b → Q.Follows (f a) (g b) V') :
    P.Follows (x >>= f) (y >>= g) V' := by
  intro w w' hw
  obtain ⟨hgives, hwaits⟩ := hx hw
  rw [Run.bind_apply, Run.bind_apply]
  cases hxw : x w with
  | ok a w₁ =>
    obtain ⟨Q, b, w₁', hyw, hPQ, hQ, hv⟩ := hgives hxw
    obtain ⟨hgives', hwaits'⟩ := hf Q a b hPQ hv hQ
    rw [hyw]
    refine ⟨fun a' w₂ hfw => ?_, hwaits'⟩
    obtain ⟨R, b', w₂', hgw, hQR, hR, hv'⟩ := hgives' hfw
    exact ⟨R, b', w₂', hgw, hPQ.trans hQR, hR, hv'⟩
  | error e w₁ =>
    refine ⟨nofun, ?_⟩
    rintro _ ⟨⟩
    obtain ⟨w₁', hyw⟩ := hwaits hxw
    rw [hyw]
    exact ⟨w₁', rfl⟩

theorem bindSame {y : Run α} {f : α → Run α'} {g : α → Run β'} {V' : Pairing → α' → β' → Prop}
    (hx : P.Follows x y fun _ => Eq) (hf : ∀ Q a, P.Within Q → Q.Follows (f a) (g a) V') :
    P.Follows (x >>= f) (y >>= g) V' :=
  .bind hx fun Q a _ hPQ hab => hab ▸ hf Q a hPQ

protected theorem get : P.Follows get get fun Q w w' => Q.Matches w w' := by
  intro w w' hw
  refine ⟨?_, nofun⟩
  rintro _ _ ⟨⟩
  exact ⟨P, w', w', rfl, .refl P, hw, hw⟩

protected theorem modify {f g : World → World}
    (hf : ∀ w w', P.Matches w w' → P.Matches (f w) (g w')) :
    P.Follows (modify f) (modify g) fun _ _ _ => True := by
  intro w w' hw
  refine ⟨?_, nofun⟩
  rintro _ _ ⟨⟩
  exact ⟨P, (), g w', rfl, .refl P, hf w w' hw, trivial⟩

protected theorem recordAt {r r' : RecordRef} (hr : P.record r r') :
    P.Follows (Run.recordAt r) (Run.recordAt r') fun Q rec rec' => rec.Like Q rec' := by
  intro w w' hw
  obtain ⟨rec, rec', hrec, hrec', hlike⟩ := hw.heap.record hr
  rw [Run.recordAt_apply hrec, Run.recordAt_apply hrec']
  refine ⟨?_, nofun⟩
  rintro _ _ ⟨⟩
  exact ⟨P, rec', w', rfl, .refl P, hw, hlike⟩

/-- Two runs may decide the same condition in two ways. -/
protected theorem ite {c : Prop} {d d' : Decidable c} {x' : Run α} {y' : Run β}
    (h : c → P.Follows x y V) (h' : ¬c → P.Follows x' y' V) :
    P.Follows (@ite _ c d x x') (@ite _ c d' y y') V := by
  by_cases hc : c
  · rw [if_pos hc, if_pos hc]
    exact h hc
  · rw [if_neg hc, if_neg hc]
    exact h' hc

/-! ## Errors -/

protected theorem fail (e : MappingError) : P.Follows (Run.fail e) y V := .throw nofun

protected theorem invalid (flaw : Flaw) : P.Follows (Run.invalid flaw) y V := .throw nofun

protected theorem ofExcept {e : Except MappingError α} {e' : Except MappingError β}
    (h : ∀ a, e = .ok a → ∃ b, e' = .ok b ∧ V P a b) :
    P.Follows (Run.ofExcept e) (Run.ofExcept e') V := by
  cases e with
  | error _ => exact .fail _
  | ok a =>
    obtain ⟨b, rfl, hv⟩ := h a rfl
    exact .pure hv

protected theorem attempt {f : Except MappingError α → Run α'}
    {g : Except MappingError β → Run β'} {V' : Pairing → α' → β' → Prop} (h : P.Follows x y V)
    (hfails : ∀ e w, ∃ e', f (.error e) w = .error (.failed e') w)
    (hok : ∀ Q a b, P.Within Q → V Q a b → Q.Follows (f (.ok a)) (g (.ok b)) V') :
    P.Follows (Run.attempt x >>= f) (Run.attempt y >>= g) V' := by
  intro w w' hw
  obtain ⟨hgives, hwaits⟩ := h hw
  rw [Run.bind_apply, Run.bind_apply]
  unfold Run.attempt
  cases hx : x w with
  | ok a w₁ =>
    obtain ⟨Q, b, w₁', hy, hPQ, hQ, hv⟩ := hgives hx
    obtain ⟨hgives', hwaits'⟩ := hok Q a b hPQ hv hQ
    rw [hy]
    refine ⟨fun a' w₂ hfw => ?_, hwaits'⟩
    obtain ⟨R, b', w₂', hgw, hQR, hR, hv'⟩ := hgives' hfw
    exact ⟨R, b', w₂', hgw, hPQ.trans hQR, hR, hv'⟩
  | error halt w₁ =>
    cases halt with
    | failed e =>
      obtain ⟨e', he'⟩ := hfails e w₁
      dsimp only
      rw [he']
      exact ⟨nofun, nofun⟩
    | blocked =>
      obtain ⟨w₁', hy⟩ := hwaits hx
      rw [hy]
      exact ⟨nofun, fun _ _ => ⟨w₁', rfl⟩⟩
    | exhausted => exact ⟨nofun, nofun⟩
    | dangling => exact ⟨nofun, nofun⟩

protected theorem onError {f g : MappingError → MappingError} (h : P.Follows x y V) :
    P.Follows (Run.onError f x) (Run.onError g y) V :=
  .attempt h (fun _ _ => ⟨_, rfl⟩) fun _ _ _ _ hv => .pure hv

/-! ## Sources -/

theorem log (call : SourceRef × SourceCall) : P.Follows
    (modify fun w => { w with calls := call :: w.calls })
    (modify fun w => { w with calls := call :: w.calls }) fun _ _ _ => True :=
  .modify fun _ _ hw => { hw with }

protected theorem describe (s : SourceRef) (id : Resource) :
    P.Follows (Run.describe s id) (Run.describe s id) fun _ => Eq :=
  .bind (log _) fun _ _ _ _ _ => .bind .get fun _ w w' _ hw => .pure (by rw [hw.source s])

protected theorem query (s : SourceRef) (text : String) :
    P.Follows (Run.query s text) (Run.query s text) fun _ => Eq :=
  .bind (log _) fun _ _ _ _ _ => .bind .get fun _ w w' _ hw => .pure (by rw [hw.source s])

protected theorem dialect (s : SourceRef) :
    P.Follows (Run.dialect s) (Run.dialect s) fun _ => Eq :=
  .bind .get fun _ w w' _ hw => .pure (by rw [hw.source s])

/-! ## What runs make -/

protected theorem alloc {rec rec' : Record} (hlike : rec.Like P rec') :
    P.Follows (Run.alloc rec) (Run.alloc rec') fun Q => Q.record := by
  intro w w' hw
  refine ⟨?_, nofun⟩
  rintro _ _ ⟨⟩
  exact ⟨P.addRecord w.heap.nextRecord w'.heap.nextRecord, _, _, rfl, within_addRecord,
    hw.withHeap within_addRecord (hw.heap.alloc hlike), .inr ⟨rfl, rfl⟩⟩

protected theorem allocCell {cell cell' : LazyCell} (hlike : cell.Like P cell') :
    P.Follows (Run.allocCell cell) (Run.allocCell cell') fun Q => Q.cell := by
  intro w w' hw
  refine ⟨?_, nofun⟩
  rintro _ _ ⟨⟩
  exact ⟨P.addCell w.heap.nextCell w'.heap.nextCell, _, _, rfl, within_addCell,
    hw.withHeap within_addCell (hw.heap.allocCell hlike), .inr ⟨rfl, rfl⟩⟩

protected theorem modifyRecord {r r' : RecordRef} {next next' : Record} (hr : P.record r r')
    (hlike : next.Like P next') :
    P.Follows (Run.modifyHeap (·.modify r fun _ => next))
      (Run.modifyHeap (·.modify r' fun _ => next')) fun _ _ _ => True :=
  .modify fun _ _ hw => hw.withHeap (.refl P) (hw.heap.modify hr hlike)

protected theorem underConstruction {id : Resource} {r r' : RecordRef} (hr : P.record r r')
    (h : P.Follows x y V) :
    P.Follows (Run.underConstruction id r x) (Run.underConstruction id r' y) V := by
  intro w w' hw
  have hentered : P.Matches (w.enter id r) (w'.enter id r') := hw.enter hr
  obtain ⟨hgives, hwaits⟩ := h hentered
  rw [Engine.underConstruction_apply, Engine.underConstruction_apply]
  cases hx : x (w.enter id r) with
  | ok a w₂ =>
    obtain ⟨Q, b, w₂', hy, hPQ, hQ, hv⟩ := hgives hx
    rw [hy]
    refine ⟨?_, nofun⟩
    rintro _ _ ⟨⟩
    exact ⟨Q, b, w₂'.leave id, rfl, hPQ, hQ.leave, hv⟩
  | error e w₂ =>
    refine ⟨nofun, ?_⟩
    rintro _ ⟨⟩
    obtain ⟨w₂', hy⟩ := hwaits hx
    rw [hy]
    exact ⟨w₂'.leave id, rfl⟩

/-! ## Lists -/

protected theorem mapM {f : α → Run α'} {g : α → Run β'} {V : Pairing → α' → β' → Prop}
    (hV : ∀ {Q R a b}, Pairing.Within Q R → V Q a b → V R a b) {l : List α}
    (hf : ∀ a ∈ l, ∀ Q, P.Within Q → Q.Follows (f a) (g a) V) :
    P.Follows (l.mapM f) (l.mapM g) fun Q => List.Forall₂ (V Q) := by
  induction l generalizing P with
  | nil => exact .pure .nil
  | cons a l ih =>
    rw [List.forall_mem_cons] at hf
    rw [List.mapM_cons, List.mapM_cons]
    refine .bind (hf.1 P (.refl P)) fun Q b b' hPQ hb => ?_
    refine .bind (ih fun a' ha' R hQR => hf.2 a' ha' R (hPQ.trans hQR)) fun R bs bs' hQR hbs => ?_
    exact .pure (.cons (hV hQR hb) hbs)

protected theorem forM {f g : α → Run Unit} {l : List α}
    (hf : ∀ a, ∀ Q, P.Within Q → Q.Follows (f a) (g a) fun _ _ _ => True) :
    P.Follows (l.forM f) (l.forM g) fun _ _ _ => True := by
  induction l generalizing P with
  | nil => exact .pure trivial
  | cons a l ih =>
    refine .bind (hf a P (.refl P)) fun Q _ _ hPQ _ => ?_
    exact ih fun a' R hQR => hf a' R (hPQ.trans hQR)

end Follows

end Pairing

end GraphMarshal
