import GraphMarshal.Engine.Write
import GraphMarshal.Proofs.Identification

/-!
# Writing under a contract

What holds of the steps that give identifiers and write records, whatever the contract: they resolve
types, they count the names that they generate, and they fill empty slots. `Assigns` is what a
contract has to grant for giving an identifier and `Encodes` what it has to grant for writing one
record, where it may tell apart the references that the record holds. `toGraph_keeps` is then about
the whole of writing.
-/

namespace GraphMarshal.Engine

theorem get?_of_mem_writtenValues {cx : Setting} {b : TypeBinding} {rec : Record}
    {e : MemberBinding × Value} (he : e ∈ writtenValues cx b rec) :
    rec.get? cx.schema e.1.name = some e.2 := by
  unfold writtenValues at he
  obtain ⟨m, -, hm⟩ := List.mem_filterMap.1 he
  split at hm
  · next v hv =>
    split at hm <;> cases hm
    exact hv
  · cases hm

/-- What a contract has to grant for giving identifiers. -/
structure Assigns (K : Contract) (cx : Setting) : Prop where
  halt : ∀ e, K.halt e
  bound : ∀ w ty, K.Keeps (bindingOf cx ty) (bindingOf cx ty) (fun _ _ => True) w
  count : ∀ w, K.step w { w with generated := w.generated + 1 }
  initId : ∀ w r id, K.step w { w with heap := w.heap.initId r id }

/-- What a contract has to grant, from `w₀` on, for writing a record `r` whose references are all
in `R`. -/
structure Encodes (K : Contract) (cx : Setting) (r : RecordRef) (R : Reference → Prop)
    (w₀ : World) : Prop where
  fails : ∀ e, K.halt (.failed e)
  bound : ∀ {w}, K.step w₀ w → ∀ ty, K.Keeps (bindingOf cx ty) (bindingOf cx ty) (fun _ _ => True) w
  count : ∀ {w}, K.step w₀ w → K.step w { w with generated := w.generated + 1 }
  record : ∀ {w}, K.step w₀ w → K.Keeps (Run.recordAt r) (Run.recordAt r)
    (fun rec _ => ∀ name v x, rec.values.get? name = some v → v.Refers x → R x) w
  self : ∀ {w}, K.step w₀ w → K.Keeps (assignId cx r) (assignId cx r) (fun _ _ => True) w
  named : ∀ {w}, K.step w₀ w → ∀ x, R x →
    K.Keeps (referenceId (assignId cx) x) (referenceId (assignId cx) x) (fun _ _ => True) w

variable {K : Contract} {cx : Setting} {r : RecordRef} {R : Reference → Prop} {w₀ w : World}

/-! ## Identifiers -/

theorem referenceId_keeps {assign : RecordRef → Run Resource} {x : Reference}
    (hd : K.halt .dangling)
    (hassign : ∀ a, K.Keeps (assign a) (assign a) (fun _ _ => True) w) :
    K.Keeps (referenceId assign x) (referenceId assign x) (fun _ _ => True) w := by
  cases x with
  | eager a => exact hassign a
  | lazy c =>
    unfold referenceId
    refine .bind .get fun _ _ _ _ => ?_
    split
    · exact .pure trivial
    · exact .throw hd

theorem assignIdWithin_keeps (h : Assigns K cx) : ∀ (n : Nat) (r : RecordRef) (w : World),
    K.Keeps (assignIdWithin cx n r) (assignIdWithin cx n r) (fun _ _ => True) w := by
  intro n
  induction n with
  | zero => exact fun _ _ => .throw (h.halt _)
  | succ n ih =>
    intro r w
    unfold assignIdWithin
    refine .bind (.recordAt (h.halt _)) fun cur w₁ _ _ => ?_
    split
    · exact .pure trivial
    · split
      · exact .fail (h.halt _)
      · refine .bind (V := fun _ _ => True) ?fresh fun k w₂ _ _ => ?_
        case fresh =>
          unfold freshId
          refine .bind (h.bound _ _) fun b w₂ _ _ => ?_
          split
          · exact .bind (.nextGenerated (h.count w₂)) fun _ _ _ _ => .pure trivial
          · split
            · exact .fail (h.halt _)
            · unfold idOfValue
              split
              · exact .pure trivial
              · exact .pure trivial
              · exact referenceId_keeps (h.halt _) fun a => ih a _
              · exact .fail (h.halt _)
              · exact .pure trivial
        refine .bind (V := fun _ _ => True) (.modify (h.initId w₂ r k) trivial) fun _ w₃ _ _ => ?_
        exact .bind .get fun _ _ _ _ => .pure trivial

theorem assignId_keeps (h : Assigns K cx) :
    K.Keeps (assignId cx r) (assignId cx r) (fun _ _ => True) w := by
  unfold assignId
  exact .bind .get fun _ _ _ _ => assignIdWithin_keeps h _ _ _

theorem Assigns.encodes (h : Assigns K cx) : Encodes K cx r (fun _ => True) w₀ where
  fails _ := h.halt _
  bound _ ty := h.bound _ ty
  count _ := h.count _
  record _ := (Contract.Keeps.recordAt (h.halt _)).mono fun _ _ _ _ _ _ _ _ _ => trivial
  self _ := assignId_keeps h
  named _ _ _ := referenceId_keeps (h.halt _) fun _ => assignId_keeps h

/-! ## Triples -/

theorem termOf_keeps (h : Encodes K cx r R w₀) (hw : K.step w₀ w) {m : MemberBinding} {v : Value}
    (hv : ∀ x, v.Refers x → R x) :
    K.Keeps (termOf cx m v) (termOf cx m v) (fun _ _ => True) w := by
  unfold termOf
  split
  · next x => exact .bind (h.named hw x (hv x (.ref x))) fun _ _ _ _ => .pure trivial
  · exact .pure trivial
  · exact .fail (h.fails _)
  · split
    · exact .pure trivial
    · split
      · exact .ofExcept (fun _ _ => trivial) fun _ _ => h.fails _
      · exact .pure trivial

theorem memberTriples_keeps (h : Encodes K cx r R w₀) (hw : K.step w₀ w) {m : MemberBinding}
    {v : Value} (subject : Term) (hv : ∀ x, v.Refers x → R x) :
    K.Keeps (memberTriples cx subject m v) (memberTriples cx subject m v) (fun _ _ => True) w := by
  unfold memberTriples
  split
  · next items =>
    refine .bind (.mapM (P := fun _ _ _ _ => True) (fun _ _ => trivial) (fun _ _ _ _ _ => trivial)
      fun v hmem w₁ h₁ => ?_) fun ts w₁ h₁ _ => ?_
    · exact termOf_keeps h (K.trans hw h₁) fun x hx => hv x (.list hmem hx)
    · split
      · refine .bind (.mapM (P := fun _ _ _ _ => True) (fun _ _ => trivial)
          (fun _ _ _ _ _ => trivial) fun t _ w₂ h₂ => ?_) fun _ _ _ _ => .pure trivial
        have hcount := h.count (K.trans hw (K.trans h₁ h₂))
        exact .bind (V := fun _ _ => True) (.bind (.nextGenerated hcount) fun _ _ _ _ =>
          .pure trivial) fun _ _ _ _ => .pure trivial
      · exact .pure trivial
  · exact .bind (termOf_keeps h hw hv) fun _ _ _ _ => .pure trivial

/-- **Writing under a contract**: what writing a record does is as the contract says. -/
theorem toGraph_keeps (h : Encodes K cx r R w₀) :
    K.Keeps (toGraph cx r) (toGraph cx r) (fun _ _ => True) w₀ := by
  unfold toGraph
  refine .bind (h.record (K.refl w₀)) fun cur w₁ h₁ _ => ?_
  refine .bind (h.bound h₁ cur.type) fun b w₂ h₂ _ => ?_
  have hw₂ := K.trans h₁ h₂
  refine .bind (h.self hw₂) fun k w₃ h₃ _ => ?_
  have hw₃ := K.trans hw₂ h₃
  refine .bind (h.record hw₃) fun cur' w₄ h₄ hrefs => ?_
  have hw₄ := K.trans hw₃ h₄
  refine .bind (.mapM (P := fun _ _ _ _ => True) (fun _ _ => trivial) (fun _ _ _ _ _ => trivial)
    fun e he w₅ h₅ => ?_) fun _ _ _ _ => .pure trivial
  refine memberTriples_keeps h (K.trans hw₄ h₅) k.toTerm fun x hx => ?_
  rcases Record.get?_eq_some (get?_of_mem_writtenValues he) with hstored | hnil
  · exact hrefs _ _ x hstored hx
  · rw [hnil] at hx
    obtain ⟨v, hmem, -⟩ := Value.refers_list.1 hx
    cases hmem

end GraphMarshal.Engine
