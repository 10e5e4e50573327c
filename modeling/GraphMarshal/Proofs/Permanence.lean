import GraphMarshal.Proofs.Awaiting
import GraphMarshal.Proofs.Conduct
import GraphMarshal.Proofs.Outcome

/-!
# Identifiers are for good

An identifier is given once. Whatever is done with an engine afterwards, and however it ends, the
record keeps it, and so a reference goes on naming the resource that it names: a deferred one names
its own, which is the identifier of the record that it is resolved to.
-/

namespace GraphMarshal

open Engine

/-- A reference names a resource whatever comes: the record that it leads to, if any, has that
identifier. -/
def Heap.Designates (h : Heap) (n : Resource) : Reference → Prop
  | .eager r => h.id? r = some n
  | .lazy c => ∃ cell, h.cell? c = some cell ∧ cell.id = n ∧
      ∀ a, cell.resolved = some a → h.id? a = some n

theorem Heap.Designates.resource? {h : Heap} {n : Resource} {x : Reference}
    (hx : h.Designates n x) : h.resource? x = some n := by
  cases x with
  | eager r => exact hx
  | lazy c =>
    obtain ⟨cell, hc, hid, hres⟩ := hx
    refine Option.map_eq_some_iff.2 ⟨cell, hc, ?_⟩
    unfold cellResource
    cases hr : cell.resolved with
    | none => exact hid
    | some a => rw [Option.bind_some, hres a hr]; rfl

/-- What holds of every later world: references name what they named, and what is under construction
is the same. -/
structure World.Later (w w' : World) : Prop where
  designates : ∀ {x n}, w.heap.Designates n x → w'.heap.Designates n x
  construction : w'.construction = w.construction

namespace World.Later

variable {w w₁ w₂ : World}

protected theorem refl (w : World) : Later w w := ⟨fun h => h, rfl⟩

protected theorem trans (h : Later w w₁) (h' : Later w₁ w₂) : Later w w₂ :=
  ⟨fun hx => h'.designates (h.designates hx), h'.construction.trans h.construction⟩

theorem of_kept (hid : ∀ {r k}, w.heap.id? r = some k → w₁.heap.id? r = some k)
    (hcell : ∀ {c cell}, w.heap.cell? c = some cell → w₁.heap.cell? c = some cell)
    (hc : w₁.construction = w.construction) : Later w w₁ where
  designates {x n} hx := by
    cases x with
    | eager r => exact hid hx
    | lazy c =>
      obtain ⟨cell, hc, hn, hres⟩ := hx
      exact ⟨cell, hcell hc, hn, fun a ha => hid (hres a ha)⟩
  construction := hc

theorem of_heap (hheap : w₁.heap = w.heap) (hc : w₁.construction = w.construction) : Later w w₁ :=
  of_kept (fun h => hheap ▸ h) (fun h => hheap ▸ h) hc

theorem of_fills {r : RecordRef} (h : w.Fills r w₁) : Later w w₁ :=
  of_kept h.id? h.cell h.construction

theorem of_extends (h : w.Extends w₁) : Later w w₁ := of_fills (r := ⟨0⟩) (.of_extends h)

theorem of_identifies {closed : Prop} (h : w.Identifies closed w₁) : Later w w₁ :=
  of_kept h.id? (fun hc => (h.cell? _).trans hc) h.construction

theorem modifyCell {c : LazyRef} {cell : LazyCell} {a : RecordRef}
    (hc : w.heap.cell? c = some cell) (ha : w.heap.id? a = some cell.id) :
    Later w
      { w with heap := w.heap.modifyCell c fun cell => { cell with resolved := some a } } where
  designates {x n} hx := by
    cases x with
    | eager r => exact hx
    | lazy d =>
      obtain ⟨old, hold, hn, hres⟩ := hx
      show ∃ cell', (w.heap.modifyCell c _).cell? d = some cell' ∧ _
      rw [Heap.cell?_modifyCell]
      by_cases hcd : c = d
      · subst hcd
        rw [hc] at hold
        cases hold
        rw [if_pos rfl, hc]
        refine ⟨_, rfl, hn, fun b hb => ?_⟩
        cases hb
        exact hn ▸ ha
      · rw [if_neg hcd]
        exact ⟨old, hold, hn, hres⟩
  construction := rfl

end World.Later

/-- Runs after which everything is named as before. -/
def lasting : Contract where
  step := World.Later
  halt _ := True
  compared _ := True
  refl := .refl
  trans := .trans
  log _ _ := .of_heap rfl rfl
  back _ _ := trivial

namespace Engine

variable {cx : Setting} {w : World} {source : SourceRef} {r : RecordRef} {ty : TypeName}
  {id : Resource}

theorem lasting_operates : Operates lasting where
  halt _ := trivial
  grow h := .of_extends h
  identify h := .of_identifies h
  rest hheap _ hc _ := .of_heap hheap hc

theorem fromGraph_lasts (hidle : w.construction.get? id = none) :
    lasting.Keeps (fromGraph cx source ty id) (fromGraph cx source ty id)
      (fun a w' => w.Extends w' ∧ w'.heap.id? a = some id) w := by
  have hk : anyEnd.extending.Keeps (fromGraph cx source ty id) (fromGraph cx source ty id)
      (fun a w' => w.Extends w' ∧ w'.heap.id? a = some id) w :=
    (fromGraph_gives hidle).and_step.mono fun a w' _ ⟨hs, rec, hrec, hid, _⟩ =>
      ⟨hs, Heap.id?_eq_some.2 ⟨rec, hrec, hid⟩⟩
  exact hk.loosen (fun h => World.Later.of_extends h) (fun _ => trivial) fun _ => trivial

theorem resolve_lasts {c : LazyRef} (hidle : ∀ n, w.construction.get? n = none) :
    lasting.Keeps (resolve cx c) (resolve cx c) (fun _ _ => True) w := by
  unfold resolve
  refine .bind .get fun w₁ w₂ _ hw => ?_
  obtain ⟨rfl, rfl⟩ := hw
  split
  · exact .throw trivial
  · next cell hc =>
    split
    · exact .pure trivial
    · refine .bind (fromGraph_lasts (hidle cell.id)) fun a w₃ _ ha => ?_
      obtain ⟨hext, ha⟩ := ha
      exact .bind (V := fun _ _ => True) (.modify (.modifyCell (hext.cell hc) ha) trivial)
        fun _ _ _ _ => .pure trivial

end Engine

namespace Operation

variable {cx : Setting} {w : World}

theorem run_lasts (op : Operation) (hidle : ∀ n, w.construction.get? n = none) :
    lasting.Keeps (op.run cx) (op.run cx) (fun _ _ => True) w :=
  lasting_operates.run op (fun _ _ _ _ _ _ hcur hn => .of_fills (.of_set hcur hn)) fun _ _ =>
    resolve_lasts hidle

theorem later_after (op : Operation) (hidle : ∀ n, w.construction.get? n = none) :
    w.Later (op.after cx w) :=
  step_after (op.run_lasts hidle)

end Operation

theorem World.later_run {cx : Setting} (ops : List Operation) {w : World}
    (hidle : ∀ n, w.construction.get? n = none) : w.Later (w.run cx ops) := by
  induction ops generalizing w with
  | nil => exact .refl w
  | cons op ops ih =>
    have hop : w.Later (op.after cx w) := op.later_after hidle
    exact hop.trans (ih fun n => by rw [hop.construction]; exact hidle n)

namespace Engine

theorem assignId_of_identified {cx : Setting} {w : World} {r : RecordRef} {k : Resource}
    (hid : w.heap.id? r = some k) : assignId cx r w = .ok k w := by
  obtain ⟨rec, hrec, hk⟩ := Heap.id?_eq_some.1 hid
  unfold assignId
  rw [Run.bind_apply_ok (Run.get_apply w), assignIdWithin,
    Run.bind_apply_ok (Run.recordAt_apply hrec), hk]
  rfl

/-- **Identifiers are for good**: in every reachable world, a record that has an identifier has it
after every operation, whether that succeeds or fails, and after whatever is done next it still has
it, and that is what giving it an identifier gives. -/
theorem identifier_permanent (cx : Setting) (w : World) (op : Operation) (r : RecordRef)
    (k : Resource) (hw : w.Reachable cx) (hid : w.heap.id? r = some k) :
    (op.after cx w).heap.id? r = some k ∧
      ∀ ops, ((op.after cx w).run cx ops).heap.id? r = some k ∧
        assignId cx r ((op.after cx w).run cx ops) =
          .ok k ((op.after cx w).run cx ops) := by
  have hop : (op.after cx w).heap.id? r = some k :=
    (op.later_after hw.stable.idle).designates (x := .eager r) hid
  refine ⟨hop, fun ops => ?_⟩
  have hlater : (op.after cx w).Later ((op.after cx w).run cx ops) :=
    World.later_run ops (World.Reachable.step op hw).stable.idle
  have hrun := hlater.designates (x := .eager r) hop
  exact ⟨hrun, assignId_of_identified hrun⟩

/-- A peer who gets another peer to be identified by, and has an identifier already, keeps it. -/
theorem identifier_permanent_peer :
    peerWorld.Reachable peerSetting ∧ peerWorld.heap.id? ⟨1⟩ = some (.iri "urn:b") ∧
      ∀ ops, assignId peerSetting ⟨1⟩
        (((Operation.set ⟨1⟩ "peer" (.ref (.eager ⟨0⟩))).after peerSetting peerWorld).run
          peerSetting ops) = .ok (.iri "urn:b")
        (((Operation.set ⟨1⟩ "peer" (.ref (.eager ⟨0⟩))).after peerSetting peerWorld).run
          peerSetting ops) := by
  have hreach : peerWorld.Reachable peerSetting := World.Reachable.initial.run _
  have hid : peerWorld.heap.id? ⟨1⟩ = some (.iri "urn:b") := by decide +kernel
  refine ⟨hreach, hid, fun ops => ?_⟩
  exact ((identifier_permanent peerSetting peerWorld _ ⟨1⟩ _ hreach hid).2 ops).2

end Engine

end GraphMarshal
