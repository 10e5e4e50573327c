import GraphMarshal.Engine.Follow
import GraphMarshal.Proofs.RoundTrip

/-!
# Walking along paths

A path leads from a record over members to other records. Where originals refer to originals only,
the path that leads from an original to another leads from its copy to a copy of the other: the step
from a copy follows a reference that names the same resource, and if the reference is deferred it is
read first. Reading goes on with the pass, so all its records stay complete (`Pass.Finished`), which
is what the next step relies on.
-/

namespace GraphMarshal

open Engine

/-! ## Paths -/

/-- A record to be written: its place, what is there, the binding of its type and the identifier it
has in the end. -/
structure Original where
  place : RecordRef
  record : Record
  binding : TypeBinding
  id : Resource

/-- One step of a path: a mapped member, and the place of an element if the member holds a list. -/
structure PathStep where
  member : String
  index : Option Nat := none

/-- The reference that a value is, or that is an element of it. -/
def Value.reference? : Option Nat → Value → Option Reference
  | none, .ref x => some x
  | some i, .list items =>
    match items[i]? with
    | some (.ref x) => some x
    | _ => none
  | _, _ => none

/-- The reference that a step takes from a record. -/
def PathStep.reference? (s : Schema) (p : PathStep) (b : TypeBinding) (rec : Record) :
    Option Reference := do
  let m ← b.member? p.member
  let v ← rec.get? s m.name
  v.reference? p.index

namespace Engine

/-- The record that a step leads to. -/
def advance (cx : Setting) (p : PathStep) (r : RecordRef) : Run RecordRef := do
  let cur ← Run.recordAt r
  let b ← bindingOf cx cur.type
  match p.reference? cx.schema b cur with
  | some x => follow cx x
  | none => throw .dangling

/-- The record that a path leads to. -/
def walk (cx : Setting) : List PathStep → RecordRef → Run RecordRef
  | [], r => pure r
  | p :: path, r => do walk cx path (← advance cx p r)

variable {cx : Setting} {w w' : World} {r a : RecordRef} {rec : Record} {b : TypeBinding}
    {p : PathStep} {x : Reference}

theorem advance_apply (hr : w.heap.record? r = some rec) (hb : w.bindings.get? rec.type = some b)
    (hx : p.reference? cx.schema b rec = some x) : advance cx p r w = follow cx x w := by
  unfold advance
  rw [Run.bind_apply_ok (Run.recordAt_apply hr), Run.bind_apply_ok (bindingOf_of_cached hb), hx]

theorem advance_dangling (hr : w.heap.record? r = some rec) (hb : w.bindings.get? rec.type = some b)
    (hx : p.reference? cx.schema b rec = none) : advance cx p r w = .error .dangling w := by
  unfold advance
  rw [Run.bind_apply_ok (Run.recordAt_apply hr), Run.bind_apply_ok (bindingOf_of_cached hb), hx]
  rfl

theorem resolve_resolved {c : LazyRef} {cell : LazyCell} (hc : w.heap.cell? c = some cell)
    (ha : cell.resolved = some a) :
    resolve cx c w = .ok a w := by
  unfold resolve
  rw [Run.bind_apply_ok (Run.get_apply w), hc]
  dsimp only
  rw [ha]
  rfl

theorem resolve_new {c : LazyRef} {cell : LazyCell} (hc : w.heap.cell? c = some cell)
    (hn : cell.resolved = none) (hrun : fromGraph cx cell.source cell.target cell.id w = .ok a w') :
    resolve cx c w =
      .ok a { w' with
        heap := w'.heap.modifyCell c fun cell => { cell with resolved := some a } } := by
  unfold resolve
  rw [Run.bind_apply_ok (Run.get_apply w), hc]
  dsimp only
  rw [hn]
  dsimp only
  rw [Run.bind_apply_ok hrun]
  rfl

end Engine

/-! ## Steps from values -/

theorem PathStep.reference?_eq_some {s : Schema} {p : PathStep} {b : TypeBinding} {rec : Record}
    {z : Reference} (h : p.reference? s b rec = some z) :
    ∃ m ∈ b.members, b.member? p.member = some m ∧
      ∃ v, rec.get? s m.name = some v ∧ v.reference? p.index = some z := by
  obtain ⟨m, hm, h⟩ := Option.bind_eq_some_iff.1 h
  obtain ⟨v, hv, hz⟩ := Option.bind_eq_some_iff.1 h
  exact ⟨m, List.mem_of_find?_eq_some hm, hm, v, hv, hz⟩

theorem Value.refers_of_reference? {v : Value} {i : Option Nat} {x : Reference}
    (h : v.reference? i = some x) :
    v.Refers x := by
  unfold reference? at h
  split at h
  · cases h
    exact .ref _
  · split at h
    · next hitem =>
      cases h
      exact .list (List.mem_of_getElem? hitem) (.ref _)
    · cases h
  · cases h

theorem Value.isEmpty_of_refers {v : Value} {x : Reference} (h : v.Refers x) :
    v.isEmpty = false := by
  cases h with
  | ref x => rfl
  | @list items v x hv _ =>
    cases items with
    | nil => cases hv
    | cons v items => rfl

section

variable {name : Reference → Option Resource} {base : Nat} {source : SourceRef}
    {m : MemberBinding} {h : Heap}
  {v v' : Value} {x : Reference}

theorem CopyOne.names (hc : CopyOne name base source m h (.ref x) v') :
    ∃ x' target k, v' = .ref x' ∧ m.kind = .ref (some target) ∧ name x = some k ∧
      h.Names base source target k x' := by
  cases hc with
  | atom hat => exact hat.elim
  | ref hk hx hn _ => exact ⟨_, _, _, rfl, hk, hx, hn⟩

theorem Copy.reference? {i : Option Nat} (hc : Copy name base source m h v v')
    (hx : v.reference? i = some x) :
    ∃ x' target k, v'.reference? i = some x' ∧ m.kind = .ref (some target) ∧ name x = some k ∧
      h.Names base source target k x' := by
  unfold Value.reference? at hx
  split at hx
  · cases hx
    cases hc with
    | one hc =>
      obtain ⟨x', target, k, rfl, hrest⟩ := hc.names
      exact ⟨x', target, k, rfl, hrest⟩
  · next i items =>
    split at hx
    · next hitem =>
      cases hx
      cases hc with
      | one hc => cases hc with
        | atom hat => exact hat.elim
      | @list _ items' hcs =>
        obtain ⟨u, hu, hcu⟩ :
            ∃ u, items'[i]? = some u ∧ CopyOne name base source m h (.ref x) u := by
          obtain ⟨hi, heq⟩ := List.getElem?_eq_some_iff.1 hitem
          have hi' := hcs.length_eq ▸ hi
          have hcopy : CopyOne name base source m h items[i] items'[i] := hcs.get hi hi'
          rw [heq] at hcopy
          exact ⟨items'[i], List.getElem?_eq_getElem hi', hcopy⟩
        obtain ⟨x', target, k, rfl, hrest⟩ := hcu.names
        refine ⟨x', target, k, ?_, hrest⟩
        unfold Value.reference?
        dsimp only
        rw [hu]
    · cases hx
  · cases hx

theorem Heap.Names.modifyCell {target : TypeName} {k : Resource} {c : LazyRef} {cell : LazyCell}
    {a : RecordRef} (hn : h.Names base source target k x) (hc : h.cell? c = some cell)
    (hb : base ≤ a.index) (ha : h.id? a = some cell.id) :
    (h.modifyCell c fun cell => { cell with resolved := some a }).Names base source target k x := by
  cases hn with
  | eager hb hid => exact .eager hb hid
  | @lazy c' cell' hc' ht hs hk hr =>
    by_cases hcc : c = c'
    · subst hcc
      rw [hc] at hc'
      cases hc'
      have hcell : (h.modifyCell c fun cell => { cell with resolved := some a }).cell? c =
          some { cell with resolved := some a } := by
        rw [Heap.cell?_modifyCell, if_pos rfl, hc]
        rfl
      refine .lazy hcell ht hs hk fun a' ha' => ?_
      cases ha'
      exact ⟨hb, hk ▸ ha⟩
    · refine .lazy ?_ ht hs hk hr
      rw [Heap.cell?_modifyCell, if_neg hcc]
      exact hc'

end

namespace Pass

variable {cx : Setting} {P : Pass} {w w' : World} {k : Resource} {x y : RecordRef} {rec : Record}
    {b : TypeBinding}
  {m : MemberBinding}

/-! ## Worlds of finished records -/

variable (cx P) in
/-- A world of the pass in which nothing is under construction and all records of the pass are
complete. -/
structure Finished (w : World) : Prop where
  during : P.During w
  idle : ∀ n, w.construction.get? n = none
  complete : ∀ a : RecordRef, P.base ≤ a.index → a.index < w.heap.records.size →
    P.Complete cx w.heap a
  record : ∀ {r cur}, P.start.heap.record? r = some cur → w.heap.record? r = some cur

theorem Finished.start (hidle : ∀ n, P.start.construction.get? n = none) :
    P.Finished cx P.start where
  during := .start hidle
  idle := hidle
  complete _ hlo hhi := absurd hhi (Nat.not_lt.2 hlo)
  record hr := hr

theorem Finished.step (hw : P.Finished cx w) (h : P.Step cx w w') : P.Finished cx w' where
  during := hw.during.step h
  idle n := by rw [h.extended.construction]; exact hw.idle n
  complete a hlo hhi := by
    by_cases ha : a.index < w.heap.records.size
    · exact (hw.complete a hlo ha).extends h.extended ha
    · exact h.complete a (Nat.not_lt.1 ha) hhi
  record hr := h.extended.record trivial (hw.record hr)

/-- Resolving a deferred reference to a record with the identifier that it names changes no copy. -/
theorem Finished.modifyCell {c : LazyRef} {cell : LazyCell} {a : RecordRef} (hw : P.Finished cx w)
    (hc : w.heap.cell? c = some cell) (ha : P.Stands cell.id a w) :
    P.Finished cx
      { w with heap := w.heap.modifyCell c fun cell => { cell with resolved := some a } } where
  during := { hw.during with registered := fun hk => hw.during.registered hk }
  idle := hw.idle
  complete a' hlo hhi k rec b hid horig := by
    obtain ⟨vals, hrec, hmembers⟩ := hw.complete a' hlo hhi k rec b hid horig
    exact ⟨vals, hrec, fun m hm => (hmembers m hm).imp fun hn => hn.modifyCell hc ha.1 ha.2⟩
  record hr := hw.record hr

/-- **A reading** of an original in a finished world gives a finished world again. -/
theorem Finished.fromGraph (hv : P.Valid cx) (hw : P.Finished cx w) {target : TypeName}
    (hk : P.Readable cx target k) :
    ∃ a w', fromGraph cx P.source target k w = .ok a w' ∧ w.Extends w' ∧ P.Finished cx w' ∧
      P.Stands k a w' := by
  obtain ⟨a, w', hrun, hstep, ha⟩ := fromGraph_copies hv hw.during hw.idle hk
  exact ⟨a, w', hrun, hstep.extended, hw.step hstep, ha⟩

/-- **Following** a reference of a copy leads to a record with the identifier that the reference
names. -/
theorem Finished.follow (hv : P.Valid cx) (hw : P.Finished cx w) {target : TypeName} {x : Reference}
    (hn : w.heap.Names P.base P.source target k x) (hk : P.Readable cx target k) :
    ∃ a w', follow cx x w = .ok a w' ∧ P.Finished cx w' ∧ P.Stands k a w' := by
  cases hn with
  | eager hb hid => exact ⟨_, w, rfl, hw, hb, hid⟩
  | @lazy c cell hc ht hs hid hr =>
    cases hres : cell.resolved with
    | some a => exact ⟨a, w, resolve_resolved hc hres, hw, hr a hres⟩
    | none =>
      obtain ⟨a, w', hrun, hext, hw', ha⟩ := hw.fromGraph hv hk
      rw [← hs, ← ht, ← hid] at hrun
      exact ⟨a, _, resolve_new hc hres hrun, hw'.modifyCell (hext.cell hc) (hid ▸ ha), ha⟩

/-! ## Copies of paths -/

variable (cx P) in
/-- Originals of the pass that refer to each other only, each to originals of the types that its
members ask for. -/
structure Closed (os : List Original) : Prop where
  original : ∀ o ∈ os, P.original o.id = some (o.record, o.binding)
  record : ∀ o ∈ os, P.start.heap.record? o.place = some { o.record with id := some o.id }
  refers : ∀ o ∈ os, ∀ m ∈ o.binding.members, ∀ v, o.record.written cx.schema m.name = some v →
    ∀ y, v.Refers y →
    ∃ o' ∈ os, y = .eager o'.place ∧ P.name y = some o'.id ∧
      ∀ target, m.kind = .ref (some target) → P.Readable cx target o'.id

theorem Complete.reference? {h : Heap} {p : PathStep} {z : Reference} (hc : P.Complete cx h y)
    (hid : h.id? y = some k) (horig : P.original k = some (rec, b)) (hh : P.Holds cx k rec b)
    (hz : p.reference? cx.schema b rec = some z) :
    ∃ copy m v z' target j, h.record? y = some copy ∧ copy.type = rec.type ∧
      p.reference? cx.schema b copy = some z' ∧ m ∈ b.members ∧
      rec.written cx.schema m.name = some v ∧ v.Refers z ∧ m.kind = .ref (some target) ∧
      P.name z = some j ∧ h.Names P.base P.source target j z' := by
  obtain ⟨vals, hrec, hmembers⟩ := hc k rec b hid horig
  obtain ⟨m, hm, hfind, v, hget, hv⟩ := PathStep.reference?_eq_some hz
  have hrefers := Value.refers_of_reference? hv
  have hwritten := Record.written_eq_some.2 ⟨hget, Value.isEmpty_of_refers hrefers⟩
  have hcopies := hmembers m hm
  unfold CopiesMember at hcopies
  rw [hwritten] at hcopies
  obtain ⟨v', hv', hcopy⟩ := hcopies
  obtain ⟨f, hf, hkeeps⟩ := hh.kept m hm v hwritten
  have hget' :=
    Record.get?_of_keeps { type := rec.type, id := some k, values := vals }
      hh.concrete hf hkeeps hv'
  obtain ⟨z', target, j, hz', hkind, hname, hnames⟩ := hcopy.reference? hv
  refine ⟨_, m, v, z', target, j, hrec, rfl, ?_, hm, hwritten, hrefers, hkind, hname, hnames⟩
  exact Option.bind_eq_some_iff.2 ⟨m, hfind, Option.bind_eq_some_iff.2 ⟨v', hget', hz'⟩⟩

/-- **One step** from an original leads to an original, and from its copy to a copy of that one. -/
theorem Finished.advance {os : List Original} (hv : P.Valid cx) (hc : P.Closed cx os)
    (hw : P.Finished cx w) {o : Original} (ho : o ∈ os) (hy : P.Stands o.id y w) {p : PathStep}
    {x : RecordRef} {s : World} (hrun : advance cx p o.place P.start = .ok x s) :
    s = P.start ∧ ∃ o' ∈ os, x = o'.place ∧
      ∃ y' w', advance cx p y w = .ok y' w' ∧ P.Finished cx w' ∧ P.Stands o'.id y' w' := by
  have horig := hc.original o ho
  have hh := hv.holds horig
  have hrecord := hc.record o ho
  cases hz : p.reference? cx.schema o.binding { o.record with id := some o.id } with
  | none =>
    rw [advance_dangling hrecord hh.bound hz] at hrun
    cases hrun
  | some z =>
    rw [advance_apply hrecord hh.bound hz] at hrun
    have hcomplete := hw.complete y hy.1 (Heap.id?_eq_some_lt hy.2)
    obtain ⟨copy, m, v, z', target, j, hrec, hty, hz', hm, hwritten, hrefers, hkind,
      hname, hnames⟩ :=
      hcomplete.reference? hy.2 horig hh hz
    obtain ⟨o', ho', rfl, hname', hread⟩ := hc.refers o ho m hm v hwritten z hrefers
    cases hrun
    rw [hname] at hname'
    cases hname'
    obtain ⟨y', w', hfollow, hw', hy'⟩ := hw.follow hv hnames (hread target hkind)
    refine ⟨rfl, o', ho', rfl, y', w', ?_, hw', hy'⟩
    rw [advance_apply hrec (hty ▸ hw.during.binding hh.bound) hz']
    exact hfollow

/-- **A path** that leads from an original to another leads from its copy to a copy of the other, by
induction on the path. -/
theorem Finished.walk {os : List Original} (hv : P.Valid cx) (hc : P.Closed cx os) :
    ∀ (path : List PathStep) {o y w},
    P.Finished cx w → o ∈ os → P.Stands o.id y w → ∀ {x s}, walk cx path o.place P.start = .ok x s →
    ∃ o' ∈ os, x = o'.place ∧
      ∃ y' w', walk cx path y w = .ok y' w' ∧ P.Finished cx w' ∧ P.Stands o'.id y' w' := by
  intro path
  induction path with
  | nil =>
    intro o y w hw ho hy x s hrun
    cases hrun
    exact ⟨o, ho, rfl, y, w, rfl, hw, hy⟩
  | cons p path ih =>
    intro o y w hw ho hy x s hrun
    obtain ⟨x₁, s₁, hstep, hrest⟩ := Run.bind_eq_ok.1 hrun
    obtain ⟨rfl, o₁, ho₁, rfl, y₁, w₁, hstep', hw₁, hy₁⟩ := hw.advance hv hc ho hy hstep
    obtain ⟨o', ho', rfl, y', w', hwalk, hw', hy'⟩ := ih hw₁ ho₁ hy₁ hrest
    exact ⟨o', ho', rfl, y', w', (Run.bind_apply_ok hstep').trans hwalk, hw', hy'⟩

end Pass

end GraphMarshal
