import GraphMarshal.Proofs.Hierarchy
import GraphMarshal.Proofs.Termination

/-!
# The shape of a record graph

A record graph is read depth first, and the records under construction are the path from the root to
the record that is being read. So every record has a construction path, and a reference of a record
either goes back to its path, exactly where that has the resource already, or it goes to a record of
its own, whose path is one longer.

`Genealogy` below is such an assignment of paths to the records that were allocated in a stretch of
the run. A record that a failed reading has left behind has none, since nothing refers to it.
-/

namespace GraphMarshal

/-- The construction paths of some records, each with the record itself first. -/
abbrev Genealogy := RecordRef → Option (List RecordRef)

/-- What a record with a path may refer to: a record on the path, or one record of its own, once. -/
def Genealogy.Held (anc : Genealogy) (p refs : List RecordRef) : Prop :=
  ∀ y ∈ refs, y ∈ p ∨ (anc y = some (y :: p) ∧ refs.count y = 1)

/-- `anc` gives the construction paths of records that were allocated from `lo` up to `hi`. -/
structure Heap.Grown (h : Heap) (lo hi : Nat) (anc : Genealogy) : Prop where
  range : ∀ {x p}, anc x = some p → lo ≤ x.index ∧ x.index < hi
  self : ∀ {x p}, anc x = some p → ∃ q, p = x :: q
  distinguished : ∀ {x p}, anc x = some p → h.Distinguishes p
  held : ∀ {x p}, anc x = some p → anc.Held p (h.eagerRefs x)

namespace Heap.Grown

variable {h h' : Heap} {lo mid hi : Nat} {anc anc' : Genealogy}

protected theorem none (h : Heap) (lo hi : Nat) : h.Grown lo hi fun _ => none where
  range hx := by cases hx
  self hx := by cases hx
  distinguished hx := by cases hx
  held hx := by cases hx

theorem congr (hg : h.Grown lo hi anc) (hid : ∀ {x n}, h.id? x = some n → h'.id? x = some n)
    (hrefs : ∀ {x}, lo ≤ x.index → x.index < hi → h'.eagerRefs x = h.eagerRefs x) :
    h'.Grown lo hi anc where
  range := hg.range
  self := hg.self
  distinguished hx := (hg.distinguished hx).congr fun a ha => by
    obtain ⟨n, hn⟩ := (hg.distinguished hx).identified a ha
    rw [hn, hid hn]
  held hx := by
    obtain ⟨hlo, hhi⟩ := hg.range hx
    rw [hrefs hlo hhi]
    exact hg.held hx

/-- The paths of two stretches, one after the other. -/
def join (mid : Nat) (anc anc' : Genealogy) : Genealogy :=
  fun x => if x.index < mid then anc x else anc' x

theorem join_left (hg : h.Grown lo mid anc) {x : RecordRef} {p : List RecordRef}
    (hx : anc x = some p) :
    join mid anc anc' x = some p := by
  unfold join
  rw [if_pos (hg.range hx).2]
  exact hx

theorem join_right (hg : h.Grown mid hi anc') {x : RecordRef} {p : List RecordRef}
    (hx : anc' x = some p) :
    join mid anc anc' x = some p := by
  unfold join
  rw [if_neg (Nat.not_lt.2 (hg.range hx).1)]
  exact hx

theorem join_cases {x : RecordRef} {p : List RecordRef} (hx : join mid anc anc' x = some p) :
    anc x = some p ∨ anc' x = some p := by
  unfold join at hx
  split at hx
  · exact .inl hx
  · exact .inr hx

theorem append (hg : h.Grown lo mid anc) (hg' : h.Grown mid hi anc') (hlo : lo ≤ mid)
    (hhi : mid ≤ hi) :
    h.Grown lo hi (join mid anc anc') where
  range hx := by
    rcases join_cases hx with hx | hx
    · have := hg.range hx; omega
    · have := hg'.range hx; omega
  self hx := (join_cases hx).elim hg.self hg'.self
  distinguished hx := (join_cases hx).elim hg.distinguished hg'.distinguished
  held hx y hy := by
    rcases join_cases hx with hx | hx
    · exact (hg.held hx y hy).imp_right fun hf => ⟨join_left hg hf.1, hf.2⟩
    · exact (hg'.held hx y hy).imp_right fun hf => ⟨join_right hg' hf.1, hf.2⟩

theorem not_mem_path (hg : h.Grown lo hi anc) {y : RecordRef} {p : List RecordRef}
    (hy : anc y = some (y :: p)) : y ∉ p :=
  (hg.distinguished hy).not_mem

/-- What two stretches refer to, one after the other, from the same path. -/
theorem held_append (hg : h.Grown lo mid anc) (hg' : h.Grown mid hi anc') {p us vs : List RecordRef}
    (hu : anc.Held p us) (hv : anc'.Held p vs) : (join mid anc anc').Held p (us ++ vs) := by
  -- A record of its own in one stretch is neither on the path nor one of the other stretch.
  have left : ∀ y, anc y = some (y :: p) → y ∉ vs := fun y hy hm => by
    rcases hv y hm with hp | hf
    · exact hg.not_mem_path hy hp
    · have h₁ := hg.range hy
      have h₂ := hg'.range hf.1
      omega
  have right : ∀ y, anc' y = some (y :: p) → y ∉ us := fun y hy hm => by
    rcases hu y hm with hp | hf
    · exact hg'.not_mem_path hy hp
    · have h₁ := hg.range hf.1
      have h₂ := hg'.range hy
      omega
  intro y hy
  rw [List.count_append]
  rcases List.mem_append.1 hy with hy | hy
  · refine (hu y hy).imp_right fun ⟨hf, hc⟩ => ⟨join_left hg hf, ?_⟩
    rw [hc, List.count_eq_zero_of_not_mem (left y hf)]
  · refine (hv y hy).imp_right fun ⟨hf, hc⟩ => ⟨join_right hg' hf, ?_⟩
    rw [hc, List.count_eq_zero_of_not_mem (right y hf)]

end Heap.Grown

theorem Genealogy.Held.of_count_le {anc : Genealogy} {p us vs : List RecordRef} (h : anc.Held p vs)
    (hle : ∀ y, us.count y ≤ vs.count y) : anc.Held p us := by
  intro y hy
  have hpos := List.count_pos_iff.2 hy
  have hy' : y ∈ vs := List.count_pos_iff.1 (Nat.lt_of_lt_of_le hpos (hle y))
  refine (h y hy').imp_right fun ⟨hf, hc⟩ => ⟨hf, ?_⟩
  have := hle y
  omega

namespace World

variable {w w' : World} {r x : RecordRef} {p : List RecordRef} {id : Resource}

/-- The records under construction, the latest first, each under its own identifier. -/
structure Stack (w : World) (p : List RecordRef) : Prop where
  distinguished : w.heap.Distinguishes p
  registered : ∀ a ∈ p, ∀ n, w.heap.id? a = some n → w.construction.get? n = some a
  held : ∀ n a, w.construction.get? n = some a → a ∈ p ∧ w.heap.id? a = some n

theorem Fills.distinguishes (h : w.Fills r w') (hp : w.heap.Distinguishes p) :
    w'.heap.Distinguishes p :=
  hp.congr fun a ha => by
    obtain ⟨n, hn⟩ := hp.identified a ha
    rw [hn, h.id? hn]

theorem Stack.fills (hs : w.Stack p) (h : w.Fills r w') : w'.Stack p where
  distinguished := h.distinguishes hs.distinguished
  registered a ha n hn := by
    obtain ⟨n', hn'⟩ := hs.distinguished.identified a ha
    have := h.id? hn'
    rw [hn] at this
    cases this
    rw [h.construction]
    exact hs.registered a ha n hn'
  held n a hn := by
    rw [h.construction] at hn
    obtain ⟨ha, hid⟩ := hs.held n a hn
    exact ⟨ha, h.id? hid⟩

theorem Frame.eagerRefs {fixed : RecordRef → Prop} (h : w.Frame fixed w') (hx : fixed x)
    (hlt : x.index < w.heap.records.size) : w'.heap.eagerRefs x = w.heap.eagerRefs x := by
  obtain ⟨rec, hrec⟩ := Heap.exists_record? hlt
  rw [Heap.eagerRefs_of_record? hrec, Heap.eagerRefs_of_record? (h.record hx hrec)]

theorem Fills.grown (h : w.Fills r w') {lo hi : Nat} {anc : Genealogy} (hg : w.heap.Grown lo hi anc)
    (hr : r.index < lo) (hhi : hi ≤ w.heap.records.size) : w'.heap.Grown lo hi anc := by
  refine hg.congr h.id? fun {x} hlo hx => h.toFrame.eagerRefs (fun heq => ?_) (by omega)
  rw [heq] at hlo
  omega

theorem Extends.grown (h : w.Extends w') {lo hi : Nat} {anc : Genealogy}
    (hg : w.heap.Grown lo hi anc) (hhi : hi ≤ w.heap.records.size) : w'.heap.Grown lo hi anc :=
  hg.congr h.id? fun _ hx => h.eagerRefs trivial (by omega)

/-- Every record with a path refers in the members of a declared type to records of the path or to
instances of that type. -/
def Suited (s : Schema) (w : World) (anc : Genealogy) : Prop :=
  ∀ x q rec, anc x = some q → w.heap.record? x = some rec → w.SuitsRecord s q rec

theorem Frame.suited {fixed : RecordRef → Prop} (h : w.Frame fixed w') {s : Schema} {lo hi : Nat}
    {anc : Genealogy} (hg : w.heap.Grown lo hi anc) (hfix : ∀ x : RecordRef, lo ≤ x.index → fixed x)
    (hhi : hi ≤ w.heap.records.size) (hmono : ∀ {q rec}, w.SuitsRecord s q rec →
      w'.SuitsRecord s q rec) (hs : w.Suited s anc) : w'.Suited s anc := by
  intro x q rec hx hrec
  obtain ⟨hlo, hlt⟩ := hg.range hx
  obtain ⟨old, hold⟩ := Heap.exists_record? (h := w.heap) (r := x) (by omega)
  have hkept := h.record (hfix x hlo) hold
  rw [hrec] at hkept
  cases hkept
  exact hmono (hs x q rec hx hold)

theorem Fills.suited (h : w.Fills r w') {s : Schema} {lo hi : Nat} {anc : Genealogy}
    (hg : w.heap.Grown lo hi anc) (hr : r.index < lo) (hhi : hi ≤ w.heap.records.size)
    (hs : w.Suited s anc) : w'.Suited s anc :=
  h.toFrame.suited hg (fun x hx heq => by rw [heq] at hx; omega) hhi h.suitsRecord hs

theorem Extends.suited (h : w.Extends w') {s : Schema} {lo hi : Nat} {anc : Genealogy}
    (hg : w.heap.Grown lo hi anc) (hhi : hi ≤ w.heap.records.size) (hs : w.Suited s anc) :
    w'.Suited s anc :=
  Frame.suited h hg (fun _ _ => trivial) hhi (Fills.of_extends (r := ⟨0⟩) h).suitsRecord hs

theorem Suited.join {s : Schema} {mid : Nat} {anc anc' : Genealogy} (h : w.Suited s anc)
    (h' : w.Suited s anc') : w.Suited s (Heap.Grown.join mid anc anc') := by
  intro x q rec hx hrec
  rcases Heap.Grown.join_cases hx with hx | hx
  · exact h x q rec hx hrec
  · exact h' x q rec hx hrec

end World

namespace Engine

open World

variable {cx : Setting} {source : SourceRef} {ty : TypeName} {id : Resource} {w w' : World}
  {p : List RecordRef} {k : Kind}

/-- The stretch from `w` to `w'` made values that refer to records on the path `p` or to records of
their own. What the values refer to suits a member of a kind, and so do the members of the records
that were made. -/
def Raises (cx : Setting) (p : List RecordRef) (k : Kind) (w : World) (vs : List Value)
    (w' : World) : Prop :=
  ∃ anc, w'.heap.Grown w.heap.records.size w'.heap.records.size anc ∧
    anc.Held p (Value.allEagerRefs vs) ∧ w'.Suited cx.schema anc ∧
    w'.heap.Suits cx.schema p k (Value.allEagerRefs vs)

theorem raises_of_noRefs {vs : List Value} (h : Value.allEagerRefs vs = []) :
    Raises cx p k w vs w' :=
  ⟨fun _ => none, .none _ _ _, fun y hy => (by rw [h] at hy; cases hy),
    fun _ _ _ hx => (by cases hx), fun _ _ y hy => (by rw [h] at hy; cases hy)⟩

theorem Raises.congr {us vs : List Value} (h : Raises cx p k w vs w')
    (heq : Value.allEagerRefs us = Value.allEagerRefs vs) : Raises cx p k w us w' := by
  unfold Raises
  rw [heq]
  exact h

theorem Raises.weaken {vs : List Value} {k' : Kind} (h : Raises cx p k w vs w')
    (hk : ∀ T, k' = .ref (some T) → k = k') : Raises cx p k' w vs w' := by
  obtain ⟨anc, hg, hh, hsuit, hrefs⟩ := h
  exact ⟨anc, hg, hh, hsuit, fun T hT => hrefs T ((hk T hT).trans hT)⟩

theorem Raises.append {w₁ w₂ w₃ : World} {us vs : List Value} (h₁₂ : w₁.Extends w₂)
    (h₂₃ : w₂.Extends w₃) (hu : Raises cx p k w₁ us w₂) (hv : Raises cx p k w₂ vs w₃) :
    Raises cx p k w₁ (us ++ vs) w₃ := by
  obtain ⟨anc, hg, hu, hsuit, hrefs⟩ := hu
  obtain ⟨anc', hg', hv, hsuit', hrefs'⟩ := hv
  have hsuit := h₂₃.suited hg (Nat.le_refl _) hsuit
  have hrefs := (Fills.of_extends (r := ⟨0⟩) h₂₃).suits hrefs
  have hg := h₂₃.grown hg (Nat.le_refl _)
  refine ⟨_, hg.append hg' h₁₂.size h₂₃.size, ?_, hsuit.join hsuit', fun T hT y hy => ?_⟩
  · rw [Value.allEagerRefs_append]
    exact hg.held_append hg' hu hv
  · rw [Value.allEagerRefs_append] at hy
    exact (List.mem_append.1 hy).elim (hrefs T hT y) (hrefs' T hT y)

/-! ## Types -/

/-- Whether a record under construction already has its type in a later heap when it is found. -/
def admitsSettled (final : Heap) (w : World) (id : Resource) : Bool :=
  match w.construction.get? id with
  | some r => decide (w.heap.type? r = final.type? r)
  | none => true

/-- Readings that are compared where their records have the types of a later heap. -/
def settling (final : Heap) : Terms where
  halt _ := True
  compared h := ∀ x t, h.type? x = some t → final.type? x = some t
  back h hc x t ht := hc x t (h.type? ht)

theorem admitsSettled_of_new {final : Heap} (h : w.construction.get? id = none) :
    admitsSettled final w id := by
  unfold admitsSettled
  rw [h]

theorem admitsSettled_of_registered {final : Heap} {r : RecordRef} (hs : w.Stack p)
    (h : w.construction.get? id = some r) (hc : (settling final).compared w.heap) :
    admitsSettled final w id := by
  obtain ⟨rec, hrec, -⟩ := Heap.id?_eq_some.1 (hs.held id r h).2
  have ht : w.heap.type? r = some rec.type := Option.map_eq_some_iff.2 ⟨rec, hrec, rfl⟩
  unfold admitsSettled
  rw [h]
  show decide (w.heap.type? r = final.type? r) = true
  rw [ht, hc r _ ht]
  exact decide_eq_true rfl

/-! ## One record -/

/-- A record that is entered and prepared is the latest of the records under construction. -/
theorem stack_entered {settled : TypeName} (hf : (entered w ty id).Frame (· ≠ w.heap.nextRecord) w')
    (hrec : w'.heap.record? w.heap.nextRecord = some (outlineRecord settled id)) (hs : w.Stack p)
    (hnew : w.construction.get? id = none) : w'.Stack (w.heap.nextRecord :: p) := by
  have hr : w'.heap.id? w.heap.nextRecord = some id := Heap.id?_eq_some.2 ⟨_, hrec, rfl⟩
  have hc : w'.construction = w.construction.insert id w.heap.nextRecord := hf.construction
  have hkeep : ∀ {a n}, w.heap.id? a = some n → w'.heap.id? a = some n := fun {a n} ha => by
    obtain ⟨rec, hrec, hid⟩ := Heap.id?_eq_some.1 ha
    have hlt := Heap.record?_eq_some_lt hrec
    have hne : a ≠ w.heap.nextRecord := fun heq => by
      rw [heq] at hlt
      exact Nat.lt_irrefl _ hlt
    exact Heap.id?_eq_some.2 ⟨rec, hf.record hne (Heap.record?_alloc hrec _), hid⟩
  have hold : w'.heap.Distinguishes p := hs.distinguished.congr fun a ha => by
    obtain ⟨n, hn⟩ := hs.distinguished.identified a ha
    rw [hn, hkeep hn]
  refine ⟨hold.cons hr fun a ha hid => ?_, fun a ha n hn => ?_, fun n a hn => ?_⟩
  · obtain ⟨n, hn⟩ := hs.distinguished.identified a ha
    rw [hkeep hn] at hid
    cases hid
    have := hs.registered a ha id hn
    rw [hnew] at this
    cases this
  · rw [hc, Table.get?_insert]
    rcases List.mem_cons.1 ha with rfl | ha
    · rw [hr] at hn
      cases hn
      rw [if_pos rfl]
    · obtain ⟨n', hn'⟩ := hs.distinguished.identified a ha
      rw [hkeep hn'] at hn
      cases hn
      have hreg := hs.registered a ha n hn'
      rw [if_neg fun heq => by rw [heq, hreg] at hnew; cases hnew]
      exact hreg
  · rw [hc, Table.get?_insert] at hn
    split at hn
    · next heq =>
      cases hn
      exact ⟨List.mem_cons_self, heq ▸ hr⟩
    · obtain ⟨ha, hid⟩ := hs.held n a hn
      exact ⟨List.mem_cons_of_mem _ ha, hkeep hid⟩

/-- What holds of the record `r` with the path `r :: p` while its members are read. It and the records
made since there were `lo` of them refer to their paths or to records of their own, of the types that
their members declare. -/
def Growing (cx : Setting) (r : RecordRef) (p : List RecordRef) (lo : Nat) (w : World) : Prop :=
  ∃ anc, w.heap.Grown lo w.heap.records.size anc ∧ anc.Held (r :: p) (w.heap.eagerRefs r) ∧
    w.Suited cx.schema anc ∧ ∀ rec, w.heap.record? r = some rec → w.SuitsRecord cx.schema (r :: p) rec

section

variable {r : RecordRef} {rec : Record} {lo : Nat} {w₁ w₂ w₃ : World}

/-- A record without members refers to nothing. -/
theorem Growing.start (hrec : w.heap.record? r = some rec) (hempty : rec.values = ∅) :
    Growing cx r p w.heap.records.size w := by
  refine ⟨fun _ => none, .none _ _ _, fun y hy => ?_, fun _ _ _ hx => (by cases hx),
    fun cur hcur => ?_⟩
  · rw [Heap.eagerRefs_of_record? hrec, Record.eagerRefs, hempty] at hy
    cases hy
  · rw [hrec] at hcur
    cases hcur
    intro name v hv
    rw [hempty] at hv
    cases hv

/-- Records that are allocated and come to nothing have no path. -/
theorem Growing.extends (h : Growing cx r p lo w₁) (hr : r.index < lo)
    (hlo : lo ≤ w₁.heap.records.size) (he : w₁.Extends w₂) : Growing cx r p lo w₂ := by
  obtain ⟨anc, hg, hh, hsuit, hcur⟩ := h
  have hsize : w₁.heap.records.size ≤ w₂.heap.records.size := he.size
  have hr₁ : r.index < w₁.heap.records.size := Nat.lt_of_lt_of_le hr hlo
  have hg₂ := he.grown hg (Nat.le_refl _)
  refine ⟨anc, { hg₂ with range := fun hx => ?_ }, ?_, he.suited hg (Nat.le_refl _) hsuit,
    fun cur hc => ?_⟩
  · have := hg₂.range hx
    omega
  · rw [he.eagerRefs (x := r) trivial hr₁]
    exact hh
  · obtain ⟨old, hold⟩ := Heap.exists_record? hr₁
    have hkept := he.record trivial hold
    rw [hc] at hkept
    cases hkept
    exact (Fills.of_extends (r := ⟨0⟩) he).suitsRecord (hcur cur hold)

/-- A value that is stored brings the paths of the records made for it. -/
theorem Growing.set {b : TypeBinding} {m : MemberBinding} {v : Value} {next : Record}
    (h : Growing cx r p lo w₁) (hr : r.index < lo) (hlo : lo ≤ w₁.heap.records.size)
    (he : w₁.Extends w₂) (hv : Raises cx (r :: p) m.kind w₁ [v] w₂)
    (hrec : w₂.heap.record? r = some rec) (hb : w₂.bindings.get? rec.type = some b)
    (hm : m ∈ b.members) (hnext : rec.set cx.schema w₂.heap r m.name v = .ok next) :
    Growing cx r p lo { w₂ with heap := w₂.heap.modify r fun _ => next } := by
  obtain ⟨anc, hg, hh, hsuit, hcur⟩ := h
  obtain ⟨anc', hg', hv, hsuit', hrefs⟩ := hv
  have hset := World.Fills.of_set hrec hnext
  have hg₁ := he.grown hg (Nat.le_refl _)
  have hg₂ := hg₁.append hg' hlo he.size
  have hsuit₂ : w₂.Suited cx.schema (Heap.Grown.join w₁.heap.records.size anc anc') :=
    (he.suited hg (Nat.le_refl _) hsuit).join hsuit'
  have hnew : (w₂.heap.modify r fun _ => next).record? r = some next :=
    Heap.record?_modify_self hrec _
  have hold : w₁.heap.record? r = some rec := by
    obtain ⟨old, hold⟩ := Heap.exists_record? (Nat.lt_of_lt_of_le hr hlo)
    rw [hold, ← hrec, he.record trivial hold]
  refine ⟨Heap.Grown.join w₁.heap.records.size anc anc', ?_, ?_,
    hset.suited hg₂ hr (Nat.le_refl _) hsuit₂, fun cur' hcur' => ?_⟩
  · show Heap.Grown _ _ (w₂.heap.modify r fun _ => next).records.size _
    rw [Heap.size_modify]
    exact hset.grown hg₂ hr (Nat.le_refl _)
  · rw [Heap.eagerRefs_of_record? hold] at hh
    rw [Heap.eagerRefs_of_record? hnew]
    refine (Heap.Grown.held_append hg₁ hg' hh hv).of_count_le fun y => ?_
    rw [Value.allEagerRefs_singleton, List.count_append]
    exact Record.count_eagerRefs_set hnext y
  · rw [hnew] at hcur'
    cases hcur'
    rw [Value.allEagerRefs_singleton] at hrefs
    refine hset.suitsRecord (SuitsRecord.set ?_ hb hm hrefs hnext)
    exact (Fills.of_extends (r := ⟨0⟩) he).suitsRecord (hcur rec hold)

/-- The record made last and what it refers to, once its members are read. -/
theorem Growing.raises (h : Growing cx r p lo w₂) (hr : r = w.heap.nextRecord)
    (hs : w₂.Stack (r :: p)) (hlt : w.heap.records.size < lo) (hlo : lo ≤ w₂.heap.records.size)
    (hrec : w₂.heap.record? r = some rec) (htype : cx.schema.isA rec.type ty) :
    Raises cx p (.ref (some ty)) w [.ref (.eager r)] w₂ := by
  obtain ⟨anc, hg, hh, hsuit, hcur⟩ := h
  have hri : r.index = w.heap.records.size := by rw [hr]; rfl
  let only : Genealogy := fun x => if x = r then some (r :: p) else none
  have honly : only r = some (r :: p) := if_pos rfl
  have hother : ∀ {x q}, only x = some q → x = r ∧ q = r :: p := fun {x q} hx => by
    by_cases hxr : x = r
    · subst hxr
      rw [honly] at hx
      cases hx
      exact ⟨rfl, rfl⟩
    · exact absurd hx (by simp [only, hxr])
  have hown : w₂.Suited cx.schema only := by
    intro x q cur hx hrec'
    obtain ⟨rfl, rfl⟩ := hother hx
    exact hcur cur hrec'
  refine ⟨Heap.Grown.join lo only anc, ⟨fun {x q} hx => ?_, fun {x q} hx => ?_,
    fun {x q} hx => ?_, fun {x q} hx => ?_⟩, fun y hy => ?_, hown.join hsuit, fun T hT y hy => ?_⟩
  · rcases Heap.Grown.join_cases hx with hx | hx
    · obtain ⟨rfl, -⟩ := hother hx
      omega
    · have := hg.range hx
      omega
  · rcases Heap.Grown.join_cases hx with hx | hx
    · obtain ⟨rfl, rfl⟩ := hother hx
      exact ⟨p, rfl⟩
    · exact hg.self hx
  · rcases Heap.Grown.join_cases hx with hx | hx
    · obtain ⟨-, rfl⟩ := hother hx
      exact hs.distinguished
    · exact hg.distinguished hx
  · intro y hy
    rcases Heap.Grown.join_cases hx with hx | hx
    · obtain ⟨rfl, rfl⟩ := hother hx
      exact (hh y hy).imp_right fun ⟨hf, hc⟩ => ⟨hg.join_right hf, hc⟩
    · exact (hg.held hx y hy).imp_right fun ⟨hf, hc⟩ => ⟨hg.join_right hf, hc⟩
  · rw [Value.allEagerRefs_singleton] at hy ⊢
    obtain rfl := List.mem_singleton.1 hy
    refine .inr ⟨?_, List.count_singleton_self⟩
    unfold Heap.Grown.join
    rw [if_pos (by omega)]
    exact honly
  · rw [Value.allEagerRefs_singleton] at hy
    obtain rfl := List.mem_singleton.1 hy
    cases hT
    exact .inr ⟨rec.type, Option.map_eq_some_iff.2 ⟨rec, hrec, rfl⟩, htype⟩

/-- A record without members is made of nothing. -/
theorem raises_empty (hr : r = w.heap.nextRecord) (hs : w₁.Stack (r :: p))
    (hrec : w₁.heap.record? r = some rec) (hempty : rec.values = ∅)
    (htype : cx.schema.isA rec.type ty) :
    Raises cx p (.ref (some ty)) w [.ref (.eager r)] w₁ := by
  have hlt : w.heap.records.size < w₁.heap.records.size := by
    rw [hr] at hrec
    exact Heap.record?_eq_some_lt hrec
  exact (Growing.start hrec hempty).raises hr hs hlt (Nat.le_refl _) hrec htype

end

/-- What is read for a member refers to the path of the record or to records of their own, of the
type that the member declares, if related records do. -/
theorem reads_raises {final : Heap} {read read' : Reader} {rd : Reading} {b : TypeBinding}
    {w₁ w₂ : World}
    (hread : ∀ w q, w.Stack q → ∀ ty id, (settling final).extending.Keeps (read ty id) (read' ty id)
      (fun r w' => Raises cx q (.ref (some ty)) w [.ref (.eager r)] w') w)
    (hp : Prepared cx source w.heap.nextRecord ty id (entered w ty id) rd b w₁) (hs : w₂.Stack p)
    (h₂ : w₁.Fills w.heap.nextRecord w₂) (k : Kind) :
    Reads (settling final).extending ((entered w ty id).source source) rd (aimed k read)
      (aimed k read') (Raises cx p k) w₂ where
  source h := hp.source_eq rfl (h₂.trans (.of_extends h))
  known := hp.knows rfl
  -- A member of a declared type asks for that type only, which its values are then known to have.
  related h target node _ :=
    (hread _ _ (hs.fills (.of_extends (r := ⟨0⟩) h)) (k.aim target) node).mono fun _ _ _ h =>
      h.weaken fun T hT => by rw [hT]; rfl
  deferred {w₃} _ cell _ := ⟨.allocCell w₃ cell, raises_of_noRefs rfl⟩
  atom _ _ _ hv := raises_of_noRefs (by
    rw [Value.allEagerRefs_singleton, Value.eagerRefs_of_isAtom hv])
  none _ _ := raises_of_noRefs rfl
  append _ h₁ h₂ hu hv := hu.append h₁ h₂ hv
  list _ _ hv := hv.congr (Value.allEagerRefs_singleton _)

/-- The members of a record refer to its path or to records of their own, of the types that they
declare, if its related records do. -/
theorem readMembers_raises {final : Heap} {read read' : Reader} {rd : Reading} {b : TypeBinding}
    {w₁ : World}
    (hread : ∀ w q, w.Stack q → ∀ ty id, (settling final).extending.Keeps (read ty id) (read' ty id)
      (fun r w' => Raises cx q (.ref (some ty)) w [.ref (.eager r)] w') w)
    (hp : Prepared cx source w.heap.nextRecord ty id (entered w ty id) rd b w₁) (hs : w.Stack p)
    (hnew : w.construction.get? id = none) :
    ((settling final).filling w.heap.nextRecord).Keeps (readMembers cx read rd b w.heap.nextRecord)
      (readMembers cx read' rd b w.heap.nextRecord)
      (fun _ w₂ => Raises cx p (.ref (some ty)) w [.ref (.eager w.heap.nextRecord)] (w₂.leave id))
      w₁ := by
  have hs₁ := stack_entered hp.frame hp.record hs hnew
  have hlt : w.heap.records.size < w₁.heap.records.size := Heap.record?_eq_some_lt hp.record
  refine ((readMembers_each (V := fun m w₂ v => Raises cx (w.heap.nextRecord :: p) m.kind w₂ [v])
    (I := Growing cx w.heap.nextRecord p w₁.heap.records.size) ?value
    (fun _ _ _ _ _ _ _ _ _ _ => trivial) (fun _ _ _ _ _ _ _ _ _ _ _ => trivial)
    (.start hp.record rfl) ⟨_, hp.record⟩ ?skip ?set).and_step).mono ?final
  case value =>
    intro predicate m w₂ _ h₂
    have h := reads_raises hread hp (hs₁.fills h₂) h₂ m.kind
    have hk := memberValue_keeps cx m (rd.graph.objects rd.subject predicate) h (.refl w₂)
      fun t ht => h.knows_object ht
    rw [memberValue_aimed, memberValue_aimed] at hk
    exact .onError hk fun _ _ => trivial
  case skip => exact fun w₂ w₃ h₂ h₃ h => h.extends hlt h₂.size h₃
  case set =>
    intro w₂ w₃ m v cur next hm h₂ h₃ h hv hcur hnext
    obtain ⟨settled, hsettled, htype, -⟩ := (h₂.trans (.of_extends h₃)).outline hp.record
    rw [hcur] at hsettled
    cases hsettled
    have hb := h₃.binding (h₂.binding hp.binding)
    exact h.set hlt h₂.size h₃ hv hcur (htype ▸ hb) hm hnext
  case final =>
    rintro _ w₂ _ ⟨h₂, h⟩
    obtain ⟨rec, hrec, htype, -⟩ := h₂.outline hp.record
    have hisA : cx.schema.isA rec.type ty := by
      rw [htype]
      exact settledType_isA cx _ rd ty
    exact h.raises rfl (hs₁.fills h₂) hlt h₂.size hrec hisA

theorem registered_raises {final : Heap} {n : Nat} {r : RecordRef} (hs : w.Stack p)
    (hr : w.construction.get? id = some r) :
    (settling final).extending.Keeps (readWithin cx source n ty id)
      (readWatched cx source (admitsSettled final) n ty id)
      (fun r w' => Raises cx p (.ref (some ty)) w [.ref (.eager r)] w') w := by
  have hpath : ∀ y ∈ Value.allEagerRefs [.ref (.eager r)], y ∈ p := fun y hy => by
    rw [Value.allEagerRefs_singleton] at hy
    obtain rfl := List.mem_singleton.1 hy
    exact (hs.held id y hr).1
  exact .of_ok (readWithin_registered hr) (.refl w)
    ⟨fun _ => none, .none _ _ _, fun y hy => .inl (hpath y hy), fun _ _ _ hx => (by cases hx),
      fun _ _ y hy => .inl (hpath y hy)⟩
    fun hc => readWatched_registered (admitsSettled_of_registered hs hr hc) hr

/-- A reading makes a record on the path or one of its own, of the type asked for, by induction on
how deep readings may be nested. -/
theorem readWithin_raises (final : Heap) : ∀ n w p, w.Stack p → ∀ ty id,
    (settling final).extending.Keeps (readWithin cx source n ty id)
      (readWatched cx source (admitsSettled final) n ty id)
      (fun r w' => Raises cx p (.ref (some ty)) w [.ref (.eager r)] w') w := by
  intro n
  induction n with
  | zero =>
    intro w p hs ty id
    cases hr : w.construction.get? id with
    | some r => exact registered_raises hs hr
    | none =>
      refine .congr (reuseOr_new hr) ((watch_admitted (admitsSettled_of_new hr)).trans
        (reuseOr_new hr)) ?_
      exact .throw trivial
  | succ n ih =>
    intro w p hs ty id
    cases hr : w.construction.get? id with
    | some r => exact registered_raises hs hr
    | none =>
      refine .congr (readWithin_succ_new hr) (readWatched_succ_new (admitsSettled_of_new hr) hr) ?_
      refine construct_keeps hr (fun _ => trivial) (fun _ _ _ => trivial) (fun g _ _ => ?_)
        fun rd b w₁ _ hp => readMembers_raises ih hp hs hr
      have hlog : (entered w ty id).Frame (· ≠ w.heap.nextRecord)
          { entered w ty id with calls := (source, .describe id) :: w.calls } := .log _ _
      have h := raises_empty rfl (stack_entered hlog (record?_entered w ty id) hs hr)
        (record?_entered w ty id) rfl (cx.schema.isA_refl ty)
      exact h

/-! ## Paths -/

theorem Path.genealogy {h : Heap} {root : RecordRef} {lo hi : Nat} {anc : Genealogy}
    (hg : h.Grown lo hi anc) (hroot : anc root = some [root]) {p : List RecordRef}
    (hp : h.Path root p) :
    ∃ x q, p = x :: q ∧ anc x = some p := by
  induction hp with
  | root => exact ⟨root, [], rfl, hroot⟩
  | step hp hy hnew ih =>
    obtain ⟨x, q, heq, hx⟩ := ih
    cases heq
    rcases hg.held hx _ hy with hmem | ⟨hf, -⟩
    · exact absurd hmem hnew
    · exact ⟨_, _, rfl, hf⟩

/-- A reading that starts with nothing under construction gives its record, and every path from it,
a genealogy. -/
theorem fromGraph_raises {root : RecordRef} (hidle : ∀ n, w.construction.get? n = none)
    (hrun : fromGraph cx source ty id w = .ok root w') :
    ∃ anc, w'.heap.Grown w.heap.records.size w'.heap.records.size anc ∧
      w'.Suited cx.schema anc ∧ w'.heap.IsInstance cx.schema root ty ∧
      (∀ x p, w'.heap.Path root (x :: p) → anc x = some (x :: p)) ∧
      readWatched cx source (admitsSettled w'.heap) ((w.source source).nodes.length + 1) ty id w =
        .ok root w' := by
  have hs : w.Stack [] :=
    ⟨⟨fun a ha => by (cases ha), List.nodup_nil⟩, fun a ha => by (cases ha), fun n a hn => by
      rw [hidle n] at hn
      cases hn⟩
  rw [fromGraph_apply rfl] at hrun
  obtain ⟨-, ⟨anc, hg, hh, hsuit, hrefs⟩, hwatch⟩ :=
    (readWithin_raises w'.heap ((w.source source).nodes.length + 1) w [] hs ty id).ok hrun
  rw [Value.allEagerRefs_singleton] at hh hrefs
  have hroot : anc root = some [root] := by
    rcases hh root (List.mem_singleton_self root) with hmem | hf
    · cases hmem
    · exact hf.1
  refine ⟨anc, hg, hsuit, ?_, fun x p hp => ?_, hwatch fun _ _ ht => ht⟩
  · rcases hrefs ty rfl root (List.mem_singleton_self root) with hmem | hinst
    · cases hmem
    · exact hinst
  · obtain ⟨x', q, heq, hx⟩ := Path.genealogy hg hroot hp
    cases heq
    exact hx

/-- **The shape of a record graph**: in a reading that starts with nothing under construction and
succeeds, a record `x` on a simple path from the root refers to the very record of its path that
carries the identifier of the reference, exactly where there is one. Otherwise it refers to a record
that this reading has allocated and that no other reference reaches but one that goes back. No two
records of a path have the same identifier, and every record under construction has its final type
whenever it is found. -/
theorem fromGraph_shape (cx : Setting) (w w' : World) (source : SourceRef) (ty : TypeName)
    (id : Resource) (root : RecordRef) (hidle : ∀ n, w.construction.get? n = none)
    (hrun : fromGraph cx source ty id w = .ok root w') :
    (∀ x p, w'.heap.Path root (x :: p) → ∀ y ∈ w'.heap.eagerRefs x, ∃ n, w'.heap.id? y = some n ∧
      (y ∈ x :: p ↔ ∃ a ∈ x :: p, w'.heap.id? a = some n) ∧
      (y ∉ x :: p → w.heap.records.size ≤ y.index ∧ (w'.heap.eagerRefs x).count y = 1 ∧
        ∀ x' p', w'.heap.Path root (x' :: p') → y ∈ w'.heap.eagerRefs x' → y ∉ x' :: p' →
          x' = x ∧ p' = p)) ∧
    (∀ p, w'.heap.Path root p → w'.heap.Distinguishes p) ∧
    readWatched cx source (admitsSettled w'.heap) ((w.source source).nodes.length + 1) ty id w =
      .ok root w' := by
  obtain ⟨anc, hg, -, -, hpath, hwatch⟩ := fromGraph_raises hidle hrun
  refine ⟨fun x p hp y hy => ?_, fun p hp => ?_, hwatch⟩
  · have hx := hpath x p hp
    rcases hg.held hx y hy with hmem | ⟨hf, hc⟩
    · obtain ⟨n, hn⟩ := (hg.distinguished hx).identified y hmem
      exact ⟨n, hn, ⟨fun _ => ⟨y, hmem, hn⟩, fun _ => hmem⟩, fun hnot => absurd hmem hnot⟩
    · obtain ⟨n, hn⟩ := (hg.distinguished hf).identified y List.mem_cons_self
      have hnot := hg.not_mem_path hf
      have hids := (hg.distinguished hf).nodup
      rw [List.map_cons, List.nodup_cons] at hids
      refine ⟨n, hn, ⟨fun hmem => absurd hmem hnot, fun ⟨a, ha, han⟩ => ?_⟩, fun _ =>
        ⟨(hg.range hf).1, hc, fun x' p' hp' hy' hnot' => ?_⟩⟩
      · exact absurd (List.mem_map.2 ⟨a, ha, han.trans hn.symm⟩) hids.1
      · rcases hg.held (hpath x' p' hp') y hy' with hmem' | ⟨hf', -⟩
        · exact absurd hmem' hnot'
        · rw [hf] at hf'
          cases hf'
          exact ⟨rfl, rfl⟩
  · cases p with
    | nil => cases hp
    | cons x q => exact hg.distinguished (hpath x q hp)

theorem fromGraph_shape_ring :
    (∀ n, ringWorld.construction.get? n = none) ∧
      ∃ root w', fromGraph ringSetting ⟨0⟩ "Person" (.iri "urn:a") ringWorld = .ok root w' ∧
        ∀ p, w'.heap.Path root p → w'.heap.Distinguishes p := by
  have hidle : ∀ n, ringWorld.construction.get? n = none := fun _ => rfl
  obtain ⟨root, w', hrun, -⟩ := Run.exists_ok (p := fun _ _ => true)
    (x := fromGraph ringSetting ⟨0⟩ "Person" (.iri "urn:a") ringWorld) (by decide +kernel)
  exact ⟨hidle, root, w', hrun, (fromGraph_shape _ _ _ _ _ _ root hidle hrun).2.1⟩

end Engine

end GraphMarshal
