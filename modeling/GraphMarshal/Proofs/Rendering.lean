import GraphMarshal.Proofs.Encoding
import GraphMarshal.Proofs.Sheets

/-!
# What a written graph consists of

Whatever a record holds, declared or not: if it is written, the graph is a sheet about it. Each
value has an entry, whose objects are the terms of the value or of its elements, and the cells of
lists are named by the numbers that were free when writing began. What is known of a value and its
term is a relation `T` that may look at the world and that lasts: once a term stands for a value, it
does so for the rest of the writing.
-/

namespace GraphMarshal

/-! ## Numbered terms -/

/-- Terms generated one after another by the numbers from `lo` up to `hi`. -/
def Numbered (lo hi : Nat) (ts : List Term) : Prop :=
  ∃ is : List Nat, ts = is.map Term.generated ∧ is.Pairwise (· < ·) ∧ ∀ i ∈ is, lo ≤ i ∧ i < hi

namespace Numbered

variable {lo mid hi : Nat} {ts us : List Term}

protected theorem nil : Numbered lo hi [] := ⟨[], rfl, .nil, fun _ h => by cases h⟩

protected theorem singleton (n : Nat) : Numbered n (n + 1) [.generated n] :=
  ⟨[n], rfl, List.pairwise_singleton _ _, fun i hi => by rw [List.mem_singleton.1 hi]; omega⟩

protected theorem append (h : Numbered lo mid ts) (h' : Numbered mid hi us) (hlo : lo ≤ mid)
    (hhi : mid ≤ hi) :
    Numbered lo hi (ts ++ us) := by
  obtain ⟨is, rfl, his, hrange⟩ := h
  obtain ⟨js, rfl, hjs, hrange'⟩ := h'
  refine ⟨is ++ js, List.map_append.symm,
    List.pairwise_append.2 ⟨his, hjs, fun i hi j hj => ?_⟩, fun i hi => ?_⟩
  · have := (hrange i hi).2
    have := (hrange' j hj).1
    omega
  · rcases List.mem_append.1 hi with hi | hi
    · have := hrange i hi
      omega
    · have := hrange' i hi
      omega

theorem mono {lo' hi' : Nat} (h : Numbered lo hi ts) (hlo : lo' ≤ lo) (hhi : hi ≤ hi') :
    Numbered lo' hi' ts := by
  obtain ⟨is, rfl, his, hrange⟩ := h
  refine ⟨is, rfl, his, fun i hi => ?_⟩
  have := hrange i hi
  omega

theorem nodup (h : Numbered lo hi ts) : ts.Nodup := by
  obtain ⟨is, rfl, his, -⟩ := h
  exact List.Nodup.map (fun _ _ => Term.generated_injective) (his.imp fun hlt => Nat.ne_of_lt hlt)

theorem isBlank (h : Numbered lo hi ts) : ∀ t ∈ ts, t.isBlank := by
  obtain ⟨is, rfl, -, -⟩ := h
  intro t ht
  obtain ⟨i, -, rfl⟩ := List.mem_map.1 ht
  rfl

theorem exists_index (h : Numbered lo hi ts) {t : Term} (ht : t ∈ ts) :
    ∃ i, lo ≤ i ∧ t = .generated i := by
  obtain ⟨is, rfl, -, hrange⟩ := h
  obtain ⟨i, hi, rfl⟩ := List.mem_map.1 ht
  exact ⟨i, (hrange i hi).1, rfl⟩

end Numbered

/-! ## Entries -/

/-- The values that are written one by one: the items of a list, or the value itself. -/
def Value.elements : Value → List Value
  | .list items => items
  | v => [v]

theorem Value.elements_of_not_list {v : Value} (hv : ∀ items, v ≠ .list items) :
    v.elements = [v] := by
  unfold elements
  split
  · exact absurd rfl (hv _)
  · rfl

theorem Value.refers_of_mem_elements {v u : Value} {x : Reference} (hu : u ∈ v.elements)
    (hx : u.Refers x) : v.Refers x := by
  unfold elements at hu
  split at hu
  · exact .list hu hx
  · rwa [← List.mem_singleton.1 hu]

/-- An entry has terms that `T` relates to a value: one object, an object for each element, or the
head of a list of them. -/
inductive Entry.Holds (T : Value → Term → Prop) (m : MemberBinding) : Value → Entry → Prop
  | single {v : Value} {t : Term} : (∀ items, v ≠ .list items) → T v t →
      Holds T m v { predicate := m.predicate, objects := [t] }
  | bag {vs : List Value} {ts : List Term} : m.ordered = false → List.Forall₂ T vs ts →
      Holds T m (.list vs) { predicate := m.predicate, objects := ts }
  | chain {vs : List Value} {cells : List (Term × Term)} : m.ordered →
      List.Forall₂ T vs (cells.map (·.2)) →
      Holds T m (.list vs) { predicate := m.predicate, objects := [Graph.headOf cells], cells }

namespace Entry.Holds

variable {T T' : Value → Term → Prop} {m : MemberBinding} {v : Value} {e : Entry}

theorem predicate (h : Entry.Holds T m v e) : e.predicate = m.predicate := by
  cases h <;> rfl

theorem imp (h : Entry.Holds T m v e) (hT : ∀ u t, T u t → T' u t) : Entry.Holds T' m v e := by
  cases h with
  | single hv ht => exact .single hv (hT _ _ ht)
  | bag ho hts => exact .bag ho (hts.imp hT)
  | chain ho hts => exact .chain ho (hts.imp hT)

end Entry.Holds

/-- A graph is the sheet of a record as it is in a world: what it is identified by, the class that
its type is bound to, and an entry for each value to write. -/
structure Rendered (cx : Setting) (T : MemberBinding → Value → Term → Prop) (w : World)
    (r : RecordRef) (g : Graph) (rec : Record) (b : TypeBinding) (k : Resource) (sh : Sheet) :
    Prop where
  record : w.heap.record? r = some rec
  id : rec.id = some k
  binding : w.bindings.get? rec.type = some b
  triples : g.triples = sh.triples
  subject : sh.subject = k.toTerm
  classIri : sh.classIri = b.classIri
  entries : List.Forall₂ (fun v e => Entry.Holds (T v.1) v.1 v.2 e)
    (Engine.writtenValues cx b rec) sh.entries

namespace Engine

variable {closed : Prop} {cx : Setting} {w w₁ : World} {r : RecordRef} {m : MemberBinding}
  {v u : Value} {T : World → MemberBinding → Value → Term → Prop}

/-! ## Terms -/

/-- What a relation of values and terms says from a world on, it says for the rest of the
writing. -/
structure Lasts (closed : Prop) (T : World → MemberBinding → Value → Term → Prop) (w₀ : World) :
    Prop where
  later : ∀ {w w' m u t}, w₀.Identifies closed w → w.Identifies closed w' → T w m u t → T w' m u t

theorem Lasts.step (h : Lasts closed T w) (hs : w.Identifies closed w₁) : Lasts closed T w₁ :=
  ⟨fun h₁ h₂ ht => h.later (hs.trans h₁) h₂ ht⟩

/-- From a world on a value is written as a term that is related to it. -/
structure WritesAs (closed : Prop) (cx : Setting) (T : World → MemberBinding → Value → Term → Prop)
    (m : MemberBinding) (u : Value) (w₀ : World) : Prop where
  term : ∀ {w}, w₀.Identifies closed w →
    (identifying closed).Keeps (termOf cx m u) (termOf cx m u) (fun t w' => T w' m u t) w

theorem WritesAs.step (h : WritesAs closed cx T m u w) (hs : w.Identifies closed w₁) :
    WritesAs closed cx T m u w₁ :=
  ⟨fun h₁ => h.term (hs.trans h₁)⟩

theorem termsOf_writesAs {vs : List Value} (hlasts : Lasts closed T w)
    (h : ∀ u ∈ vs, WritesAs closed cx T m u w) :
    (identifying closed).Keeps (vs.mapM (termOf cx m)) (vs.mapM (termOf cx m))
      (fun ts w' => List.Forall₂ (T w' m) vs ts) w := by
  induction vs generalizing w with
  | nil => exact .pure .nil
  | cons v vs ih =>
    rw [List.forall_mem_cons] at h
    rw [List.mapM_cons]
    refine .bind (h.1.term (.refl w)) fun t w₁ h₁ ht => ?_
    refine .bind (ih (hlasts.step h₁) fun u hu => (h.2 u hu).step h₁) fun ts w₂ h₂ hts => ?_
    exact .pure (.cons (hlasts.later h₁ h₂ ht) hts)

theorem generateBlank_identifies :
    (identifying closed).Keeps Run.generateBlank Run.generateBlank
      (fun t w' => Numbered w.generated w'.generated [t]) w := by
  refine .bind (.nextGenerated (.count w (Nat.le_succ _))) fun n w₁ _ hn => .pure ?_
  rw [hn.1, hn.2]
  exact .singleton _

theorem cellsOf_identifies {ts : List Term} :
    (identifying closed).Keeps (ts.mapM fun t => do pure (← Run.generateBlank, t))
      (ts.mapM fun t => do pure (← Run.generateBlank, t))
      (fun cells w' => cells.map (·.2) = ts ∧ Numbered w.generated w'.generated
      (cells.map (·.1))) w := by
  induction ts generalizing w with
  | nil => exact .pure ⟨rfl, .nil⟩
  | cons t ts ih =>
    rw [List.mapM_cons]
    refine .bind (V := fun c w' => c.2 = t ∧ Numbered w.generated w'.generated [c.1])
      (.bind generateBlank_identifies fun c _ _ hc => .pure ⟨rfl, hc⟩) fun c w₁ h₁ hc => ?_
    refine .bind ih fun cells w₂ h₂ hcells => .pure ⟨?_, ?_⟩
    · rw [List.map_cons, hc.1, hcells.1]
    · exact hc.2.append hcells.2 h₁.generated h₂.generated

/-- **The value of a member** is written as an entry. -/
theorem memberTriples_writesAs {subject : Term} (hlasts : Lasts closed T w)
    (h : ∀ u ∈ v.elements, WritesAs closed cx T m u w) :
    (identifying closed).Keeps (memberTriples cx subject m v) (memberTriples cx subject m v)
      (fun ts w' => ∃ e : Entry, ts = e.triples subject ∧ Entry.Holds (T w' m) m v e ∧
        Numbered w.generated w'.generated e.cellTerms) w := by
  unfold memberTriples
  split
  · refine .bind (termsOf_writesAs hlasts h) fun ts w₁ h₁ hts => ?_
    split
    · next hordered =>
      refine .bind cellsOf_identifies fun cells w₂ h₂ hcells =>
        .pure ⟨_, rfl, .chain hordered ?_, hcells.2.mono h₁.generated (Nat.le_refl _)⟩
      rw [hcells.1]
      exact hts.imp fun _ _ ht => hlasts.later h₁ h₂ ht
    · next hordered =>
      exact .pure ⟨{ predicate := m.predicate, objects := ts }, (List.append_nil _).symm,
        .bag (by simpa using hordered) hts, .nil⟩
  · next hlist =>
    rw [Value.elements_of_not_list hlist, List.forall_mem_singleton] at h
    refine .bind (h.term (.refl w)) fun t _ _ ht => ?_
    exact .pure ⟨{ predicate := m.predicate, objects := [t] }, rfl, .single hlist ht, .nil⟩

/-! ## Records -/

theorem entries_writesAs {subject : Term} {values : List (MemberBinding × Value)}
    (hlasts : Lasts closed T w)
    (h : ∀ e ∈ values, ∀ u ∈ e.2.elements, WritesAs closed cx T e.1 u w) :
    (identifying closed).Keeps (values.mapM fun e => memberTriples cx subject e.1 e.2)
      (values.mapM fun e => memberTriples cx subject e.1 e.2)
      (fun tss w' => ∃ entries : List Entry, tss = entries.map (Entry.triples subject) ∧
        List.Forall₂ (fun v e => Entry.Holds (T w' v.1) v.1 v.2 e) values entries ∧
        Numbered w.generated w'.generated (entries.flatMap Entry.cellTerms)) w := by
  induction values generalizing w with
  | nil => exact .pure ⟨[], rfl, .nil, .nil⟩
  | cons e values ih =>
    rw [List.forall_mem_cons] at h
    rw [List.mapM_cons]
    refine .bind (memberTriples_writesAs hlasts h.1) fun ts w₁ h₁ hts => ?_
    obtain ⟨entry, rfl, hholds, hcells⟩ := hts
    refine .bind (ih (hlasts.step h₁) fun e he u hu => (h.2 e he u hu).step h₁)
      fun tss w₂ h₂ htss => ?_
    obtain ⟨entries, rfl, hall, hcells'⟩ := htss
    exact .pure ⟨entry :: entries, rfl, .cons (hholds.imp fun _ _ ht => hlasts.later h₁ h₂ ht) hall,
      hcells.append hcells' h₁.generated h₂.generated⟩

/-- **A record that is written** gives a sheet about itself, with cells of its own, as far as the
terms of its values are known. -/
theorem toGraph_writesAs (hlasts : Lasts closed T w)
    (hbound : ∀ rec, w.heap.record? r = some rec → closed → ∃ b, w.bindings.get? rec.type = some b)
    (hself : ∀ w₁, w.Identifies closed w₁ → (identifying closed).Keeps (assignId cx r)
      (assignId cx r) (fun k w' => w'.heap.id? r = some k) w₁)
    (hterm : ∀ w₁ rec b, w.Identifies closed w₁ → w₁.heap.record? r = some rec →
      w₁.bindings.get? rec.type = some b →
      ∀ e ∈ writtenValues cx b rec, ∀ u ∈ e.2.elements, WritesAs closed cx T e.1 u w₁) :
    (identifying closed).Keeps (toGraph cx r) (toGraph cx r)
      (fun g w' => ∃ rec b k sh, Rendered cx (T w') w' r g rec b k sh ∧
        Numbered w.generated w'.generated sh.cellTerms ∧
        ∃ i, w.heap.record? r = some { rec with id := i }) w := by
  unfold toGraph
  refine .bind (.recordAt trivial) fun rec w₁ _ hrec => ?_
  obtain ⟨rfl, hrec⟩ := hrec
  refine .bind (bindingOf_identifies (hbound rec hrec)) fun b w₂ h₂ hb => ?_
  refine .bind (hself w₂ h₂) fun k w₃ h₃ hk => ?_
  refine .bind (.recordAt trivial) fun rec' w₄ _ hrec' => ?_
  obtain ⟨rfl, hrec'⟩ := hrec'
  -- The identifier stays and nothing else of the record changes, so it is the one to describe.
  obtain ⟨i, hi, -⟩ := (h₂.trans h₃).record hrec
  rw [hrec'] at hi
  cases hi
  obtain ⟨cur, hcur, hid⟩ := Heap.id?_eq_some.1 hk
  rw [hrec'] at hcur
  cases hcur
  refine .bind (entries_writesAs (hlasts.step (h₂.trans h₃))
    (hterm _ _ b (h₂.trans h₃) hrec' (h₃.binding hb))) fun tss w₅ h₅ htss => ?_
  obtain ⟨entries, rfl, hall, hcells⟩ := htss
  obtain ⟨i', hi', hkept⟩ := h₅.record hrec'
  cases hkept k hid
  refine .pure ⟨_, b, k, { subject := k.toTerm, classIri := b.classIri, entries },
    ⟨hi', rfl, (h₃.trans h₅).binding hb, ?_, rfl, rfl, hall⟩,
    hcells.mono (h₂.trans h₃).generated (Nat.le_refl _), _, hrec⟩
  show _ :: (entries.map (Entry.triples k.toTerm)).flatten = _
  rw [← List.flatMap_def]
  rfl

end Engine

/-! ## Records of any kind -/

open Engine

/-- A term that a value has been written as for a member, at some time. -/
def MemberBinding.Spells (cx : Setting) (m : MemberBinding) (v : Value) (t : Term) : Prop :=
  ∃ w w', termOf cx m v w = .ok t w'

namespace Engine

variable {cx : Setting} {w : World} {r : RecordRef} {m : MemberBinding} {v : Value}

/-- The contract of giving identifiers, with nothing said of the prefix table. -/
abbrev naming : Contract := identifying False

theorem naming_assigns (cx : Setting) : Assigns naming cx where
  halt _ := trivial
  bound _ _ := (bindingOf_identifies nofun).mono fun _ _ _ _ => trivial
  count w := .count w (Nat.le_succ _)
  initId := .initId

theorem assignId_naming :
    naming.Keeps (assignId cx r) (assignId cx r) (fun k w' => w'.heap.id? r = some k) w :=
  assignId_identifies (S := fun _ => False) nofun nofun

theorem referenceId_naming {x : Reference} :
    naming.Keeps (referenceId (assignId cx) x) (referenceId (assignId cx) x)
      (fun k w' => w'.heap.resource? x = some k) w :=
  referenceId_identifies fun _ _ => assignId_naming

theorem termOf_spells : WritesAs False cx (fun _ m => m.Spells cx) m v w where
  term {w₁} _ := by
    have hk : naming.Keeps (termOf cx m v) (termOf cx m v) (fun _ _ => True) w₁ :=
      termOf_keeps (r := ⟨0⟩) (naming_assigns cx).encodes (naming.refl w₁) fun _ _ => trivial
    exact hk.and_run.mono fun _ _ _ h => ⟨_, _, h.1⟩

/-- Any record that is written gives a sheet about itself, with the terms that its values were
written as. -/
theorem toGraph_rendered :
    naming.Keeps (toGraph cx r) (toGraph cx r)
      (fun g w' => ∃ rec b k sh, Rendered cx (fun m => m.Spells cx) w' r g rec b k sh ∧
        Numbered w.generated w'.generated sh.cellTerms ∧
        ∃ i, w.heap.record? r = some { rec with id := i }) w :=
  toGraph_writesAs (T := fun _ m => m.Spells cx) ⟨fun _ _ ht => ht⟩ nofun
    (fun _ _ => assignId_naming) fun _ _ _ _ _ _ _ _ _ _ => termOf_spells

end Engine

end GraphMarshal
