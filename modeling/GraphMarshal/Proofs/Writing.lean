import GraphMarshal.Proofs.Copies
import GraphMarshal.Proofs.Rendering

/-!
# Writing records

If every member holds a value that it declares, the sheet that is written of a record shows it: the
terms of an entry stand for the value of the member, or for its elements.
-/

namespace GraphMarshal

open Vocabulary

/-! ## Declared values -/

/-- The values that a member is declared to hold, one by one. -/
inductive MemberBinding.Takes (s : Schema) (m : MemberBinding) : Value → Prop
  | scalar {v : Value} : m.kind.isScalar → v.Scalar m.kind → Takes s m v
  | uri (u : String) : m.kind = .uri → (m.xsdUri → Text.isAbsoluteUri u.toList) → Takes s m (.uri u)
  | resource (k : Resource) : m.kind = .resource → Takes s m (.resource k)
  | ref {target : TypeName} (x : Reference) : m.kind = .ref (some target) → s.carriesId target →
    Takes s m (.ref x)

/-- The values that a member is declared to hold: one of them, or a list. -/
def MemberBinding.Declares (s : Schema) (m : MemberBinding) (v : Value) : Prop :=
  if m.collection then ∃ vs, v = .list vs ∧ ∀ e ∈ vs, m.Takes s e else m.Takes s v

theorem MemberBinding.Takes.not_list {s : Schema} {m : MemberBinding} {v : Value}
    (h : m.Takes s v) :
    ∀ items, v ≠ .list items := by
  rintro items rfl
  cases h with
  | scalar _ hv =>
    generalize m.kind = k at hv
    cases hv

theorem MemberBinding.Declares.takes {s : Schema} {m : MemberBinding} {v : Value}
    (h : m.Declares s v) : ∀ u ∈ v.elements, m.Takes s u := by
  unfold Declares at h
  split at h
  · obtain ⟨vs, rfl, hvs⟩ := h
    exact hvs
  · rw [Value.elements_of_not_list h.not_list, List.forall_mem_singleton]
    exact h

/-! ## Entries -/

/-- An entry shows a value: by one object, by an object for each element, or by the head of a
list. -/
inductive Entry.Writes (name : Reference → Option Resource) (m : MemberBinding) :
    Value → Entry → Prop
  | single {v : Value} {t : Term} : (∀ items, v ≠ .list items) →
      Denotes name (fun _ _ => True) m t v →
      Writes name m v { predicate := m.predicate, objects := [t] }
  | bag {vs : List Value} {ts : List Term} : m.ordered = false →
      List.Forall₂ (Denotes name (fun _ _ => True) m) ts vs →
      Writes name m (.list vs) { predicate := m.predicate, objects := ts }
  | chain {vs : List Value} {cells : List (Term × Term)} : m.ordered →
      List.Forall₂ (Denotes name (fun _ _ => True) m) (cells.map (·.2)) vs →
      Writes name m (.list vs) { predicate := m.predicate, objects := [Graph.headOf cells], cells }

theorem Entry.Writes.predicate {name : Reference → Option Resource} {m : MemberBinding} {v : Value}
    {e : Entry} (h : Entry.Writes name m v e) : e.predicate = m.predicate := by
  cases h <;> rfl

theorem Entry.Writes.mono {name name' : Reference → Option Resource} {m : MemberBinding} {v : Value}
    {e : Entry} (h : Entry.Writes name m v e) (hn : ∀ r k, name r = some k → name' r = some k) :
    Entry.Writes name' m v e := by
  have hd : ∀ {t v}, Denotes name (fun _ _ => True) m t v → Denotes name' (fun _ _ => True) m t v :=
    fun hd =>
    hd.mono (fun r k _ => hn r k) fun _ _ _ _ _ _ => trivial
  cases h with
  | single hv ht => exact .single hv (hd ht)
  | bag ho hts => exact .bag ho (hts.imp fun _ _ => hd)
  | chain ho hts => exact .chain ho (hts.imp fun _ _ => hd)

theorem Entry.Writes.of_holds {name : Reference → Option Resource} {m : MemberBinding} {v : Value}
    {e : Entry} (h : Entry.Holds (fun u t => Denotes name (fun _ _ => True) m t u) m v e) :
    Entry.Writes name m v e := by
  cases h with
  | single hv ht => exact .single hv ht
  | bag ho hts => exact .bag ho hts.flip
  | chain ho hts => exact .chain ho hts.flip

namespace Engine

variable {closed : Prop} {cx : Setting} {w : World} {S : RecordRef → Prop}
    {m : MemberBinding} {v : Value}

/-- What writing may rely on in a world. -/
structure Writable (cx : Setting) (closed : Prop) (S : RecordRef → Prop) (w : World) : Prop where
  anchored : w.heap.Anchored
  closed : closed → w.Closed S

theorem Writable.step {w' : World} (h : Writable cx closed S w) (hs : w.Identifies closed w') :
    Writable cx closed S w' where
  anchored := hs.anchored h.anchored
  closed hc := hs.closed_of (h.closed hc)

theorem literal_identifies (closed : Prop) (cx : Setting) (w : World) {k : Kind} (hk : m.kind = k)
    (hv : v.Scalar k) (hadmits : ∀ t : Term, t.isLiteral → k.admits t) (hatom : v.IsAtom) :
    (identifying closed).Keeps
      (if cx.config.strongTyping then Run.ofExcept (Literal.encode v m.language) else pure
      (.string v.lexical))
      (if cx.config.strongTyping then Run.ofExcept (Literal.encode v m.language) else pure
      (.string v.lexical))
      (fun t w' => Denotes w'.heap.resource? (fun _ _ => True) m t v) w := by
  subst hk
  split
  · obtain ⟨t, henc, hlit, hdec⟩ := Literal.decode_encode hv m.language
    rw [henc]
    exact .pure (.literal hlit (hadmits t hlit) hdec hatom)
  · exact .pure (.literal rfl (hadmits _ rfl) (Literal.decode_lexical hv) hatom)

/-- **Terms** that values are written as stand for them. -/
theorem termOf_identifies (hw : Writable cx closed S w) (hv : m.Takes cx.schema v)
    (hrefs : closed → ∀ x, v.Refers x → ∃ a, x = .eager a ∧ S a) :
    (identifying closed).Keeps (termOf cx m v) (termOf cx m v)
      (fun t w' => Denotes w'.heap.resource? (fun _ _ => True) m t v) w := by
  cases hv with
  | scalar hscalar hv =>
    have hadmits : ∀ t : Term, t.isLiteral → m.kind.admits t := fun t ht => by
      unfold Kind.admits
      rw [if_pos hscalar]
      exact ht
    have hliteral := literal_identifies closed cx w rfl hv hadmits
    generalize m.kind = k at hv hscalar
    cases hv with
    | uri u _ => cases hscalar
    | _ => exact hliteral trivial
  | uri u hk habs =>
    cases hx : m.xsdUri with
    | false =>
      have hterm : termOf cx m (.uri u) = pure (.iri u) := by simp only [termOf, hx]
      rw [hterm]
      exact .pure (.uri u hk)
    | true =>
      have hterm : termOf cx m (.uri u) = if cx.config.strongTyping then
          Run.ofExcept (Literal.encode (.uri u) m.language) else pure
            (.string (Value.uri u).lexical) := by
        simp only [termOf, hx]
      rw [hterm]
      exact literal_identifies closed cx w hk (.uri u (habs hx)) (fun _ _ => rfl) trivial
  | resource k hk => exact .pure (.resource k hk)
  | ref x hk hT =>
    refine .bind (referenceId_identifies fun a ha => ?_)
      fun k w' _ hx => .pure (.ref k hk hx trivial)
    subst ha
    refine assignId_identifies hw.closed fun hc => ?_
    obtain ⟨a', ha', hS⟩ := hrefs hc _ (.ref _)
    cases ha'
    exact hS

theorem denotes_identified {w' : World} {t : Term}
    (hd : Denotes w.heap.resource? (fun _ _ => True) m t v) (ha : w.heap.Anchored)
    (hs : w.Identifies closed w') :
    Denotes w'.heap.resource? (fun _ _ => True) m t v :=
  hd.mono (fun _ _ _ hname => hs.resource? ha hname) fun _ _ _ _ _ _ => trivial

/-! ## Records -/

theorem writtenValues_eq (cx : Setting) (b : TypeBinding) (rec : Record) :
    writtenValues cx b rec =
      b.members.filterMap fun m => (rec.written cx.schema m.name).map fun v => (m, v) := by
  unfold writtenValues Record.written
  refine List.filterMap_congr fun m _ => ?_
  cases rec.get? cx.schema m.name with
  | none => rfl
  | some v => cases hempty : v.isEmpty <;> simp [Option.filter, hempty]

theorem mem_writtenValues {b : TypeBinding} {rec : Record} :
    (m, v) ∈ writtenValues cx b rec ↔ m ∈ b.members ∧ rec.written cx.schema m.name = some v := by
  rw [writtenValues_eq, List.mem_filterMap]
  constructor
  · rintro ⟨m', hm', h⟩
    obtain ⟨v', hv', heq⟩ := Option.map_eq_some_iff.1 h
    cases heq
    exact ⟨hm', hv'⟩
  · rintro ⟨hm, hv⟩
    exact ⟨m, hm, by rw [hv]; rfl⟩

/-- A sheet shows a record: its class, and an entry for every value that is written. -/
structure Shows (cx : Setting) (name : Reference → Option Resource) (rec : Record) (b : TypeBinding)
    (k : Resource) (sh : Sheet) : Prop where
  subject : sh.subject = k.toTerm
  classIri : sh.classIri = b.classIri
  entries : List.Forall₂ (fun v e => Entry.Writes name v.1 v.2 e)
    (writtenValues cx b rec) sh.entries

theorem Shows.mono {name name' : Reference → Option Resource} {rec : Record} {b : TypeBinding}
    {k : Resource} {sh : Sheet} (h : Shows cx name rec b k sh)
    (hn : ∀ r k, name r = some k → name' r = some k) :
    Shows cx name' rec b k sh where
  subject := h.subject
  classIri := h.classIri
  entries := h.entries.imp fun _ _ he => he.mono hn

/-- **A record is written** as a sheet that shows it, with cells of its own. -/
theorem toGraph_identifies {r : RecordRef} {rec : Record} {b : TypeBinding}
    (hw : Writable cx closed S w) (hr : closed → S r) (hrec : w.heap.record? r = some rec)
    (hb : w.bindings.get? rec.type = some b)
    (hv : ∀ m ∈ b.members, ∀ v, rec.written cx.schema m.name = some v → m.Declares cx.schema v) :
    (identifying closed).Keeps (toGraph cx r) (toGraph cx r)
      (fun g w' => ∃ k sh, w'.heap.id? r = some k ∧ g.triples = sh.triples ∧
        Shows cx w'.heap.resource? rec b k sh ∧
        Numbered w.generated w'.generated sh.cellTerms) w := by
  have hrefs : closed → ∀ name v x, rec.get? cx.schema name = some v → v.Refers x →
      ∃ a, x = .eager a ∧ S a := fun hc name v x hget hx => by
    obtain ⟨rec', b', hrec', -, hin⟩ := hw.closed hc r (hr hc)
    rw [hrec] at hrec'
    cases hrec'
    rcases Record.get?_eq_some hget with hstored | hnil
    · exact hin _ _ x hstored hx
    · rw [hnil] at hx
      cases hx with
      | list hmem _ => cases hmem
  have hlasts : Lasts closed (fun w m u t => Denotes w.heap.resource? (fun _ _ => True) m t u) w :=
    ⟨fun h₁ h₂ hd => denotes_identified hd (hw.step h₁).anchored h₂⟩
  refine (toGraph_writesAs hlasts (fun rec' hrec' _ => ?bound)
    (fun w₁ h₁ => assignId_identifies (hw.step h₁).closed hr) ?term).and_step.mono ?sheet
  case bound =>
    rw [hrec] at hrec'
    cases hrec'
    exact ⟨b, hb⟩
  case term =>
    intro w₁ rec₁ b₁ h₁ hrec₁ hb₁ e he u hu
    obtain ⟨i, hi, -⟩ := h₁.record hrec
    rw [hrec₁] at hi
    cases hi
    cases (h₁.binding hb).symm.trans hb₁
    obtain ⟨hm, hwritten⟩ := mem_writtenValues.1 he
    refine ⟨fun h₂ => termOf_identifies ((hw.step h₁).step h₂) ((hv _ hm _ hwritten).takes u hu)
      fun hc x hx => ?_⟩
    exact hrefs hc _ _ x (Record.written_eq_some.1 hwritten).1 (Value.refers_of_mem_elements hu hx)
  case sheet =>
    intro g w' _ h
    obtain ⟨hs, rec', b', k, sh, hsheet, hcells, i, hbefore⟩ := h
    rw [hrec] at hbefore
    cases hbefore
    cases (hs.binding hb).symm.trans hsheet.binding
    exact ⟨k, sh, Heap.id?_eq_some.2 ⟨_, hsheet.record, hsheet.id⟩, hsheet.triples,
      ⟨hsheet.subject, hsheet.classIri, hsheet.entries.imp fun _ _ he => .of_holds he⟩, hcells⟩

end Engine

end GraphMarshal
