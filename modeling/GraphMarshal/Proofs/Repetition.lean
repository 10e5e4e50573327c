import GraphMarshal.Proofs.Deferral
import GraphMarshal.Proofs.Tagging
import Mathlib.Logic.Equiv.Basic

/-!
# Writing again

Writing a record gives identifiers and changes nothing else that records hold. When it has
succeeded, what it depends on stays: the values of the record as long as none is stored, the binding
of its type, and the names of the references that it holds. So the record is written again as it
was, whatever has been done in between. Only the cells of its lists are new.
-/

namespace GraphMarshal

open Engine Vocabulary

/-! ## Records that are left alone -/

/-- A record keeps its type and its values, and resolved types stay. -/
structure World.Spares (r : RecordRef) (w w' : World) : Prop where
  record : ∀ {rec}, w.heap.record? r = some rec → ∃ i, w'.heap.record? r = some { rec with id := i }
  binding : ∀ {ty b}, w.bindings.get? ty = some b → w'.bindings.get? ty = some b
  generated : w.generated ≤ w'.generated

namespace World.Spares

variable {r x : RecordRef} {w w₁ w₂ : World}

protected theorem refl (w : World) : Spares r w w :=
  ⟨fun {rec} hr => ⟨rec.id, hr⟩, fun h => h, Nat.le_refl _⟩

protected theorem trans (h : Spares r w w₁) (h' : Spares r w₁ w₂) : Spares r w w₂ where
  record hr := by
    obtain ⟨i, hi⟩ := h.record hr
    obtain ⟨j, hj⟩ := h'.record hi
    exact ⟨j, hj⟩
  binding hb := h'.binding (h.binding hb)
  generated := Nat.le_trans h.generated h'.generated

theorem of_frame {fixed : RecordRef → Prop} (h : w.Frame fixed w₁) (hr : fixed r) :
    Spares r w w₁ where
  record {rec} hrec := ⟨rec.id, h.record hr hrec⟩
  binding := h.binding
  generated := Nat.le_of_eq h.generated.symm

theorem of_identifies {closed : Prop} (h : w.Identifies closed w₁) : Spares r w w₁ where
  record hrec := by
    obtain ⟨i, hi, -⟩ := h.record hrec
    exact ⟨i, hi⟩
  binding := h.binding
  generated := h.generated

theorem of_eq (hrecords : w₁.heap.records = w.heap.records) (hb : w₁.bindings = w.bindings)
    (hg : w₁.generated = w.generated) : Spares r w w₁ where
  record {rec} hrec := by
    refine ⟨rec.id, ?_⟩
    unfold Heap.record? at hrec ⊢
    rw [hrecords]
    exact hrec
  binding h := hb ▸ h
  generated := Nat.le_of_eq hg.symm

end World.Spares

/-- Runs that leave a record alone. -/
def sparing (r : RecordRef) : Contract where
  step := World.Spares r
  halt _ := True
  compared _ := True
  refl := .refl
  trans := .trans
  log _ _ := .of_eq rfl rfl rfl
  back _ _ := trivial

theorem sparing_operates (r : RecordRef) : Operates (sparing r) where
  halt _ := trivial
  grow h := .of_frame h trivial
  identify h := .of_identifies h
  rest hheap hb _ hg := .of_eq (congrArg Heap.records hheap) hb hg

section

variable {cx : Setting} {w : World} {r : RecordRef} {x : Reference} {k : Resource}

theorem Operation.after_spares {op : Operation} (hop : ∀ member v, op ≠ .set r member v) :
    w.Spares r (op.after cx w) := by
  have hkeeps : (sparing r).Keeps (op.run cx) (op.run cx) (fun _ _ => True) w := by
    refine (sparing_operates r).run op (fun x member v _ _ hset _ _ => ?_) fun c _ => ?_
    · have hne : r ≠ x := fun heq => hop member v (by rw [hset, heq])
      exact .of_frame (.modify w x _) hne
    · exact (sparing_operates r).resolve fun _ _ => .of_eq rfl rfl rfl
  exact step_after hkeeps

theorem World.spares_run {ops : List Operation} (hops : ∀ member v, .set r member v ∉ ops) :
    w.Spares r (w.run cx ops) := by
  induction ops generalizing w with
  | nil => exact .refl w
  | cons op ops ih =>
    have hop : w.Spares r (op.after cx w) := Operation.after_spares fun member v heq =>
      hops member v (heq ▸ List.mem_cons_self)
    exact hop.trans (ih fun member v hmem => hops member v (List.mem_cons_of_mem _ hmem))

/-- What a reference names it names for good. One that is resolved keeps its record, and one that is
not names its own resource before and after. -/
theorem World.Stable.resource?_run (hw : w.Stable cx) (ops : List Operation)
    (hk : w.heap.resource? x = some k) : (w.run cx ops).heap.resource? x = some k := by
  have hlater : w.Later (w.run cx ops) := World.later_run ops hw.idle
  cases x with
  | eager a => exact hlater.designates (x := .eager a) hk
  | lazy c =>
    obtain ⟨cell, hc, hnames⟩ := Option.map_eq_some_iff.1 hk
    unfold Heap.cellResource at hnames
    cases hres : cell.resolved with
    | none =>
      rw [hres] at hnames
      have hdesignates : w.heap.Designates k (.lazy c) :=
        ⟨cell, hc, hnames, fun a ha => by rw [hres] at ha; cases ha⟩
      exact (hlater.designates hdesignates).resource?
    | some a =>
      obtain ⟨j, hj⟩ := hw.sound.anchored c cell a hc hres
      rw [hres, Option.bind_some, hj] at hnames
      have hcell : (w.run cx ops).heap.cell? c = some cell := World.cell?_run ops hc fun hnone => by
        rw [hres] at hnone
        cases hnone
      have hid : (w.run cx ops).heap.id? a = some j := hlater.designates (x := .eager a) hj
      refine Option.map_eq_some_iff.2 ⟨cell, hcell, ?_⟩
      unfold Heap.cellResource
      rw [hres, Option.bind_some, hid]
      exact hnames

theorem World.Stable.record?_run {rec : Record} {ops : List Operation} (hw : w.Stable cx)
    (hops : ∀ member v, .set r member v ∉ ops) (hrec : w.heap.record? r = some rec)
    (hk : rec.id = some k) : (w.run cx ops).heap.record? r = some rec := by
  obtain ⟨i, hi⟩ := (World.spares_run hops).record hrec
  have hid : (w.run cx ops).heap.id? r = some k :=
    World.Stable.resource?_run (x := .eager r) hw ops (Heap.id?_eq_some.2 ⟨rec, hrec, hk⟩)
  rw [Heap.id?, hi, Option.bind_some, ← hk] at hid
  rw [hi, show i = rec.id from hid]

end

/-! ## Cells under other names -/

/-- Renames the cells of a list. Where there are cells the object is the first of them. -/
def Entry.recell (ρ : Term → Term) (e : Entry) : Entry where
  predicate := e.predicate
  objects := if e.cells = [] then e.objects else e.objects.map ρ
  cells := e.cells.map fun c => (ρ c.1, c.2)

def Sheet.recell (ρ : Term → Term) (sh : Sheet) : Sheet :=
  { sh with entries := sh.entries.map (Entry.recell ρ) }

/-- Entries that differ at most in the cells of a list. -/
inductive Entry.Alike : Entry → Entry → Prop
  | objects (p : String) (os : List Term) :
      Alike { predicate := p, objects := os } { predicate := p, objects := os }
  | chain (p : String) {cells cells' : List (Term × Term)} :
      cells'.map (·.2) = cells.map (·.2) →
      Alike { predicate := p, objects := [Graph.headOf cells], cells }
        { predicate := p, objects := [Graph.headOf cells'], cells := cells' }

section

variable {ρ : Term → Term} {e e' : Entry} {es es' : List Entry}

theorem Entry.Alike.length_cellTerms (h : e.Alike e') :
    e'.cellTerms.length = e.cellTerms.length := by
  cases h with
  | objects p os => rfl
  | chain p hitems => simpa [cellTerms] using congrArg List.length hitems

theorem cells_eq_map : ∀ {cells cells' : List (Term × Term)},
    cells'.map (·.2) = cells.map (·.2) → cells'.map (·.1) = (cells.map (·.1)).map ρ →
    cells' = cells.map fun c => (ρ c.1, c.2)
  | [], [], _, _ => rfl
  | [], _ :: _, h, _ => by cases h
  | _ :: _, [], h, _ => by cases h
  | (a, u) :: cells, (b, v) :: cells', hitems, hcells => by
    simp only [List.map_cons, List.cons.injEq] at hitems hcells
    obtain ⟨rfl, hitems⟩ := hitems
    obtain ⟨rfl, hcells⟩ := hcells
    rw [cells_eq_map hitems hcells, List.map_cons]

theorem Entry.Alike.eq_recell (h : e.Alike e') (hcells : e'.cellTerms = e.cellTerms.map ρ) :
    e' = e.recell ρ := by
  cases h with
  | objects p os => rfl
  | @chain p cells cells' hitems =>
    obtain rfl := cells_eq_map hitems hcells
    unfold Entry.recell
    cases cells with
    | nil => rfl
    | cons c cells => rfl

theorem length_flatMap_cellTerms (h : List.Forall₂ Entry.Alike es es') :
    (es'.flatMap Entry.cellTerms).length = (es.flatMap Entry.cellTerms).length := by
  induction h with
  | nil => rfl
  | cons he _ ih =>
    simp only [List.flatMap_cons, List.length_append, he.length_cellTerms, ih]

theorem eq_map_recell (h : List.Forall₂ Entry.Alike es es')
    (hcells : es'.flatMap Entry.cellTerms = (es.flatMap Entry.cellTerms).map ρ) :
    es' = es.map (Entry.recell ρ) := by
  induction h with
  | nil => rfl
  | cons he _ ih =>
    rw [List.flatMap_cons, List.flatMap_cons, List.map_append] at hcells
    obtain ⟨hhead, htail⟩ := List.append_inj hcells (by rw [he.length_cellTerms, List.length_map])
    rw [List.map_cons, ← he.eq_recell hhead, ← ih htail]

/-- There is a renaming of terms into others of the same number that leaves all further terms. -/
theorem exists_renaming : ∀ {cs cs' : List Term}, (cs ++ cs').Nodup → cs'.length = cs.length →
    ∃ ρ : Equiv.Perm Term, cs' = cs.map ρ ∧ ∀ t, t ∉ cs → t ∉ cs' → ρ t = t
  | [], [], _, _ => ⟨Equiv.refl Term, rfl, fun _ _ _ => rfl⟩
  | [], _ :: _, _, h => by cases h
  | _ :: _, [], _, h => by cases h
  | c :: cs, c' :: cs', hnd, hlen => by
    have hfresh : (c :: c' :: (cs ++ cs')).Nodup := (List.perm_middle.cons c).nodup_iff.1 hnd
    simp only [List.nodup_cons, List.mem_cons, List.mem_append, not_or] at hfresh
    obtain ⟨⟨hne, hc, hc'⟩, ⟨hd, hd'⟩, hrest⟩ := hfresh
    obtain ⟨ρ, hρ, hfix⟩ := exists_renaming hrest (Nat.succ.inj hlen)
    refine ⟨ρ.trans (Equiv.swap c c'), ?_, fun t ht ht' => ?_⟩
    · have hhead : Equiv.swap c c' (ρ c) = c' := by rw [hfix c hc hc', Equiv.swap_apply_left]
      have htail : cs'.map (Equiv.swap c c') = cs' := by
        refine (List.map_congr_left fun t ht => ?_).trans (List.map_id cs')
        exact Equiv.swap_apply_of_ne_of_ne (fun h => hc' (h ▸ ht)) fun h => hd' (h ▸ ht)
      show c' :: cs' = Equiv.swap c c' (ρ c) :: cs.map (Equiv.swap c c' ∘ ρ)
      rw [hhead, ← List.map_map, ← hρ, htail]
    · simp only [List.mem_cons, not_or] at ht ht'
      show Equiv.swap c c' (ρ t) = t
      rw [hfix t ht.2 ht'.2, Equiv.swap_apply_of_ne_of_ne ht.1 ht'.1]

end

/-! ## What is recalled -/

/-- References name at least what they named. -/
def Heap.KeepsNames (h h' : Heap) : Prop :=
  ∀ x k, h.resource? x = some k → h'.resource? x = some k

/-- As long as references name what they name, a value is written as a term, and nothing else
happens. -/
def Engine.Recalls (cx : Setting) (w : World) (m : MemberBinding) (v : Value) (t : Term) : Prop :=
  ∀ w' : World, w.heap.KeepsNames w'.heap → termOf cx m v w' = .ok t w'

namespace Engine

variable {cx : Setting} {w w' : World} {r : RecordRef} {m : MemberBinding} {v : Value}

theorem referenceId_of_named {x : Reference} {k : Resource} (hk : w.heap.resource? x = some k) :
    referenceId (assignId cx) x w = .ok k w := by
  cases x with
  | eager a => exact assignId_of_identified hk
  | lazy c =>
    rw [referenceId, Run.bind_apply_ok (Run.get_apply w), hk]
    rfl

theorem recalls_lasts (ha : w.heap.Anchored) : Lasts False (Recalls cx) w where
  later h₁ h₂ ht := fun w' hw' => ht w' fun x k hk => hw' x k (h₂.resource? (h₁.anchored ha) hk)

/-- What a value is written as is recalled: a reference is named by then, and all else depends on no
world. -/
theorem termOf_recalls : WritesAs False cx (Recalls cx) m v w where
  term {w₁} _ := by
    by_cases hv : ∃ x, v = .ref x
    · obtain ⟨x, rfl⟩ := hv
      refine .bind referenceId_naming fun k w₂ _ hk => .pure ?_
      intro w' hw'
      show (referenceId (assignId cx) x >>= fun k => pure k.toTerm) w' = _
      rw [Run.bind_apply_ok (referenceId_of_named (hw' x k hk))]
      rfl
    · obtain ⟨e, heq, -⟩ : ∃ e, termOf cx m v = Run.ofExcept e ∧ _ :=
        termOf_eq_ofExcept fun x hx => hv ⟨x, hx⟩
      rw [heq]
      refine .ofExcept (fun t ht w' _ => ?_) fun _ _ => trivial
      rw [heq, ht]
      rfl

theorem toGraph_recalls (ha : w.heap.Anchored) :
    naming.Keeps (toGraph cx r) (toGraph cx r)
      (fun g w' => ∃ rec b k sh, Rendered cx (Recalls cx w') w' r g rec b k sh ∧
        Numbered w.generated w'.generated sh.cellTerms ∧
        ∃ i, w.heap.record? r = some { rec with id := i }) w :=
  toGraph_writesAs (recalls_lasts ha) nofun (fun _ _ => assignId_naming)
    fun _ _ _ _ _ _ _ _ _ _ => termOf_recalls

/-! ## The second time -/

theorem termsOf_recalled {vs : List Value} {ts : List Term}
    (h : List.Forall₂ (Recalls cx w m) vs ts) (hn : w.heap.KeepsNames w'.heap) :
    vs.mapM (termOf cx m) w' = .ok ts w' := by
  induction h with
  | nil => rfl
  | cons ht _ ih =>
    rw [List.mapM_cons, Run.bind_apply_ok (ht w' hn), Run.bind_apply_ok ih]
    rfl

theorem cellsOf_apply (ts : List Term) (w : World) :
    ∃ cells n, (ts.mapM fun t => do pure (← Run.generateBlank, t)) w =
      .ok cells { w with generated := n } := by
  induction ts generalizing w with
  | nil => exact ⟨[], w.generated, rfl⟩
  | cons t ts ih =>
    obtain ⟨cells, n, hcells⟩ := ih { w with generated := w.generated + 1 }
    have hcell : (do pure (← Run.generateBlank, t) : Run (Term × Term)) w =
        .ok (.generated w.generated, t) { w with generated := w.generated + 1 } := rfl
    refine ⟨(.generated w.generated, t) :: cells, n, ?_⟩
    rw [List.mapM_cons, Run.bind_apply_ok hcell, Run.bind_apply_ok hcells]
    rfl

/-- An entry is written with the same objects and items, and with cells of its own. -/
theorem memberTriples_recalled {subject : Term} {e : Entry}
    (h : Entry.Holds (Recalls cx w m) m v e) (hn : w.heap.KeepsNames w'.heap) :
    ∃ e' n, memberTriples cx subject m v w' = .ok (e'.triples subject) { w' with generated := n } ∧
      w'.generated ≤ n ∧ e.Alike e' ∧ Numbered w'.generated n e'.cellTerms := by
  cases h with
  | @single v t hv ht =>
    refine ⟨_, w'.generated, ?_, Nat.le_refl _, .objects m.predicate [t], .nil⟩
    unfold memberTriples
    split
    · exact absurd rfl (hv _)
    · rw [Run.bind_apply_ok (ht w' hn)]
      rfl
  | @bag vs ts hordered hts =>
    refine ⟨_, w'.generated, ?_, Nat.le_refl _, .objects m.predicate ts, .nil⟩
    rw [memberTriples, Run.bind_apply_ok (termsOf_recalled hts hn), if_neg (by simp [hordered]),
      Entry.triples, Graph.chain, List.append_nil]
    rfl
  | @chain vs cells hordered hts =>
    obtain ⟨cells', n, hcells⟩ := cellsOf_apply (cells.map (·.2)) w'
    have hk : naming.Keeps ((cells.map (·.2)).mapM fun t => do pure (← Run.generateBlank, t)) _ _ w' :=
      cellsOf_identifies
    obtain ⟨hgrown, ⟨hitems, hnumbered⟩, -⟩ := hk.ok hcells
    refine ⟨_, n, ?_, hgrown.generated, .chain m.predicate hitems, hnumbered⟩
    rw [memberTriples, Run.bind_apply_ok (termsOf_recalled hts hn), if_pos hordered,
      Run.bind_apply_ok hcells]
    rfl

theorem entries_recalled {subject : Term} {values : List (MemberBinding × Value)}
    {entries : List Entry}
    (h : List.Forall₂ (fun v e => Entry.Holds (Recalls cx w v.1) v.1 v.2 e) values entries) :
    ∀ w' : World, w.heap.KeepsNames w'.heap → ∃ entries' n,
      values.mapM (fun e => memberTriples cx subject e.1 e.2) w' =
        .ok (entries'.map (Entry.triples subject)) { w' with generated := n } ∧
      w'.generated ≤ n ∧ List.Forall₂ Entry.Alike entries entries' ∧
      Numbered w'.generated n (entries'.flatMap Entry.cellTerms) := by
  induction h with
  | nil => exact fun w' _ => ⟨[], w'.generated, rfl, Nat.le_refl _, .nil, .nil⟩
  | cons he _ ih =>
    intro w' hn
    obtain ⟨e', n, hrun, hle, halike, hcells⟩ := memberTriples_recalled he hn
    obtain ⟨entries', n', hrest, hle', hall, hcells'⟩ := ih { w' with generated := n } hn
    refine ⟨e' :: entries', n', ?_, Nat.le_trans hle hle', .cons halike hall,
      hcells.append hcells' hle hle'⟩
    rw [List.mapM_cons, Run.bind_apply_ok hrun, Run.bind_apply_ok hrest]
    rfl

/-- **A record is written as it was**, with cells of its own, where nothing that it is written with
has changed. -/
theorem toGraph_recalled {g : Graph} {rec : Record} {b : TypeBinding} {k : Resource} {sh : Sheet}
    (h : Rendered cx (Recalls cx w) w r g rec b k sh) (hn : w.heap.KeepsNames w'.heap)
    (hrec : w'.heap.record? r = some rec) (hb : w'.bindings.get? rec.type = some b) :
    ∃ g' entries n, toGraph cx r w' = .ok g' { w' with generated := n } ∧ w'.generated ≤ n ∧
      g'.triples = { sh with entries }.triples ∧ List.Forall₂ Entry.Alike sh.entries entries ∧
      Numbered w'.generated n (entries.flatMap Entry.cellTerms) := by
  have hid : assignId cx r w' = .ok k w' :=
    assignId_of_identified (Heap.id?_eq_some.2 ⟨rec, hrec, h.id⟩)
  obtain ⟨entries, n, hrun, hle, halike, hcells⟩ := entries_recalled h.entries w' hn
  refine ⟨{ triples := { sh with entries }.triples, prefixes := Table.ofList b.namespaces },
    entries, n, ?_, hle, rfl, halike, hcells⟩
  rw [toGraph, Run.bind_apply_ok (Run.recordAt_apply hrec), Run.bind_apply_ok (bindingOf_of_cached hb),
    Run.bind_apply_ok hid, Run.bind_apply_ok (Run.recordAt_apply hrec), Run.bind_apply_ok hrun,
    ← List.flatMap_def, Sheet.triples, h.subject, h.classIri]
  rfl

end Engine

/-! ## Renamed graphs -/

theorem Engine.Recalls.mentions {cx : Setting} {w : World} {m : MemberBinding} {v : Value} {t : Term}
    (h : Recalls cx w m v t) (ht : t.isBlank) :
    ∃ k : Resource, v.Mentions w.heap.resource? k ∧ t = k.toTerm := by
  have hrun := h w fun _ _ hk => hk
  by_cases hv : ∃ x, v = .ref x
  · obtain ⟨x, rfl⟩ := hv
    obtain ⟨k, w₁, hk, hpure⟩ := Run.bind_eq_ok.1 hrun
    cases hpure
    exact ⟨k, .ref (referenceId_naming.ok hk).2.1, rfl⟩
  · obtain ⟨e, heq, hterm⟩ : ∃ e, termOf cx m v = Run.ofExcept e ∧ _ :=
      termOf_eq_ofExcept fun x hx => hv ⟨x, hx⟩
    rw [heq] at hrun
    cases e with
    | error e => cases hrun
    | ok t' =>
      cases hrun
      obtain ⟨k, rfl, hk⟩ := (hterm _ rfl).2 ht
      exact ⟨k, .resource k, hk⟩

def Triple.map (ρ : Term → Term) (t : Triple) : Triple := ⟨ρ t.subject, ρ t.predicate, ρ t.object⟩

/-- The objects and items of an entry, which are no cells, have a property. -/
structure Entry.Plain (P : Term → Prop) (e : Entry) : Prop where
  objects : e.cells = [] → ∀ o ∈ e.objects, P o
  items : ∀ c ∈ e.cells, P c.2

section

variable {ρ : Term → Term} {e : Entry} {sh : Sheet} {P : Term → Prop}

theorem Entry.Plain.of_holds {T : Value → Term → Prop} {m : MemberBinding} {v : Value}
    (h : Entry.Holds T m v e) (hP : ∀ u ∈ v.elements, ∀ t, T u t → P t) (hnil : P .nil) :
    e.Plain P := by
  cases h with
  | @single v t hv ht =>
    rw [Value.elements_of_not_list hv, List.forall_mem_singleton] at hP
    exact ⟨fun _ => List.forall_mem_singleton.2 (hP t ht), nofun⟩
  | bag _ hts =>
    refine ⟨fun _ o ho => ?_, nofun⟩
    obtain ⟨u, hu, ht⟩ := exists_of_forall₂_right hts ho
    exact hP u hu o ht
  | @chain vs cells _ hts =>
    refine ⟨fun hcells => ?_, fun c hc => ?_⟩
    · obtain rfl : cells = [] := hcells
      exact List.forall_mem_singleton.2 hnil
    · obtain ⟨u, hu, ht⟩ := exists_of_forall₂_right hts (List.mem_map_of_mem hc)
      exact hP u hu c.2 ht

variable (hiri : ∀ i, ρ (.iri i) = .iri i)

include hiri

theorem headOf_recell (cells : List (Term × Term)) :
    Graph.headOf (cells.map fun c => (ρ c.1, c.2)) = ρ (Graph.headOf cells) := by
  cases cells with
  | nil => exact (hiri _).symm
  | cons c cells => rfl

theorem chain_recell {cells : List (Term × Term)} (h : ∀ c ∈ cells, ρ c.2 = c.2) :
    Graph.chain (cells.map fun c => (ρ c.1, c.2)) = (Graph.chain cells).map (Triple.map ρ) := by
  induction cells with
  | nil => rfl
  | cons c cells ih =>
    rw [List.forall_mem_cons] at h
    simp only [List.map_cons, Graph.chain, Triple.map, hiri, h.1, headOf_recell hiri, ih h.2]

theorem Entry.triples_recell {s : Term} (hs : ρ s = s) (h : e.Plain fun t => ρ t = t) :
    (e.recell ρ).triples s = (e.triples s).map (Triple.map ρ) := by
  have hobjects : (e.recell ρ).objects = e.objects.map ρ := by
    show (if e.cells = [] then e.objects else e.objects.map ρ) = _
    split
    · next hcells => exact ((List.map_congr_left (h.objects hcells)).trans (List.map_id _)).symm
    · rfl
  have hchain : Graph.chain (e.recell ρ).cells = (Graph.chain e.cells).map (Triple.map ρ) :=
    chain_recell hiri h.items
  unfold Entry.triples
  rw [hobjects, hchain, List.map_append, List.map_map, List.map_map]
  congr 1
  refine List.map_congr_left fun o _ => ?_
  show Triple.mk s (.iri e.predicate) (ρ o) = ⟨ρ s, ρ (.iri e.predicate), ρ o⟩
  rw [hs, hiri]

theorem Sheet.triples_recell (hs : ρ sh.subject = sh.subject)
    (h : ∀ e ∈ sh.entries, e.Plain fun t => ρ t = t) :
    (sh.recell ρ).triples = sh.triples.map (Triple.map ρ) := by
  show _ :: (sh.entries.map (Entry.recell ρ)).flatMap (Entry.triples sh.subject) = _
  rw [Sheet.triples, List.map_cons, List.flatMap_map, List.map_flatMap]
  congr 1
  · show Triple.mk sh.subject (.iri Rdf.type) (.iri sh.classIri) =
      ⟨ρ sh.subject, ρ (.iri Rdf.type), ρ (.iri sh.classIri)⟩
    rw [hs, hiri, hiri]
  · exact List.flatMap_congr fun e he => e.triples_recell hiri hs (h e he)

end

theorem Value.mentions_of_mem_elements {name : Reference → Option Resource} {v u : Value}
    {k : Resource} (hu : u ∈ v.elements) (hk : u.Mentions name k) : v.Mentions name k := by
  unfold elements at hu
  split at hu
  · exact .list hu hk
  · rwa [← List.mem_singleton.1 hu]

/-- Renaming what is new since `n` renames the cells alone, if nothing else that is written has a
new name. -/
theorem Rendered.triples_recell {cx : Setting} {w : World} {r : RecordRef} {g : Graph}
    {rec : Record} {b : TypeBinding} {k : Resource} {sh : Sheet} {n : Nat} {ρ : Term → Term}
    (h : Rendered cx (Recalls cx w) w r g rec b k sh)
    (hold : ∀ t, (∀ i, n ≤ i → t ≠ .generated i) → ρ t = t) (hk : k.Older n)
    (hrec : rec.Older cx w.heap.resource? b n) :
    (sh.recell ρ).triples = g.triples.map (Triple.map ρ) := by
  rw [h.triples]
  refine Sheet.triples_recell (fun i => hold _ fun _ _ => nofun) ?_ fun e he => ?_
  · exact hold _ fun i hi => h.subject ▸ hk i hi
  · obtain ⟨⟨m, v⟩, hmem, hholds⟩ := exists_of_forall₂_right h.entries he
    refine .of_holds hholds (fun u hu t ht => hold t fun i hi heq => ?_) (hold _ fun _ _ => nofun)
    -- A new blank node among the terms would be a resource that the record mentions.
    obtain ⟨j, hj, rfl⟩ := ht.mentions (heq ▸ rfl)
    obtain ⟨hm, hwritten⟩ := mem_writtenValues.1 hmem
    have hget := (Record.written_eq_some.1 hwritten).1
    exact hrec m hm v hget j (Value.mentions_of_mem_elements hu hj) i hi heq

namespace Engine

/-- **Writing changes nothing but missing identifiers, and it repeats itself.** However it ends,
every record keeps its type, its values and the identifier that it has, and deferred references and
registered classes are the same. A record that is written is written again after any operations that
store nothing in it, with the same triples in the same order, but for the labels of the cells of its
lists. These are new ones, and if no resource on the sheet is labelled like a cell, then relabelling
the cells turns the one graph into the other. -/
theorem toGraph_repeats (cx : Setting) (w : World) (r : RecordRef) (hw : w.Reachable cx) :
    w.Identifies False ((Operation.write r).after cx w) ∧
    ∀ g w₁, toGraph cx r w = .ok g w₁ → ∃ rec b k, ∃ sh : Sheet, w₁.heap.record? r = some rec ∧
      rec.id = some k ∧ w₁.bindings.get? rec.type = some b ∧
      (∃ i, w.heap.record? r = some { rec with id := i }) ∧
      g.triples = sh.triples ∧ Numbered w.generated w₁.generated sh.cellTerms ∧
      ∀ ops, (∀ member v, Operation.set r member v ∉ ops) →
        ∃ g' n, ∃ ρ : Equiv.Perm Term,
          toGraph cx r (w₁.run cx ops) = .ok g' { w₁.run cx ops with generated := n } ∧
          g'.triples = (sh.recell ρ).triples ∧
          Numbered (w₁.run cx ops).generated n (sh.recell ρ).cellTerms ∧
          (∀ t, (∀ i, w.generated ≤ i → t ≠ .generated i) → ρ t = t) ∧
          (k.Older w.generated → rec.Older cx w₁.heap.resource? b w.generated →
            g'.triples = g.triples.map (Triple.map ρ)) := by
  have hwrites : naming.Keeps ((Operation.write r).run cx) ((Operation.write r).run cx)
      (fun _ _ => True) w := .ignored (toGraph_keeps (naming_assigns cx).encodes)
  refine ⟨Operation.step_after hwrites, fun g w₁ hrun => ?_⟩
  obtain ⟨hids, ⟨rec, b, k, sh, hren, hcells, hbefore⟩, -⟩ :=
    (toGraph_recalls hw.stable.sound.anchored).ok hrun
  refine ⟨rec, b, k, sh, hren.record, hren.id, hren.binding, hbefore, hren.triples, hcells,
    fun ops hops => ?_⟩
  have hstable : w₁.Stable cx := World.Preserves.stable (toGraph_preserves.ok hrun).1 hw.stable
  have hnames : w₁.heap.KeepsNames (w₁.run cx ops).heap := fun x j => hstable.resource?_run ops
  have hspares : w₁.Spares r (w₁.run cx ops) := World.spares_run hops
  obtain ⟨g', entries, n, hrun', hle, htriples, halike, hcells'⟩ :=
    toGraph_recalled hren hnames (hstable.record?_run hops hren.record hren.id)
      (hspares.binding hren.binding)
  have hcells'' : Numbered w.generated n (sh.cellTerms ++ entries.flatMap Entry.cellTerms) :=
    hcells.append (hcells'.mono hspares.generated (Nat.le_refl n)) hids.generated
      (Nat.le_trans hspares.generated hle)
  obtain ⟨ρ, hρ, hfix⟩ := exists_renaming hcells''.nodup (length_flatMap_cellTerms halike)
  obtain rfl : entries = sh.entries.map (Entry.recell ρ) := eq_map_recell halike hρ
  have hold : ∀ t, (∀ i, w.generated ≤ i → t ≠ .generated i) → ρ t = t := fun t ht => by
    have hnot : t ∉ sh.cellTerms ++ _ := fun hmem => by
      obtain ⟨i, hi, heq⟩ := hcells''.exists_index hmem
      exact ht i hi heq
    exact hfix t (fun h => hnot (List.mem_append_left _ h)) fun h => hnot (List.mem_append_right _ h)
  exact ⟨g', n, ρ, hrun', htriples, hcells', hold, fun hk hrec =>
    htriples.trans (hren.triples_recell hold hk hrec)⟩

/-- What is done between two writings of the first note: the other note changes, and prefixes. -/
def noteInterlude : List Operation :=
  [.set ⟨1⟩ "title" (.string "B"), .declare "http" "urn:", .write ⟨1⟩, .assignId ⟨0⟩]

/-- The names that the notes have once the first is written. -/
def noteNames (_ : Graph) (w₁ : World) : Bool :=
  w₁.heap.id? ⟨0⟩ = some (.iri "http://ex/a") ∧ w₁.heap.id? ⟨1⟩ = some (.iri "http://ex/b")

/-- The first note is written twice, and its list of tags gets other cells. -/
theorem toGraph_repeats_note : noteWorld.Reachable noteSetting ∧ ∃ g w₁,
    toGraph noteSetting ⟨0⟩ noteWorld = .ok g w₁ ∧
    (∀ member v, Operation.set ⟨0⟩ member v ∉ noteInterlude) ∧
    ∃ g' w₂, ∃ ρ : Equiv.Perm Term,
      toGraph noteSetting ⟨0⟩ (w₁.run noteSetting noteInterlude) = .ok g' w₂ ∧
      g'.triples = g.triples.map (Triple.map ρ) := by
  have hw : noteWorld.Reachable noteSetting := World.Reachable.initial.run noteOperations
  obtain ⟨g, w₁, hwritten, htest⟩ :=
    Run.exists_ok (p := noteNames) (x := toGraph noteSetting ⟨0⟩ noteWorld) (by decide +kernel)
  obtain ⟨hid, hid'⟩ := of_decide_eq_true htest
  have hops : ∀ member v, Operation.set ⟨0⟩ member v ∉ noteInterlude := by
    intro member v hmem
    simp [noteInterlude] at hmem
  refine ⟨hw, g, w₁, hwritten, hops, ?_⟩
  obtain ⟨-, hrepeats⟩ := toGraph_repeats noteSetting noteWorld ⟨0⟩ hw
  obtain ⟨rec, b, k, sh, hrec, hk, hb, ⟨i, hbefore⟩, -, -, hagain⟩ := hrepeats g w₁ hwritten
  obtain rfl : k = .iri "http://ex/a" :=
    Option.some.inj ((Heap.id?_eq_some.2 ⟨rec, hrec, hk⟩).symm.trans hid)
  obtain rfl : rec = firstNote := by
    have hsame : firstNote = { rec with id := i } := Option.some.inj hbefore
    obtain ⟨type, id, values⟩ := rec
    simp only [firstNote, Record.mk.injEq] at hsame hk ⊢
    exact ⟨hsame.1.symm, hk, hsame.2.2.symm⟩
  obtain rfl : b = noteBinding := by
    have hwrites : naming.Keeps (toGraph noteSetting ⟨0⟩) (toGraph noteSetting ⟨0⟩)
        (fun _ _ => True) noteWorld := toGraph_keeps (naming_assigns noteSetting).encodes
    have hbound := (hwrites.ok hwritten).1.binding firstNote_faithful.bound
    exact Option.some.inj (hb.symm.trans hbound)
  have holder : firstNote.Older noteSetting w₁.heap.resource? noteBinding noteWorld.generated := by
    refine firstNote_older _ fun i hi j hj => ?_
    obtain rfl | rfl : i = 0 ∨ i = 1 := by omega
    · cases hid.symm.trans hj
      rfl
    · cases hid'.symm.trans hj
      rfl
  obtain ⟨g', n, ρ, hrun, -, -, -, hlabels⟩ := hagain noteInterlude hops
  exact ⟨g', _, ρ, hrun, hlabels (Resource.older_of_not_isBlank _ rfl) holder⟩

end Engine

end GraphMarshal
