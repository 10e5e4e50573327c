import GraphMarshal.Engine.Read
import GraphMarshal.Proofs.Contract
import Mathlib.Data.List.Basic

/-!
# Reading under a contract

What holds of the steps that read one resource, whatever the contract: they log calls to the source,
they make deferred references, and they ask for related resources, all of which are nodes of the
source. `Reads` collects what a contract has to grant for these three; then it is kept by every step
up to the value of a member (`memberValue_keeps`). What such a step may fail for besides is the same
under every contract, and `MemberFault` lists it.
-/

namespace GraphMarshal

/-! ## Values without references -/

/-- Neither a reference nor a list. -/
def Value.IsAtom : Value → Prop
  | .ref _ => False
  | .list _ => False
  | _ => True

theorem Literal.conform_isAtom (text : String) (k : Kind) : (Literal.conform text k).IsAtom := by
  unfold conform
  cases h : parsePlain text k with
  | none => trivial
  | some v =>
    cases k <;> simp only [parsePlain, Option.map_eq_some_iff] at h
    case char => split at h <;> cases h; trivial
    case uri => split at h <;> cases h; trivial
    all_goals first
      | (obtain ⟨_, _, rfl⟩ := h; trivial)
      | cases h

theorem Literal.orFault_eq_ok {x : Option Value} {e : LiteralFault} {v : Value}
    (h : orFault x e = .ok (some v)) : x = some v := by
  cases x <;> cases h; rfl

theorem Literal.ofInteger_eq_ok {x : Except Number.IntegerError Value} {v : Value}
    (h : ofInteger x = .ok (some v)) : x = .ok v := by
  cases x <;> cases h; rfl

theorem isAtom_of_map {α : Type} {x : Option α} {f : α → Value} {v : Value} (h : x.map f = some v)
    (hf : ∀ a, (f a).IsAtom) : v.IsAtom := by
  obtain ⟨a, -, rfl⟩ := Option.map_eq_some_iff.1 h; exact hf a

theorem isAtom_of_mapOk {α ε : Type} {x : Except ε α} {f : α → Value} {v : Value}
    (h : x.map f = .ok v) (hf : ∀ a, (f a).IsAtom) : v.IsAtom := by
  cases x <;> cases h; exact hf _

theorem Literal.ofInt64_isAtom (n : Int64) : (ofInt64 n).IsAtom := by
  unfold ofInt64; split <;> trivial

theorem isAtom_of_ite {c : Prop} [Decidable c] {x y : Except LiteralFault (Option Value)}
    {v : Value} (h : (if c then x else y) = .ok (some v)) (hx : x = .ok (some v) → v.IsAtom)
    (hy : y = .ok (some v) → v.IsAtom) : v.IsAtom := by
  by_cases hc : c
  · rw [if_pos hc] at h
    exact hx h
  · rw [if_neg hc] at h
    exact hy h

theorem Literal.decodeTyped_isAtom {lexical iri : String} {k : Kind} {v : Value}
    (h : decodeTyped lexical iri k = .ok (some v)) : v.IsAtom := by
  have read : ∀ {α : Type} {x : Option α} {f : α → Value} {e : LiteralFault},
      orFault (x.map f) e = .ok (some v) → (∀ a, (f a).IsAtom) → v.IsAtom := fun h hf =>
    isAtom_of_map (orFault_eq_ok h) hf
  have integer : ∀ {α : Type} {x : Except Number.IntegerError α} {f : α → Value},
      ofInteger (x.map f) = .ok (some v) → (∀ a, (f a).IsAtom) → v.IsAtom := fun h hf =>
    isAtom_of_mapOk (ofInteger_eq_ok h) hf
  unfold decodeTyped at h
  -- One case for each family of datatypes, in the order in which they are tried.
  refine isAtom_of_ite h (fun h => read h fun _ => trivial) fun h => ?_
  refine isAtom_of_ite h (fun h => integer h ofInt64_isAtom) fun h => ?_
  refine isAtom_of_ite h (fun h => integer h fun _ => trivial) fun h => ?_
  refine isAtom_of_ite h (fun h => read h fun _ => trivial) fun h => ?_
  refine isAtom_of_ite h (fun h => read h fun _ => trivial) fun h => ?_
  refine isAtom_of_ite h (fun h => integer h fun _ => trivial) fun h => ?_
  refine isAtom_of_ite h (fun h => integer h fun _ => trivial) fun h => ?_
  refine isAtom_of_ite h (fun h => ?uri) fun h => ?_
  case uri =>
    split at h <;> cases h
    trivial
  refine isAtom_of_ite h (fun h => read h fun _ => trivial) fun h => ?_
  refine isAtom_of_ite h (fun h => read h fun _ => trivial) fun h => ?_
  split at h <;> cases h
  trivial

theorem Literal.decode_isAtom {t : Term} {k : Kind} {v : Value}
    (h : Literal.decode t k = .ok (some v)) : v.IsAtom := by
  unfold decode at h
  split at h
  · split at h
    · cases h; exact conform_isAtom _ _
    · split at h
      · next hd => cases h; exact decodeTyped_isAtom hd
      · cases h
  · cases h

/-! ## Nodes of a source -/

/-- A term that is a node of a source if it is a resource at all. -/
def Source.Knows (src : Source) (t : Term) : Prop :=
  ∀ n, Resource.ofTerm? t = some n → n ∈ src.nodes

/-- The errors of requests that a source refuses. -/
def Source.Refuses (src : Source) (e : MappingError) : Prop :=
  ∃ f, e = .source f ∧ ((∃ n, src.describe n = .error f) ∨ ∃ q, src.query q = .error f)

theorem Graph.mem_objectResources_of_objects {g : Graph} {s : Term} {p : String} {t : Term}
    {n : Resource} (ht : t ∈ g.objects s p) (hn : Resource.ofTerm? t = some n) :
    n ∈ g.objectResources := by
  obtain ⟨tr, htr, -, -, rfl⟩ := mem_objects_iff.1 ht
  exact List.mem_filterMap.2 ⟨tr, htr, hn⟩

theorem Graph.mem_objectResources_of_listItems {g : Graph} {head t : Term} {ts : List Term}
    {n : Resource} (h : g.listItems head = some ts) (ht : t ∈ ts)
    (hn : Resource.ofTerm? t = some n) :
    n ∈ g.objectResources := by
  unfold listItems at h
  split at h
  · cases h
    obtain ⟨c, -, hc⟩ := List.mem_filterMap.1 ht
    exact mem_objectResources_of_objects (mem_objects_of_object? hc) hn
  · cases h

theorem MemberBinding.mem_of_mem_collected {c : Config} {m : MemberBinding} {objects : List Term}
    {t : Term} (h : t ∈ m.collected c objects) : t ∈ objects := by
  unfold collected at h
  split at h
  · exact mem_distinct.1 (List.mem_filter.1 h).1
  · exact mem_distinct.1 h

theorem mem_of_mem_preferLanguage {lang : String} {ts : List Term} {t : Term}
    (h : t ∈ preferLanguage lang ts) : t ∈ ts := by
  simp only [preferLanguage] at h
  split at h
  · exact (List.mem_filter.1 h).1
  · split at h
    · exact (List.mem_filter.1 h).1
    · exact h

theorem MemberBinding.mem_of_mem_candidates {c : Config} {m : MemberBinding} {objects : List Term}
    {t : Term} (h : t ∈ m.candidates c objects) : t ∈ objects := by
  have hsub : ∀ u ∈ (distinct objects).filter m.kind.admits, u ∈ objects := fun u hu =>
    mem_distinct.1 (List.mem_filter.1 hu).1
  simp only [candidates] at h
  split at h
  · exact hsub t h
  · split at h
    · exact hsub t (List.mem_filter.1 h).1
    · exact hsub t (mem_of_mem_preferLanguage h)

theorem length_filter_lt {α : Type} {l : List α} {p q : α → Bool} (hpq : ∀ a, q a → p a) {a : α}
    (ha : a ∈ l) (hp : p a) (hq : ¬ q a) : (l.filter q).length < (l.filter p).length := by
  have h : l.filter q = (l.filter p).filter q := by
    rw [List.filter_filter]
    exact List.filter_congr fun b _ => by
      cases hb : q b with
      | false => rfl
      | true => simp [hpq b hb]
  rw [h]
  exact List.length_filter_lt_length_iff_exists.2 ⟨a, List.mem_filter.2 ⟨ha, hp⟩, hq⟩

namespace Engine

/-! ## Faults -/

/-- What stands against a node as the value of a member. -/
inductive NodeFlaw (m : MemberBinding) (node : Resource) : Flaw → Prop
  | blankUri : m.kind = .uri → node.isBlank → NodeFlaw m node (.blankUri node m.name)
  | untyped : m.kind = .ref none → NodeFlaw m node (.untypedNode node m.name)
  | scalar : NodeFlaw m node (.nodeForScalar node m.kind.name m.name)

/-- Why reading a term for a member fails, where reading a related resource fails for reasons `N`. A
node is no reason but in strict mode. -/
inductive TermFault (cx : Setting) (m : MemberBinding) (N : MappingError → Prop) (t : Term) :
    MappingError → Prop
  | undecoded {e : MappingError} : Resource.ofTerm? t = none → Literal.decode t m.kind = .error e →
    TermFault cx m N t e
  | flawed {node : Resource} {flaw : Flaw} : cx.config.strict → Resource.ofTerm? t = some node →
    NodeFlaw m node flaw → TermFault cx m N t (.invalid flaw)
  | unmaterialized {node : Resource} {e : MappingError} : cx.config.strict →
    Resource.ofTerm? t = some node → N e →
    TermFault cx m N t (.caused (.unmaterialized node m.name) e)

/-- Why reading an element of a collection fails: it may have no value besides. -/
inductive ElementFault (cx : Setting) (read : Reader) (rd : Reading) (m : MemberBinding)
    (N : MappingError → Prop) (t : Term) : MappingError → Prop
  | term {e : MappingError} : TermFault cx m N t e → ElementFault cx read rd m N t e
  | empty {w w' : World} : termValue cx read rd m t w = .ok none w' →
    ElementFault cx read rd m N t (.invalid (.badElement t m.name))

/-- The elements that objects offer to a collection: themselves and the items of lists that they
start. -/
inductive Offered (src : Source) (rd : Reading) (m : MemberBinding) (objects : List Term) :
    Term → Prop
  | object {t : Term} : t ∈ objects → Offered src rd m objects t
  | item {t u : Term} {ts : List Term} {w w' : World} : t ∈ objects → w.source rd.source = src →
    listElements rd m t w = .ok (some ts) w' → u ∈ ts → Offered src rd m objects u

/-- Why the elements that objects offer cannot be read. -/
inductive CollectionFault (cx : Setting) (src : Source) (read : Reader) (rd : Reading)
    (m : MemberBinding) (N : MappingError → Prop) (objects : List Term) : MappingError → Prop
  | unserved {e : MappingError} : src.Refuses e → CollectionFault cx src read rd m N objects e
  | element {t : Term} {e : MappingError} : Offered src rd m objects t →
    ElementFault cx read rd m N t e → CollectionFault cx src read rd m N objects e

/-- Why the value of a member cannot be read. -/
inductive MemberFault (cx : Setting) (src : Source) (read : Reader) (rd : Reading)
    (m : MemberBinding) (N : MappingError → Prop) (objects : List Term) : MappingError → Prop
  | ambiguous : m.collection = false → 2 ≤ (m.candidates cx.config objects).length →
    MemberFault cx src read rd m N objects
      (.ambiguousValue m.name (m.candidates cx.config objects).length)
  | single {t : Term} {e : MappingError} : m.collection = false →
    m.candidates cx.config objects = [t] → TermFault cx m N t e →
    MemberFault cx src read rd m N objects e
  | collection {e : MappingError} : m.collection →
    CollectionFault cx src read rd m N (m.collected cx.config objects) e →
    MemberFault cx src read rd m N objects e

/-! ## What a contract grants -/

/-- What reading a resource may rely on: in every world that it can reach from `w₀`, a related
resource is read as the contract says, and so is a deferred reference made. `V w vs w'` says of
values that the stretch from `w` to `w'` has made them. -/
structure Reads (K : Contract) (src : Source) (rd : Reading) (read read' : Reader)
    (V : World → List Value → World → Prop) (w₀ : World) : Prop where
  source : ∀ {w}, K.step w₀ w → w.source rd.source = src
  known : ∀ n ∈ rd.graph.objectResources, n ∈ src.nodes
  related : ∀ {w}, K.step w₀ w → ∀ target, ∀ node ∈ src.nodes,
    K.Keeps (read target node) (read' target node) (fun r w' => V w [.ref (.eager r)] w') w
  deferred : ∀ {w}, K.step w₀ w → ∀ cell, cell.resolved = none →
    K.step w { w with heap := w.heap.allocCell cell } ∧
      V w [.ref (.lazy w.heap.nextCell)] { w with heap := w.heap.allocCell cell }
  atom : ∀ {w w'}, K.step w₀ w → K.step w w' → ∀ {v}, v.IsAtom → V w [v] w'
  none : ∀ {w w'}, K.step w₀ w → K.step w w' → V w [] w'
  append : ∀ {w₁ w₂ w₃ us vs}, K.step w₀ w₁ → K.step w₁ w₂ → K.step w₂ w₃ →
    V w₁ us w₂ → V w₂ vs w₃ → V w₁ (us ++ vs) w₃
  list : ∀ {w w' vs}, K.step w₀ w → K.step w w' → V w vs w' → V w [.list vs] w'

section

variable {K : Contract} {cx : Setting} {src : Source} {rd : Reading} {read read' : Reader}
  {V : World → List Value → World → Prop} {w₀ w : World} {m : MemberBinding}

namespace Reads

theorem knows_object (h : Reads K src rd read read' V w₀) {s : Term} {p : String} {t : Term}
    (ht : t ∈ rd.graph.objects s p) : src.Knows t := fun n hn =>
  h.known n (Graph.mem_objectResources_of_objects ht hn)

theorem unnoted (hsource : ∀ {w}, K.step w₀ w → w.source rd.source = src)
    (hknown : ∀ n ∈ rd.graph.objectResources, n ∈ src.nodes)
    (hrelated : ∀ {w}, K.step w₀ w → ∀ target, ∀ node ∈ src.nodes,
      K.Keeps (read target node) (read' target node) (fun _ _ => True) w)
    (hdeferred : ∀ {w}, K.step w₀ w → ∀ cell, cell.resolved = Option.none →
      K.step w { w with heap := w.heap.allocCell cell }) :
    Reads K src rd read read' (fun _ _ _ => True) w₀ where
  source hw := hsource hw
  known := hknown
  related hw := hrelated hw
  deferred hw cell hc := ⟨hdeferred hw cell hc, trivial⟩
  atom _ _ _ _ := trivial
  none _ _ := trivial
  append _ _ _ _ _ := trivial
  list _ _ _ := trivial

theorem widen (h : Reads K src rd read read' V w₀) {w₁ w₂ w₃ : World} {vs : List Value}
    (hw : K.step w₀ w) (h₁ : K.step w w₁) (h₂ : K.step w₁ w₂) (h₃ : K.step w₂ w₃)
    (hv : V w₁ vs w₂) : V w vs w₃ := by
  have h₀ := h.append hw h₁ h₂ (h.none hw h₁) hv
  have h₁₂ := K.trans h₁ h₂
  have := h.append hw h₁₂ h₃ h₀ (h.none (K.trans hw h₁₂) h₃)
  rwa [List.nil_append, List.append_nil] at this

end Reads

theorem unresolvable_keeps {E : MappingError → Prop} {flaw : Flaw} {V : Option Value → World → Prop}
    (hE : cx.config.strict → E (.invalid flaw)) (hv : V none w) :
    (K.failing E).Keeps (unresolvable cx flaw) (unresolvable cx flaw) V w := by
  unfold unresolvable
  split
  · next hs => exact .fail (hE hs)
  · exact .pure hv

theorem typeOfNode_keeps (node : Resource) :
    K.Keeps (typeOfNode rd node) (typeOfNode rd node) (fun _ _ => True) w := by
  refine .bind .get fun w₁ _ _ _ => ?_
  split
  · exact .pure trivial
  · refine .bind (.describe rd.source node) fun a _ _ _ => ?_
    cases a with
    | ok g => exact .bind .get fun _ _ _ _ => .pure trivial
    | error e => exact .pure trivial

/-! ## Lists -/

/-- The nodes of a source that a walk has not met. -/
def unmet (src : Source) (seen : List Term) : List Resource :=
  src.nodes.filter fun n => n.toTerm ∉ seen

theorem length_unmet_cons_lt {seen : List Term} {t : Term} {n : Resource} (hk : src.Knows t)
    (hn : Resource.ofTerm? t = some n) (hs : t ∉ seen) :
    (unmet src (t :: seen)).length < (unmet src seen).length := by
  have ht : n.toTerm = t := Resource.toTerm_of_ofTerm? hn
  refine length_filter_lt (fun a ha => ?_) (hk n hn) ?_ ?_
  · simp only [decide_eq_true_eq, List.mem_cons, not_or] at ha ⊢
    exact ha.2
  · simpa [ht] using hs
  · simp [ht]

/-- The walk needs one step for every node that it has not met, and one to end. -/
theorem walkFrom_keeps (h : Reads K src rd read read' V w₀) :
    ∀ (n : Nat) (seen : List Term) (cell : Term) (w : World), K.step w₀ w → src.Knows cell →
      (unmet src seen).length < n →
      (K.failing src.Refuses).Keeps (walkFrom rd.source n seen cell)
        (walkFrom rd.source n seen cell) (fun ts _ => ∀ t ∈ ts, src.Knows t) w := by
  intro n
  induction n with
  | zero => intro seen cell w _ _ hn; exact absurd hn (Nat.not_lt_zero _)
  | succ n ih =>
    intro seen cell w hw hk hn
    unfold walkFrom
    split
    · exact .pure fun t ht => by cases ht
    · next hend =>
      rw [not_or] at hend
      cases hid : Resource.ofTerm? cell with
      | none => exact .pure fun t ht => by cases ht
      | some id =>
        refine .bind (.describe rd.source id) fun a w₁ h₁ ha => ?_
        rw [h.source hw] at ha
        cases a with
        | error e => exact .fail ⟨e, rfl, .inl ⟨id, ha.symm⟩⟩
        | ok g =>
          have hobj : ∀ {p t}, g.object? cell p = some t → src.Knows t := fun ht n hn =>
            src.describe_nodes id g ha.symm n
              (Graph.mem_objectResources_of_objects (Graph.mem_objects_of_object? ht) hn)
          have hitem : ∀ t ∈ (g.object? cell Vocabulary.Rdf.first).toList, src.Knows t :=
            fun t ht =>
            hobj (Option.mem_toList.1 ht)
          dsimp only
          split
          · exact .pure hitem
          · next next hnext =>
            have hlt := length_unmet_cons_lt hk hid hend.2
            refine .bind (ih (cell :: seen) next w₁ (K.trans hw h₁) (hobj hnext) (by omega))
              fun ts w₂ _ hts => ?_
            exact .pure fun t ht => (List.mem_append.1 ht).elim (hitem t) (hts t)

theorem walkList_keeps (h : Reads K src rd read read' V w₀) (hw : K.step w₀ w) {head : Term}
    (hk : src.Knows head) :
    (K.failing src.Refuses).Keeps (walkList rd.source head) (walkList rd.source head)
      (fun ts _ => ∀ t ∈ ts, src.Knows t) w := by
  refine .bind .get fun w₁ w₂ hs hw₁ => ?_
  obtain ⟨rfl, rfl⟩ := hw₁
  refine walkFrom_keeps h _ [] head w₂ hw hk ?_
  rw [h.source hw]
  exact Nat.lt_of_le_of_lt (List.length_filter_le _ _) (by omega)

theorem knows_fetchedHead {fetched : Graph} {q : String} (hf : src.query q = .ok fetched)
    {t head : Term} (ht : src.Knows t) (hh : fetchedHead? rd m fetched t = some head) :
    src.Knows head := by
  unfold fetchedHead? at hh
  split at hh
  · cases hh; exact ht
  · exact fun n hn => src.query_nodes q fetched hf n
      (Graph.mem_objectResources_of_objects (List.mem_of_find?_eq_some hh) hn)

theorem listElements_keeps (h : Reads K src rd read read' V w₀) (hw : K.step w₀ w) {t : Term}
    (ht : src.Knows t) :
    (K.failing src.Refuses).Keeps (listElements rd m t) (listElements rd m t)
      (fun ts _ => ∀ l, ts = some l → ∀ u ∈ l, src.Knows u) w := by
  unfold listElements
  split
  · refine .pure fun l hl u hu n hn => ?_
    exact h.known n (Graph.mem_objectResources_of_listItems hl hu hn)
  split
  · exact .pure fun l hl => by cases hl
  refine .bind (V := fun _ _ => True) (.bind .get fun _ _ _ _ => .pure trivial) fun d w₁ h₁ _ => ?_
  refine .bind (.query rd.source _) fun a w₂ h₂ ha => ?_
  rw [h.source (K.trans hw h₁)] at ha
  split
  · exact .pure fun l hl => by cases hl
  · next e _ => exact .fail ⟨e, rfl, .inr ⟨_, ha.symm⟩⟩
  · next fetched =>
    split
    · exact .pure fun l hl => by cases hl
    · next head hh =>
      have hk : src.Knows head := knows_fetchedHead ha.symm ht hh
      split
      · refine .bind (walkList_keeps h (K.trans (K.trans hw h₁) h₂) hk) fun ts _ _ hts => ?_
        exact .pure fun l hl => by cases hl; exact hts
      · refine .pure fun l hl u hu n hn => ?_
        exact src.query_nodes _ fetched ha.symm n (Graph.mem_objectResources_of_listItems hl hu hn)

/-! ## Values -/

theorem related_keeps (h : Reads K src rd read read' V w₀) (hw : K.step w₀ w) (target : TypeName)
    {t : Term} {node : Resource} (ht : Resource.ofTerm? t = some node) (hn : node ∈ src.nodes) :
    (K.failing (TermFault cx m K.faults t)).Keeps (related cx read rd m target node)
      (related cx read' rd m target node) (fun v w' => ∀ a, v = some a → V w [a] w') w := by
  unfold related
  split
  · obtain ⟨hs, hv⟩ := h.deferred hw { target, id := node, source := rd.source } rfl
    refine .bind (V := fun c w' => V w [.ref (.lazy c)] w') (.allocCell hs hv) fun c w₁ _ hc => ?_
    exact .pure fun a ha => by cases ha; exact hc
  · refine .bind (.attempt (h.related hw target node hn).failing) fun r w₁ _ hr => ?_
    cases r with
    | ok r => exact .pure fun a ha => by cases ha; exact hr
    | error e =>
      dsimp only
      split
      · next hs => exact .fail (.unmaterialized hs ht hr)
      · exact .pure fun a ha => by cases ha

theorem nodeValue_keeps (h : Reads K src rd read read' V w₀) (hw : K.step w₀ w) {t : Term}
    {node : Resource} (ht : Resource.ofTerm? t = some node) (hn : node ∈ src.nodes) :
    (K.failing (TermFault cx m K.faults t)).Keeps (nodeValue cx read rd m node)
      (nodeValue cx read' rd m node) (fun v w' => ∀ a, v = some a → V w [a] w') w := by
  have typed : ∀ {w₁} target, K.step w w₁ →
      (K.failing (TermFault cx m K.faults t)).Keeps (related cx read rd m target node)
        (related cx read' rd m target node) (fun v w' => ∀ a, v = some a → V w [a] w') w₁ :=
    fun target h₁ => (related_keeps h (K.trans hw h₁) target ht hn).mono fun _ w' hs hv a ha =>
      h.widen hw h₁ hs (K.refl w') (hv a ha)
  have untyped : ∀ {w₁} flaw, NodeFlaw m node flaw →
      (K.failing (TermFault cx m K.faults t)).Keeps (unresolvable cx flaw) (unresolvable cx flaw)
        (fun v w' => ∀ a, v = some a → V w [a] w') w₁ :=
    fun flaw hf => unresolvable_keeps (fun hs => .flawed hs ht hf) fun a ha => by cases ha
  unfold nodeValue
  split
  · exact .pure fun a ha => by cases ha; exact h.atom hw (K.refl w) trivial
  · next hk =>
    split
    · exact .pure fun a ha => by cases ha; exact h.atom hw (K.refl w) trivial
    · exact untyped _ (.blankUri hk rfl)
  · exact typed _ (K.refl w)
  · next hk =>
    refine .bind (typeOfNode_keeps node) fun ty w₁ h₁ _ => ?_
    cases ty with
    | some target => exact typed target h₁
    | none => exact untyped _ (.untyped hk)
  · refine .bind (typeOfNode_keeps node) fun ty w₁ h₁ _ => ?_
    cases ty with
    | some target => exact typed target h₁
    | none => exact .pure fun a ha => by cases ha; exact h.atom hw h₁ trivial
  · exact untyped _ .scalar

theorem termValue_keeps (h : Reads K src rd read read' V w₀) (hw : K.step w₀ w) {t : Term}
    (ht : src.Knows t) :
    (K.failing (TermFault cx m K.faults t)).Keeps (termValue cx read rd m t)
      (termValue cx read' rd m t) (fun v w' => ∀ a, v = some a → V w [a] w') w := by
  unfold termValue
  cases hn : Resource.ofTerm? t with
  | none =>
    refine .ofExcept (fun v hv a ha => ?_) fun e he => .undecoded hn he
    exact h.atom hw (K.refl w) (Literal.decode_isAtom (ha ▸ hv))
  | some node => exact nodeValue_keeps h hw hn (ht node hn)

theorem element_keeps (h : Reads K src rd read read' V w₀) (hw : K.step w₀ w) {t : Term}
    (ht : src.Knows t) :
    (K.failing (ElementFault cx read rd m K.faults t)).Keeps (element cx read rd m t)
      (element cx read' rd m t) (fun v w' => V w [v] w') w := by
  refine .bind ((termValue_keeps h hw ht).fails_as fun _ => .term).and_run fun v w₁ _ hv => ?_
  obtain ⟨hrun, hv⟩ := hv
  cases v with
  | none => exact .fail (.empty hrun)
  | some v => exact .pure (hv v rfl)

theorem elements_keeps (h : Reads K src rd read read' V w₀) (hw : K.step w₀ w) {ts : List Term}
    (hts : ∀ t ∈ ts, src.Knows t) :
    (K.failing fun e => ∃ t ∈ ts, ElementFault cx read rd m K.faults t e).Keeps
      (ts.mapM (element cx read rd m)) (ts.mapM (element cx read' rd m)) (V w) w := by
  refine .mapM (P := fun w₁ _ vs w₂ => V w₁ vs w₂) (fun w₁ h₁ => h.none (K.trans hw h₁) (K.refl w₁))
    (fun h₁ h₂ h₃ hb hbs => h.append (K.trans hw h₁) h₂ h₃ hb hbs) fun t ht w₁ h₁ => ?_
  exact (element_keeps h (K.trans hw h₁) (hts t ht)).fails_as fun e he => ⟨t, ht, he⟩

theorem elementsOf_keeps (h : Reads K src rd read read' V w₀) (hw : K.step w₀ w) {t : Term}
    (ht : src.Knows t) :
    (K.failing (CollectionFault cx src read rd m K.faults [t])).Keeps (elementsOf cx read rd m t)
      (elementsOf cx read' rd m t) (V w) w := by
  unfold elementsOf
  split
  · exact .pure (h.none hw (K.refl w))
  have elements : ∀ {w₁} (ts : Option (List Term)), K.step w w₁ →
      (∀ l, ts = some l → ∀ u ∈ l, src.Knows u ∧ Offered src rd m [t] u) →
      (K.failing (CollectionFault cx src read rd m K.faults [t])).Keeps
        ((ts.getD [t]).mapM (element cx read rd m)) ((ts.getD [t]).mapM (element cx read' rd m))
        (V w) w₁ := by
    intro w₁ ts h₁ hts
    have hall : ∀ u ∈ ts.getD [t], src.Knows u ∧ Offered src rd m [t] u := by
      cases ts with
      | none =>
        intro u hu
        obtain rfl := List.mem_singleton.1 hu
        exact ⟨ht, .object hu⟩
      | some l => exact hts l rfl
    have hk : (K.failing fun e => ∃ u ∈ ts.getD [t], ElementFault cx read rd m K.faults u e).Keeps
        ((ts.getD [t]).mapM (element cx read rd m)) ((ts.getD [t]).mapM (element cx read' rd m))
        (V w₁) w₁ := elements_keeps h (K.trans hw h₁) fun u hu => (hall u hu).1
    refine (hk.fails_as fun e he => ?_).mono fun vs w₂ h₂ hvs => h.widen hw h₁ h₂ (K.refl w₂) hvs
    obtain ⟨u, hu, he⟩ := he
    exact .element (hall u hu).2 he
  dsimp only
  split
  · have hlist : (K.failing (CollectionFault cx src read rd m K.faults [t])).Keeps
        (listElements rd m t) (listElements rd m t)
        (fun ts _ => ∀ l, ts = some l → ∀ u ∈ l, src.Knows u) w :=
      (listElements_keeps h hw ht).fails_as fun _ => .unserved
    refine .bind hlist.and_run fun ts w₁ h₁ hts => elements ts h₁ fun l hl u hu => ?_
    obtain ⟨hrun, hknown⟩ := hts
    subst hl
    exact ⟨hknown l rfl u hu, .item (List.mem_singleton_self t) (h.source hw) hrun hu⟩
  · exact elements none (K.refl w) fun l hl => by cases hl

theorem Offered.mono {objects objects' : List Term} {t : Term} (h : Offered src rd m objects t)
    (hsub : ∀ t ∈ objects, t ∈ objects') : Offered src rd m objects' t := by
  cases h with
  | object ht => exact .object (hsub _ ht)
  | item ht hs hrun hu => exact .item (hsub _ ht) hs hrun hu

theorem CollectionFault.mono {N : MappingError → Prop} {objects objects' : List Term}
    {e : MappingError} (h : CollectionFault cx src read rd m N objects e)
    (hsub : ∀ t ∈ objects, t ∈ objects') : CollectionFault cx src read rd m N objects' e := by
  cases h with
  | unserved he => exact .unserved he
  | element ht he => exact .element (ht.mono hsub) he

theorem collectionValue_keeps (h : Reads K src rd read read' V w₀) (hw : K.step w₀ w)
    {objects : List Term} (ho : ∀ t ∈ objects, src.Knows t) :
    (K.failing (CollectionFault cx src read rd m K.faults (m.collected cx.config objects))).Keeps
      (collectionValue cx read rd m objects) (collectionValue cx read' rd m objects)
      (fun v w' => V w [v] w') w := by
  refine .bind (V := fun parts w' => V w parts.flatten w') ?_ fun parts w₁ h₁ hp => ?_
  · refine .mapM (P := fun w₁ _ parts w₂ => V w₁ parts.flatten w₂)
      (fun w₁ h₁ => h.none (K.trans hw h₁) (K.refl w₁)) (fun h₁ h₂ h₃ hb hbs => ?_)
        fun t ht w₁ h₁ => ?_
    · simpa using h.append (K.trans hw h₁) h₂ h₃ hb hbs
    · have hk := ho t (MemberBinding.mem_of_mem_collected ht)
      have helements : (K.failing (CollectionFault cx src read rd m K.faults [t])).Keeps
          (elementsOf cx read rd m t) (elementsOf cx read' rd m t) (V w₁) w₁ :=
        elementsOf_keeps h (K.trans hw h₁) hk
      refine (helements.fails_as fun e he => he.mono fun u hu => ?_).mono fun vs w₂ _ hvs => ?_
      · rw [List.mem_singleton.1 hu]
        exact ht
      · simpa using hvs
  · exact .pure (h.list hw h₁ hp)

theorem singleValue_keeps (h : Reads K src rd read read' V w₀) (hw : K.step w₀ w)
    {objects : List Term} (ho : ∀ t ∈ objects, src.Knows t) (hm : m.collection = false) :
    (K.failing (MemberFault cx src read rd m K.faults objects)).Keeps
      (singleValue cx read rd m objects) (singleValue cx read' rd m objects)
      (fun v w' => ∀ a, v = some a → V w [a] w') w := by
  unfold singleValue
  split
  · exact .pure fun a ha => by cases ha
  · next t ht =>
    have hmem : t ∈ m.candidates cx.config objects := by rw [ht]; exact List.mem_singleton_self t
    exact (termValue_keeps h hw (ho t (MemberBinding.mem_of_mem_candidates hmem))).fails_as
      fun e he => .single hm ht he
  · next hnil hone =>
    refine .fail (.ambiguous hm ?_)
    match hts : m.candidates cx.config objects with
    | [] => exact absurd hts hnil
    | [t] => exact absurd hts (hone t)
    | _ :: _ :: ts => exact Nat.le_add_left 2 ts.length

/-- **Members under a contract**: the value that a member gets from its objects is as the contract
says, and it cannot be read only for one of the reasons above. -/
theorem memberValue_keeps (cx : Setting) (m : MemberBinding) (objects : List Term)
    (h : Reads K src rd read read' V w₀) (hw : K.step w₀ w) (ho : ∀ t ∈ objects, src.Knows t) :
    (K.failing (MemberFault cx src read rd m K.faults objects)).Keeps
      (memberValue cx read rd m objects) (memberValue cx read' rd m objects)
      (fun v w' => ∀ a, v = some a → V w [a] w') w := by
  unfold memberValue
  split
  · next hm =>
    refine .bind ((collectionValue_keeps h hw ho).fails_as fun e he => .collection hm he)
      fun v w₁ _ hv => ?_
    exact .pure fun a ha => by cases ha; exact hv
  · next hm => exact singleValue_keeps h hw ho (by simpa using hm)

end

end Engine

end GraphMarshal
