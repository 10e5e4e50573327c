import GraphMarshal.Proofs.Budgets
import GraphMarshal.Proofs.Failures

/-!
# Reading ends

A reading follows the data, so nothing in its shape bounds it. What bounds it is that a resource
under construction is not entered again and that besides the resource asked for only nodes of the
source are entered: every nested construction takes one of them away. Readings are compared with
watched ones, which stop as soon as a call is not admitted and may nest deeper, so that a reading
equal to its watched one has made no other calls.
-/

namespace GraphMarshal.Engine

/-! ## Watching -/

/-- Stops where a call is not admitted. -/
def watch (allow : World → Resource → Bool) (make : Reader) : Reader := fun ty id => do
  if allow (← get) id then make ty id else throw .exhausted

/-- Reads a resource with every call watched, those for related resources too. -/
def readWatched (cx : Setting) (source : SourceRef) (allow : World → Resource → Bool) : Nat → Reader
  | 0 => watch allow (reuseOr fun _ _ => throw .exhausted)
  | n + 1 => watch allow (reuseOr (construct cx (readWatched cx source allow n) source))

variable {cx : Setting} {source : SourceRef} {allow : World → Resource → Bool} {ty : TypeName}
  {id : Resource} {w : World}

theorem watch_admitted {make : Reader} (h : allow w id) :
    watch allow make ty id w = make ty id w := by
  unfold watch
  rw [Run.bind_apply_ok (Run.get_apply w), if_pos h]

theorem readWatched_registered {n : Nat} {r : RecordRef} (ha : allow w id)
    (h : w.construction.get? id = some r) : readWatched cx source allow n ty id w = .ok r w := by
  cases n <;> exact (watch_admitted ha).trans (reuseOr_registered h)

theorem readWatched_succ_new {n : Nat} (ha : allow w id) (h : w.construction.get? id = none) :
    readWatched cx source allow (n + 1) ty id w =
      construct cx (readWatched cx source allow n) source ty id w :=
  (watch_admitted ha).trans (reuseOr_new h)

/-! ## Depth -/

/-- Whether a call may be made when at most `limit` records are to be under construction at once. -/
def admitsDepth (limit : Nat) (w : World) (id : Resource) : Bool :=
  w.construction.contains id || decide (w.construction.size < limit)

/-- Readings that end with a record or with an error, or wait for a record that they are reading. -/
def ending : Terms where
  halt h := h = .blocked ∨ ∃ e, h = .failed e
  compared _ := True
  back _ _ := trivial

/-- As much may still be entered from a world as the limit of records under construction allows. -/
def Roomy (src : Source) (limit : Nat) (w : World) : Prop :=
  w.construction.size + (unread src w).length ≤ limit

theorem Roomy.congr {src : Source} {limit : Nat} {w' : World} (h : Roomy src limit w)
    (hc : w'.construction = w.construction) : Roomy src limit w' := by
  unfold Roomy
  rw [unread_congr hc, hc]
  exact h

theorem size_entered_le (w : World) (ty : TypeName) (id : Resource) :
    (entered w ty id).construction.size ≤ w.construction.size + 1 :=
  Table.size_insert_le _ _ _

theorem construct_ends {src : Source} {read read' : Reader} {limit n : Nat}
    (hread : ∀ w, w.source source = src → (unread src w).length ≤ n → Roomy src limit w →
      ∀ ty, ∀ id ∈ src.nodes, ending.extending.Keeps (read ty id) (read' ty id) (fun _ _ => True) w)
    (hsrc : w.source source = src) (hnew : w.construction.get? id = none)
    (hn : (unread src (entered w ty id)).length ≤ n) (hroom : Roomy src limit (entered w ty id)) :
    ending.extending.Keeps (construct cx read source ty id) (construct cx read' source ty id)
      (fun _ _ => True) w := by
  refine construct_each hnew (fun e => .inr ⟨e, rfl⟩) (.inl rfl) fun w' h target node hnode => ?_
  rw [hsrc] at hnode
  refine hread w' ?_ ?_ (hroom.congr h.construction) target node hnode
  · rw [h.source]; exact hsrc
  · rw [unread_congr h.construction]; exact hn

theorem registered_ends {limit n m : Nat} {r : RecordRef} (h : w.construction.get? id = some r) :
    ending.extending.Keeps (readWithin cx source n ty id)
      (readWatched cx source (admitsDepth limit) m ty id) (fun _ _ => True) w := by
  have hadmit : admitsDepth limit w id := by
    unfold admitsDepth Table.contains
    rw [h]
    rfl
  exact .of_ok (readWithin_registered h) (.refl w) trivial fun _ => readWatched_registered hadmit h

/-- Nested readings end, by induction on how deep they may be nested: entering a node leaves fewer
to enter. -/
theorem readWithin_ends {src : Source} {limit : Nat} : ∀ (n m : Nat), n ≤ m → ∀ w,
    w.source source = src → (unread src w).length ≤ n → Roomy src limit w →
    ∀ ty, ∀ id ∈ src.nodes, ending.extending.Keeps (readWithin cx source n ty id)
      (readWatched cx source (admitsDepth limit) m ty id) (fun _ _ => True) w := by
  intro n
  induction n with
  | zero =>
    intro m _ w _ hn _ ty id hid
    cases hr : w.construction.get? id with
    | some r => exact registered_ends hr
    | none =>
      have := length_unread_entered_lt ty hid hr
      omega
  | succ n ih =>
    intro m hm w hsrc hn hroom ty id hid
    obtain ⟨m, rfl⟩ : ∃ k, m = k + 1 := ⟨m - 1, by omega⟩
    cases hr : w.construction.get? id with
    | some r => exact registered_ends hr
    | none =>
      have hlt := length_unread_entered_lt ty hid hr
      have hsize := size_entered_le w ty id
      unfold Roomy at hroom
      have hadmit : admitsDepth limit w id := by
        unfold admitsDepth
        rw [Bool.or_eq_true, decide_eq_true_eq]
        exact .inr (by omega)
      refine .congr (readWithin_succ_new hr) (readWatched_succ_new hadmit hr) ?_
      refine construct_ends (ih m (by omega)) hsrc hr (by omega) ?_
      unfold Roomy
      omega

/-- A reading from any source ends, and has no more records under construction at once than the
nodes of the source besides the resource itself. -/
theorem fromGraph_ends (cx : Setting) (ty : TypeName) (id : Resource) {src : Source} {m : Nat}
    (hsrc : w.source source = src) (hm : src.nodes.length + 1 ≤ m) :
    ending.extending.Keeps (fromGraph cx source ty id)
      (readWatched cx source (admitsDepth (w.construction.size + 1 + src.nodes.length)) m ty id)
      (fun _ _ => True) w := by
  refine .congr (fromGraph_apply hsrc) rfl ?_
  obtain ⟨m, rfl⟩ : ∃ k, m = k + 1 := ⟨m - 1, by omega⟩
  cases hr : w.construction.get? id with
  | some r => exact registered_ends hr
  | none =>
    have hadmit : admitsDepth (w.construction.size + 1 + src.nodes.length) w id := by
      unfold admitsDepth
      rw [Bool.or_eq_true, decide_eq_true_eq]
      exact .inr (by omega)
    refine .congr (readWithin_succ_new hr) (readWatched_succ_new hadmit hr) ?_
    have hsize := size_entered_le w ty id
    have hnodes : (unread src (entered w ty id)).length ≤ src.nodes.length :=
      List.length_filter_le _ _
    refine construct_ends (readWithin_ends _ m (by omega)) hsrc hr hnodes ?_
    unfold Roomy
    omega

theorem nodes_toSource (g : Graph) (d : Dialect) :
    (({ graph := g, dialect := d } : Memory).toSource).nodes = distinct g.objectResources :=
  congrArg distinct (List.append_nil _)

/-- Persons who know persons. -/
def ringSetting : Setting where
  config := { defaultLanguage := "en" }
  schema := { types := [{
    name := "Person"
    descriptor := {
      classIri := some "urn:Person"
      members := [{
        name := "knows", kind := .ref (some "Person"), predicate :=
          some "urn:knows", collection := true }] } }] }

/-- Two persons who know each other, one of them herself too. -/
def ringGraph : Graph := .ofTriples
  [⟨.iri "urn:a", .iri "urn:knows", .iri "urn:b"⟩, ⟨.iri "urn:b", .iri "urn:knows", .iri "urn:a"⟩,
    ⟨.iri "urn:b", .iri "urn:knows", .iri "urn:b"⟩]

/-- A world that reads about them. -/
def ringWorld : World :=
  { namespaces := .wellKnown, sources := #[({ graph := ringGraph } : Memory).toSource] }

end GraphMarshal.Engine
