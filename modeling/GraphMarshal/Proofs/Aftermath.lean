import GraphMarshal.Proofs.Returning

/-!
# What a reading leaves behind

A reading may fail half way, with records under construction at any depth. Whether it fails or not,
it withdraws what it has put under construction, and it writes only to records that it has allocated
itself. So reading again starts from scratch: what is found under construction then is a record of
the new reading, never one that an earlier reading has left half built.
-/

namespace GraphMarshal.Engine

variable {cx : Setting} {source : SourceRef} {ty : TypeName} {id : Resource} {w : World}

/-- Whether a record found under construction is none of the first `lo` records of the heap. -/
def admitsNewer (lo : Nat) (w : World) (id : Resource) : Bool :=
  match w.construction.get? id with
  | some r => decide (lo ≤ r.index)
  | none => true

theorem admitsNewer_of_new {lo : Nat} (h : w.construction.get? id = none) :
    admitsNewer lo w id := by
  unfold admitsNewer
  rw [h]

/-- Every record under construction is none of the first `lo` records of the heap. -/
def Newer (lo : Nat) (w : World) : Prop :=
  ∀ n r, w.construction.get? n = some r → lo ≤ r.index

theorem admitsNewer_of_newer {lo : Nat} (h : Newer lo w) : admitsNewer lo w id := by
  unfold admitsNewer
  split
  · next r hr => exact decide_eq_true (h id r hr)
  · rfl

theorem Newer.entered {lo : Nat} (h : Newer lo w) (hlo : lo ≤ w.heap.records.size) :
    Newer lo (entered w ty id) := by
  intro n r hr
  rw [construction_entered, Table.get?_insert] at hr
  split at hr
  · cases hr
    exact hlo
  · exact h n r hr

/-- Nested readings find only their own records under construction, by induction on how deep they
may be nested. -/
theorem readWithin_newer {lo : Nat} : ∀ n w, Newer lo w → lo ≤ w.heap.records.size → ∀ ty id,
    anyEnd.extending.Keeps (readWithin cx source n ty id)
      (readWatched cx source (admitsNewer lo) n ty id) (fun _ _ => True) w := by
  have registered : ∀ n w r ty id, Newer lo w → w.construction.get? id = some r →
      anyEnd.extending.Keeps (readWithin cx source n ty id)
        (readWatched cx source (admitsNewer lo) n ty id) (fun _ _ => True) w :=
    fun n w r ty id hw hr => .of_ok (readWithin_registered hr) (.refl w) trivial fun _ =>
      readWatched_registered (admitsNewer_of_newer hw) hr
  intro n
  induction n with
  | zero =>
    intro w hw hlo ty id
    cases hr : w.construction.get? id with
    | some r => exact registered 0 w r ty id hw hr
    | none =>
      refine .congr (reuseOr_new hr)
        ((watch_admitted (admitsNewer_of_new hr)).trans (reuseOr_new hr)) ?_
      exact .throw trivial
  | succ n ih =>
    intro w hw hlo ty id
    cases hr : w.construction.get? id with
    | some r => exact registered (n + 1) w r ty id hw hr
    | none =>
      refine .congr (readWithin_succ_new hr) (readWatched_succ_new (admitsNewer_of_new hr) hr) ?_
      refine construct_each hr (fun _ => trivial) trivial fun w' h target node _ => ?_
      refine ih w' (fun n r hn => ?_) (Nat.le_trans ?_ h.size) target node
      · rw [h.construction] at hn
        exact hw.entered hlo n r hn
      · show lo ≤ (w.heap.alloc (outlineRecord ty id)).records.size
        rw [Heap.size_alloc]
        omega

/-- **A reading leaves nothing behind**, however it ends. Unless it never does, since a resource
refers to itself, it gives a record or fails: what is under construction is then what was before, every record and
every deferred reference that was there is as it was, and if nothing was under construction, then
whatever is read next, from whichever source, finds under construction only records that it has
allocated itself, in every call for a related resource too. -/
theorem fromGraph_leaves_nothing (cx : Setting) (w : World) (source : SourceRef) (ty : TypeName)
    (id : Resource) :
    ((∃ w', fromGraph cx source ty id w = .error .blocked w') ∧
      (w.Registered → w.Entangled cx source (w.source source))) ∨
    ∃ w', ((∃ r, fromGraph cx source ty id w = .ok r w') ∨
        ∃ e, fromGraph cx source ty id w = .error (.failed e) w') ∧
      w'.construction = w.construction ∧
      (∀ r rec, w.heap.record? r = some rec → w'.heap.record? r = some rec) ∧
      (∀ c cell, w.heap.cell? c = some cell → w'.heap.cell? c = some cell) ∧
      ((∀ n, w.construction.get? n = none) → ∀ source' ty' id',
        readWatched cx source' (admitsNewer w'.heap.records.size)
          ((w'.source source').nodes.length + 1) ty' id' w' = fromGraph cx source' ty' id' w') := by
  have hends : ((∃ w', fromGraph cx source ty id w = .error .blocked w') ∧
        (w.Registered → w.Entangled cx source (w.source source))) ∨
      ∃ w', ((∃ r, fromGraph cx source ty id w = .ok r w') ∨
        ∃ e, fromGraph cx source ty id w = .error (.failed e) w') ∧ w.Extends w' := by
    obtain ⟨r, w', hrun, hs⟩ | ⟨e, w', hrun, hs⟩ | hblocked := fromGraph_outcome cx w source ty id
    · exact .inr ⟨w', .inl ⟨r, hrun⟩, hs⟩
    · exact .inr ⟨w', .inr ⟨e, hrun⟩, hs⟩
    · exact .inl hblocked
  refine hends.imp_right ?_
  rintro ⟨w', hrun, hs⟩
  refine ⟨w', hrun, hs.construction, fun r rec => hs.record trivial, fun c cell => hs.cell,
    fun hidle source' ty' id' => ?_⟩
  have hnewer : Newer w'.heap.records.size w' := fun n r hn => by
    rw [hs.construction, hidle n] at hn
    cases hn
  have hretry : anyEnd.extending.Keeps (readWithin cx source' _ ty' id') _ (fun _ _ => True) w' :=
    readWithin_newer ((w'.source source').nodes.length + 1) w' hnewer (Nat.le_refl _) ty' id'
  rw [fromGraph_apply rfl]
  cases hagain : readWithin cx source' ((w'.source source').nodes.length + 1) ty' id' w' with
  | ok r w'' => exact (hretry.ok hagain).2.2 trivial
  | error e w'' => exact (hretry.error hagain).2.2 trivial

/-- Persons with one name who know persons. -/
def namedSetting (strict : Bool) : Setting where
  config := { defaultLanguage := "en", strict }
  schema := { types := [{
    name := "Person"
    descriptor := {
      classIri := some "urn:Person"
      members := [{ name := "name", kind := .string, predicate := some "urn:name" },
        { name := "knows", kind := .ref (some "Person"), predicate := some "urn:knows",
          collection := true }] } }] }

/-- A person knows one who has two names. -/
def namedGraph : Graph := .ofTriples
  [⟨.iri "urn:a", .iri "urn:knows", .iri "urn:b"⟩,
    ⟨.iri "urn:b", .iri "urn:name", .string "B1"⟩, ⟨.iri "urn:b", .iri "urn:name", .string "B2"⟩]

/-- A world that reads about them. -/
def namedWorld : World :=
  { namespaces := .wellKnown, sources := #[({ graph := namedGraph } : Memory).toSource] }

/-- A strict reading fails two records deep, and is then made again. -/
theorem fromGraph_leaves_nothing_named :
    (∀ n, namedWorld.construction.get? n = none) ∧
      ∃ e w', fromGraph (namedSetting true) ⟨0⟩ "Person" (.iri "urn:a") namedWorld =
          .error (.failed e) w' ∧
        readWatched (namedSetting true) ⟨0⟩ (admitsNewer w'.heap.records.size)
          ((w'.source ⟨0⟩).nodes.length + 1) "Person" (.iri "urn:a") w' =
            fromGraph (namedSetting true) ⟨0⟩ "Person" (.iri "urn:a") w' := by
  have hidle : ∀ n, namedWorld.construction.get? n = none := fun _ => rfl
  have hfails : (Run.failure?
      (fromGraph (namedSetting true) ⟨0⟩ "Person" (.iri "urn:a") namedWorld)).isSome := by
    decide +kernel
  obtain ⟨⟨w', hblocked⟩, -⟩ | ⟨w', hrun, -, -, -, hretry⟩ :=
    fromGraph_leaves_nothing (namedSetting true) namedWorld ⟨0⟩ "Person" (.iri "urn:a")
  · rw [hblocked] at hfails
    cases hfails
  have hretry := hretry hidle ⟨0⟩ "Person" (.iri "urn:a")
  rcases hrun with ⟨r, hr⟩ | ⟨e, he⟩
  · rw [hr] at hfails
    cases hfails
  · exact ⟨hidle, e, w', he, hretry⟩

end GraphMarshal.Engine
