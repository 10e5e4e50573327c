import GraphMarshal.Proofs.Operations
import GraphMarshal.Proofs.Origins

/-!
# Reading one language

Where languages count, a member chooses among the objects of its predicate those that are no
literals or literals in its own language, for a single value and for the elements of a collection
alike. So all that it gets comes from such objects, or from the items of a list that one of them
starts. The items are taken as they are, whatever their language.
-/

namespace GraphMarshal

open Engine

/-! ## Choosing among objects -/

namespace MemberBinding

variable {c : Config} {m : MemberBinding} {objects : List Term} {t : Term}

theorem language_of_collected (haware : c.languageAware) (ht : t ∈ m.collected c objects)
    (hlit : t.isLiteral) : t.language = m.language := by
  unfold collected at ht
  rw [if_pos haware] at ht
  have hkept := (List.mem_filter.1 ht).2
  rw [hlit] at hkept
  simpa using hkept

/-- A sole candidate that is a literal is in the language, since no resource stands beside it. -/
theorem language_of_candidates (haware : c.languageAware) (ht : m.candidates c objects = [t])
    (hlit : t.isLiteral) : t.language = m.language := by
  have hmem : t ∈ m.candidates c objects := by rw [ht]; exact List.mem_singleton_self t
  unfold candidates at ht hmem
  dsimp only at ht hmem
  split at hmem
  · next hany =>
    rw [if_pos hany] at ht
    rw [ht] at hany
    simp [Term.isResource, hlit] at hany
  · simpa using (List.mem_filter.1 hmem).2

end MemberBinding

namespace Engine

theorem isResource_of_listElements {rd : Reading} {m : MemberBinding} {head : Term}
    {ts : List Term} {w w' : World} (h : listElements rd m head w = .ok (some ts) w') :
    head.isResource := by
  unfold listElements at h
  split at h
  · next hlist =>
    unfold Graph.isList at hlist
    rcases Bool.or_eq_true_iff.1 hlist with hnil | hcell
    · rw [of_decide_eq_true (p := head = .nil) hnil]
      rfl
    · rw [Bool.and_assoc, Bool.and_eq_true] at hcell
      exact hcell.1
  · split at h
    · cases h
    · next hblank =>
      cases head with
      | blank label => rfl
      | iri i => exact absurd rfl hblank
      | literal s d tag => exact absurd rfl hblank

/-! ## Values -/

/-- A term that a collection takes an element from where languages count: an object that is no
literal of another language, or an item of a list that an object starts. -/
inductive Admitted (src : Source) (rd : Reading) (m : MemberBinding) (objects : List Term) :
    Term → Prop
  | object {t : Term} : t ∈ objects → (t.isLiteral → t.language = m.language) →
    Admitted src rd m objects t
  | item {head t : Term} {ts : List Term} {w w' : World} : head ∈ objects → head.isResource →
    w.source rd.source = src → listElements rd m head w = .ok (some ts) w' → t ∈ ts →
    Admitted src rd m objects t

/-- A value that a member gets where languages count: it is given by an object that is no literal of
another language, or it is a list whose values are given by admitted terms. -/
inductive Spoken (cx : Setting) (src : Source) (read : Reader) (rd : Reading) (m : MemberBinding)
    (objects : List Term) : Value → Prop
  | single {t : Term} {v : Value} : m.collection = false → t ∈ objects →
    (t.isLiteral → t.language = m.language) → Gives cx read rd m t v →
    Spoken cx src read rd m objects v
  | collection {ts : List Term} {vs : List Value} : m.collection →
    (∀ t ∈ ts, Admitted src rd m objects t) → List.Forall₂ (Gives cx read rd m) ts vs →
    Spoken cx src read rd m objects (.list vs)

variable {cx : Setting} {src : Source} {read : Reader} {rd : Reading} {m : MemberBinding}
  {objects : List Term} {v : Value}

theorem Elements.admitted {t : Term} {ts : List Term} (h : Elements src rd m t ts)
    (ht : t ∈ objects) (hlang : t.isLiteral → t.language = m.language) :
    ∀ u ∈ ts, Admitted src rd m objects u := by
  have itself : ∀ u ∈ [t], Admitted src rd m objects u := fun u hu => by
    rw [List.mem_singleton.1 hu]
    exact .object ht hlang
  cases h with
  | nil _ => exact fun _ hu => by cases hu
  | literal _ => exact itself
  | node _ _ => exact itself
  | items hsrc hrun =>
    exact fun u hu => .item ht (isResource_of_listElements hrun) hsrc hrun hu

theorem Spoken.of_drawn (haware : cx.config.languageAware)
    (h : Drawn cx src rd m objects (Gives cx read rd m) v) : Spoken cx src read rd m objects v := by
  cases h with
  | single hm ht hv =>
    have hmem := MemberBinding.mem_of_mem_candidates (ht ▸ List.mem_singleton_self _)
    exact .single hm hmem (MemberBinding.language_of_candidates haware ht) hv
  | @collection parts vs hm hparts hvs =>
    refine .collection hm (fun u hu => ?_) hvs
    obtain ⟨ts, hts, hu⟩ := List.mem_flatten.1 hu
    obtain ⟨t, ht, helements⟩ := exists_of_forall₂_right hparts hts
    exact helements.admitted (MemberBinding.mem_of_mem_collected ht)
      (MemberBinding.language_of_collected haware ht) u hu

end Engine

open Engine

/-- The texts of the scalars that a value consists of. -/
def Value.texts : Value → List String
  | .list items => items.filterMap lexical?
  | v => v.lexical?.toList

/-! ## Values of records -/

/-- Where a value comes from that a record holds under a name, where languages count: it is what the
field keeps of a value that a member of that name got from the description of the resource. -/
def World.SpokenOrigin (cx : Setting) (source : SourceRef) (src : Source) (w : World) (rec : Record)
    (name : String) (v : Value) : Prop :=
  ∃ rd b m predicate read v₀, rd.source = source ∧ rec.id = some rd.id ∧
    src.describe rd.id = .ok rd.graph ∧ w.bindings.get? rec.type = some b ∧
    b.memberFor? predicate = some m ∧ m.name = name ∧
    Spoken cx src read rd m (rd.graph.objects rd.subject predicate) v₀ ∧
    (v = v₀ ∨ ∃ h l f, Record.accepted h l f v₀ = .ok v)

theorem World.Origin.spoken {cx : Setting} {source : SourceRef} {src : Source} {w : World}
    {rec : Record} {name : String} {v : Value} (haware : cx.config.languageAware)
    (h : w.Origin cx source src rec name v) : w.SpokenOrigin cx source src rec name v := by
  obtain ⟨rd, b, m, v₀, hsource, hid, hd, hb, hname, hobtained, hv⟩ := h
  obtain ⟨predicate, read, hm, hdrawn⟩ := hobtained.drawn hd
  have hspoken := Spoken.of_drawn haware hdrawn
  exact ⟨rd, b, m, predicate, read, v₀, hsource, hid, hd, hb, hm, hname, hspoken, hv⟩

namespace Engine

/-- **Reading where languages count**, however it ends: whatever a record holds under a name it held
before, or a member got it from an object that is no literal of another language, or from such
objects and the items of lists that they start. -/
theorem fromGraph_languages (cx : Setting) (w : World) (source : SourceRef) (ty : TypeName)
    (id : Resource) (haware : cx.config.languageAware) (r : RecordRef) (rec : Record)
    (name : String) (v : Value)
    (hr : ((Operation.read source ty id).after cx w).heap.record? r = some rec)
    (hv : rec.values.get? name = some v) :
    w.heap.record? r = some rec ∨
      ((Operation.read source ty id).after cx w).SpokenOrigin cx source (w.source source) rec
        name v := by
  rcases Nat.lt_or_ge r.index w.heap.records.size with hold | hnew
  · have hextends : anyEnd.extending.step w ((Operation.read source ty id).after cx w) :=
      Operation.step_after (Contract.Keeps.ignored fromGraph_extends)
    obtain ⟨old, hget⟩ := Heap.exists_record? hold
    rw [hextends.record trivial hget] at hr
    cases hr
    exact .inl hget
  · -- Only records that are new are traced, and before the reading there are none.
    have htraces : (tracing cx source (w.source source) w.heap.records.size).step w
        ((Operation.read source ty id).after cx w) :=
      Operation.step_after (Contract.Keeps.ignored fromGraph_traces)
    have horigin := htraces.traced (traced_start w) r rec hnew hr name v hv
    exact .inr (horigin.spoken haware)

/-- A type with a text in French and a list of texts without a language. -/
def phraseSetting : Setting where
  config := { defaultLanguage := "en", languageAware := true }
  schema := { types := [{
    name := "Phrase"
    descriptor := {
      classIri := some "urn:Phrase"
      members := [
        { name := "text", kind := .string, predicate := some "urn:text", language := some "fr" },
        { name := "words", kind := .string, predicate := some "urn:words", collection := true,
          ordered := true }] } }] }

/-- A phrase in two languages, and its words in one of them. -/
def phraseGraph : Graph := .ofTriples
  [⟨.iri "urn:a", .iri "urn:text", .langString "chat noir" "fr"⟩,
    ⟨.iri "urn:a", .iri "urn:text", .langString "black cat" "en"⟩,
    ⟨.iri "urn:a", .iri "urn:words", .blank "l"⟩,
    ⟨.blank "l", .iri Vocabulary.Rdf.first, .langString "chat" "fr"⟩,
    ⟨.blank "l", .iri Vocabulary.Rdf.rest, .nil⟩]

/-- A world that reads about it. -/
def phraseWorld : World :=
  { namespaces := .wellKnown, sources := #[({ graph := phraseGraph } : Memory).toSource] }

/-- The text in the member's language is taken, and not the other one. -/
theorem fromGraph_languages_phrase :
    phraseSetting.config.languageAware ∧ ∃ rec v,
      ((Operation.read ⟨0⟩ "Phrase" (.iri "urn:a")).after phraseSetting phraseWorld).heap.record?
        ⟨0⟩ = some rec ∧
      rec.values.get? "text" = some v ∧ v.texts = ["chat noir"] ∧
      ((Operation.read ⟨0⟩ "Phrase" (.iri "urn:a")).after phraseSetting phraseWorld).SpokenOrigin
        phraseSetting ⟨0⟩ (phraseWorld.source ⟨0⟩) rec "text" v := by
  have hread : ((((Operation.read ⟨0⟩ "Phrase" (.iri "urn:a")).after phraseSetting
      phraseWorld).heap.record? ⟨0⟩).bind fun rec => rec.values.get? "text").map Value.texts =
        some ["chat noir"] := by
    decide +kernel
  obtain ⟨v, hget, htexts⟩ := Option.map_eq_some_iff.1 hread
  obtain ⟨rec, hrec, hv⟩ := Option.bind_eq_some_iff.1 hget
  refine ⟨rfl, rec, v, hrec, hv, htexts, ?_⟩
  have horigin := fromGraph_languages phraseSetting phraseWorld ⟨0⟩ "Phrase" (.iri "urn:a") rfl ⟨0⟩
    rec "text" v hrec hv
  exact horigin.resolve_left nofun

/-- **Items of lists are in any language**: the only item of the list is in French, the member that
takes it has no language, and yet its text is stored. -/
theorem fromGraph_languages_items :
    phraseSetting.config.languageAware ∧
      phraseGraph.objects (.iri "urn:a") "urn:words" = [.blank "l"] ∧
      phraseGraph.listItems (.blank "l") = some [.langString "chat" "fr"] ∧
      ∃ r w', fromGraph phraseSetting ⟨0⟩ "Phrase" (.iri "urn:a") phraseWorld = .ok r w' ∧
        (∃ b m, w'.bindings.get? "Phrase" = some b ∧ b.memberFor? "urn:words" = some m ∧
          m.name = "words" ∧ m.language = none) ∧
        ∃ rec v, w'.heap.record? r = some rec ∧ rec.values.get? "words" = some v ∧
          v.texts = ["chat"] := by
  refine ⟨rfl, by decide +kernel, by decide +kernel, ?_⟩
  obtain ⟨r, w', hrun, hpass⟩ := Run.exists_ok
    (x := fromGraph phraseSetting ⟨0⟩ "Phrase" (.iri "urn:a") phraseWorld)
    (p := fun r w =>
      decide (((w.bindings.get? "Phrase").bind fun b => b.memberFor? "urn:words").map
        (fun m => (m.name, m.language)) = some ("words", none)) &&
      decide (((w.heap.record? r).bind fun rec => rec.values.get? "words").map Value.texts =
        some ["chat"]))
    (by decide +kernel)
  rw [Bool.and_eq_true] at hpass
  obtain ⟨m, hm, hmember⟩ := Option.map_eq_some_iff.1 (of_decide_eq_true hpass.1)
  obtain ⟨b, hb, hm⟩ := Option.bind_eq_some_iff.1 hm
  obtain ⟨hname, hlang⟩ := Prod.mk.inj hmember
  obtain ⟨v, hv, htexts⟩ := Option.map_eq_some_iff.1 (of_decide_eq_true hpass.2)
  obtain ⟨rec, hrec, hv⟩ := Option.bind_eq_some_iff.1 hv
  exact ⟨r, w', hrun, ⟨b, m, hb, hm, hname, hlang⟩, rec, v, hrec, hv, htexts⟩

end Engine

end GraphMarshal
