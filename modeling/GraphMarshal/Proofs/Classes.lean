import GraphMarshal.Proofs.Outcome
import GraphMarshal.Proofs.Prefixes
import GraphMarshal.Proofs.Rendering

/-!
# Classes stay registered

A type is registered under its full class IRI, and stays so until another registration for that IRI.
Looking a class up expands the IRI once more, by the prefix table of the moment. So the type is
found as long as the table does not take the full IRI for a compact one. It never does so where the
IRI has an authority, but a class like `urn:Sub` is lost as soon as any type declares a prefix
`urn`.
-/

namespace GraphMarshal

open Engine

/-- What operations lead to from the world of a new engine, with the registrations on the way in
order. -/
inductive World.History (cx : Setting) : List (String × TypeName) → World → Prop
  | initial : History cx [] (.initial cx.config)
  | step {l : List (String × TypeName)} {w : World} (op : Operation) : History cx l w →
      History cx (l ++ op.registrations cx w) (op.after cx w)

/-! ## Registered types -/

theorem World.History.registered {cx : Setting} {w : World} {l : List (String × TypeName)}
    (h : History cx l w) : w.classes = Table.ofList l ∧
      ∀ e ∈ l, ∃ b, w.bindings.get? e.2 = some b ∧ b.classIri = e.1 := by
  have step : ∀ {l l' : List (String × TypeName)} {w w' : World}, w.Resolves cx l' w' →
      w.classes = Table.ofList l →
      (∀ e ∈ l, ∃ b, w.bindings.get? e.2 = some b ∧ b.classIri = e.1) →
      w'.classes = Table.ofList (l ++ l') ∧
        ∀ e ∈ l ++ l', ∃ b, w'.bindings.get? e.2 = some b ∧ b.classIri = e.1 := by
    intro l l' w w' hres hclasses hbound
    refine ⟨?_, fun e he => ?_⟩
    · rw [hres.classes, hclasses]
      exact List.foldl_append.symm
    · rcases List.mem_append.1 he with he | he
      · obtain ⟨b, hb, heq⟩ := hbound e he
        exact ⟨b, hres.binding hb, heq⟩
      · exact hres.bound he
  induction h with
  | initial => exact ⟨rfl, fun _ he => by cases he⟩
  | step op _ ih =>
    obtain ⟨hclasses, hbound⟩ := ih
    cases op with
    | declare | register =>
      -- The prefix table is changed by hand, which leaves classes and bindings alone.
      unfold Operation.registrations
      rw [List.append_nil]
      exact ⟨hclasses, hbound⟩
    | _ => exact step (Operation.after_resolves _ rfl) hclasses hbound

theorem World.Reachable.history {cx : Setting} {w : World} (h : w.Reachable cx) :
    ∃ l, World.History cx l w := by
  induction h with
  | initial => exact ⟨_, .initial⟩
  | step op _ ih =>
    obtain ⟨l, hl⟩ := ih
    exact ⟨_, hl.step op⟩

theorem World.Reachable.bound {cx : Setting} {w : World} (h : w.Reachable cx) {ty : TypeName}
    (hty : w.Registers ty) : ∃ b, w.bindings.get? ty = some b := by
  obtain ⟨iri, hiri⟩ := hty
  obtain ⟨l, hl⟩ := h.history
  obtain ⟨hclasses, hbound⟩ := hl.registered
  rw [hclasses] at hiri
  have hmem : (iri, ty) ∈ l := (Table.get?_insertAll_cases hiri).resolve_right nofun
  obtain ⟨b, hb, -⟩ := hbound _ hmem
  exact ⟨b, hb⟩

theorem World.Reachable.carriesId {cx : Setting} {w : World} (h : w.Reachable cx) {ty : TypeName}
    (hty : w.Registers ty) : cx.schema.carriesId ty := by
  obtain ⟨_, hb⟩ := h.bound hty
  exact h.stable.sound.carriesId hb

/-! ## Written classes -/

theorem Rendered.assertedType {cx : Setting} {T : MemberBinding → Value → Term → Prop} {w : World}
    {r : RecordRef} {g : Graph} {rec : Record} {b : TypeBinding} {k : Resource} {sh : Sheet}
    {ty : TypeName} (h : Rendered cx T w r g rec b k sh)
    (hty : w.typeForClass b.classIri = some ty) :
    assertedType w g k.toTerm = some ty := by
  have hobjects : ∃ rest, g.objects k.toTerm Vocabulary.Rdf.type = .iri b.classIri :: rest := by
    show ∃ rest, objectsOf g.triples k.toTerm Vocabulary.Rdf.type = _
    rw [h.triples, Sheet.triples, h.subject, h.classIri, objectsOf_cons, objectsOf_single,
      if_pos rfl]
    exact ⟨_, rfl⟩
  obtain ⟨rest, hrest⟩ := hobjects
  have hiri : (Term.iri b.classIri).iri? = some b.classIri := rfl
  unfold Engine.assertedType
  rw [hrest, List.filterMap_cons_some hiri, List.findSome?_cons, hty]

theorem Operation.after_write {cx : Setting} {w w' : World} {r : RecordRef} {g : Graph}
    (h : toGraph cx r w = .ok g w') : (Operation.write r).after cx w = w' := by
  have hrun : (Operation.write r).run cx w = .ok () w' := Run.bind_apply_ok h
  unfold after
  rw [hrun]

namespace Engine

/-- **Registered types stay findable**, as far as the prefix table lets them: after any operations,
if no registration for a class came after that of a type, the type is bound to the class, it is the
one kept for it, and looking the class up finds it unless the table takes the class IRI for a
compact one. A record of the type that is written then has its class recognised, with the same
reservation for the table that writing leaves. -/
theorem typeForClass_registered (cx : Setting) (w : World) (l l' : List (String × TypeName))
    (iri : String) (ty : TypeName) (h : World.History cx (l ++ (iri, ty) :: l') w)
    (hlast : ∀ e ∈ l', e.1 ≠ iri) :
    (∃ b, bindingOf cx ty w = .ok b w ∧ b.classIri = iri) ∧ w.classes.get? iri = some ty ∧
      (¬w.namespaces.Abbreviates iri → w.typeForClass iri = some ty) ∧
      ∀ r g w', w.heap.type? r = some ty → toGraph cx r w = .ok g w' →
        ¬w'.namespaces.Abbreviates iri →
        ∃ k, w'.heap.id? r = some k ∧ assertedType w' g k.toTerm = some ty := by
  have hfound : ∀ {l' : List (String × TypeName)} {w : World},
      World.History cx (l ++ (iri, ty) :: l') w → (∀ e ∈ l', e.1 ≠ iri) →
      w.classes.get? iri = some ty ∧
        (¬w.namespaces.Abbreviates iri → w.typeForClass iri = some ty) := fun {l' w} h hlast => by
    have hget : w.classes.get? iri = some ty := by
      rw [h.registered.1, Table.get?_ofList_latest hlast]
    refine ⟨hget, fun hn => ?_⟩
    unfold World.typeForClass
    rw [Namespaces.expand_of_not_abbreviates hn, hget]
  obtain ⟨b, hb, hiri⟩ := h.registered.2 (iri, ty) (by simp)
  refine ⟨⟨b, bindingOf_of_cached hb, hiri⟩, (hfound h hlast).1, (hfound h hlast).2, ?_⟩
  intro r g w' htype hrun hn
  have hk : naming.Keeps (toGraph cx r) (toGraph cx r) _ w := toGraph_rendered
  obtain ⟨hstep, ⟨rec, b', k, sh, hr, -⟩, -⟩ := hk.ok hrun
  have hlater : World.History cx (l ++ (iri, ty) :: l') w' := by
    have hstep := World.History.step (.write r) h
    rwa [Operation.after_write hrun, show (Operation.write r).registrations cx w = [] from rfl,
      List.append_nil] at hstep
  have hrectype : rec.type = ty := by
    obtain ⟨old, hold, rfl⟩ := Option.map_eq_some_iff.1 htype
    obtain ⟨i, hi, -⟩ := hstep.record hold
    rw [hr.record] at hi
    cases hi
    rfl
  have hb' := hr.binding
  rw [hrectype, hstep.binding hb] at hb'
  cases hb'
  refine ⟨k, Heap.id?_eq_some.2 ⟨rec, hr.record, hr.id⟩, hr.assertedType ?_⟩
  rw [hiri]
  exact (hfound hlater hlast).2 hn

/-- Two types with classes without an authority, and one that declares the prefix which the second
class seems to use. -/
def urnSetting : Setting where
  config := { defaultLanguage := "en" }
  schema := { types := [
    { name := "Page", descriptor := { classIri := some "http://ex/Page" } },
    { name := "Sub", descriptor := { classIri := some "urn:Sub" } },
    { name := "Other"
      descriptor := {
        classIri := some "http://ex/Other"
        namespaces := [("urn", "http://alias/")] } }] }

/-- What is done before a page and a thing of the other type are made and registered. -/
def pageWorld : World :=
  (World.initial urnSetting.config).run urnSetting
    [.init ["Sub", "Page"], .create "Page" (some (.iri "http://ex/a")), .init ["Other"]]

theorem history_pageWorld : World.History urnSetting
    [("urn:Sub", "Sub"), ("http://ex/Page", "Page"), ("http://ex/Other", "Other")] pageWorld := by
  have hnew : World.History urnSetting [] (.initial urnSetting.config) := .initial
  have h := World.History.step (.init ["Other"])
    (.step (.create "Page" (some (.iri "http://ex/a"))) (.step (.init ["Sub", "Page"]) hnew))
  have hlog : [] ++ Operation.registrations urnSetting (.initial urnSetting.config)
        (.init ["Sub", "Page"]) ++ [] ++ Operation.registrations urnSetting
        ((World.initial urnSetting.config).run urnSetting
          [.init ["Sub", "Page"], .create "Page" (some (.iri "http://ex/a"))]) (.init ["Other"]) =
      [("urn:Sub", "Sub"), ("http://ex/Page", "Page"), ("http://ex/Other", "Other")] := by
    decide +kernel
  rw [← hlog]
  exact h

/-- The page is found by its class, whatever the prefixes are, and its class is recognised in what
is written of a page. -/
theorem typeForClass_registered_page :
    World.History urnSetting
        ([("urn:Sub", "Sub")] ++ ("http://ex/Page", "Page") :: [("http://ex/Other", "Other")])
        pageWorld ∧
      pageWorld.typeForClass "http://ex/Page" = some "Page" ∧
      ∃ g w', toGraph urnSetting ⟨0⟩ pageWorld = .ok g w' ∧
        assertedType w' g (.iri "http://ex/a") = some "Page" := by
  obtain ⟨-, -, hfound, hwritten⟩ := typeForClass_registered urnSetting pageWorld
    [("urn:Sub", "Sub")] [("http://ex/Other", "Other")] "http://ex/Page" "Page" history_pageWorld
    (by decide)
  obtain ⟨g, w', hrun, hpass⟩ := Run.exists_ok (x := toGraph urnSetting ⟨0⟩ pageWorld)
    (p := fun _ w => !decide (w.namespaces.Abbreviates "http://ex/Page") &&
      decide (w.heap.id? ⟨0⟩ = some (.iri "http://ex/a"))) (by decide +kernel)
  rw [Bool.and_eq_true] at hpass
  obtain ⟨k, hk, htype⟩ := hwritten ⟨0⟩ g w' (by decide +kernel) hrun (by simpa using hpass.1)
  cases hk.symm.trans (of_decide_eq_true hpass.2)
  exact ⟨history_pageWorld, hfound (by decide +kernel), g, w', hrun, htype⟩

/-- **A registered type can be lost**: the class of the second type is registered for it and nothing
else is registered for that class, and yet looking the class up finds no type, since the other type
has declared the prefix `urn` in the meantime. -/
theorem typeForClass_lost :
    ∃ w, World.History urnSetting
        ([] ++ ("urn:Sub", "Sub") :: [("http://ex/Page", "Page"), ("http://ex/Other", "Other")]) w ∧
      (∃ b, bindingOf urnSetting "Sub" w = .ok b w ∧ b.classIri = "urn:Sub") ∧
      w.typeForClass "urn:Sub" = none := by
  obtain ⟨b, hb, hiri⟩ := history_pageWorld.registered.2 ("urn:Sub", "Sub") (by simp)
  exact ⟨pageWorld, history_pageWorld, ⟨b, bindingOf_of_cached hb, hiri⟩, by decide +kernel⟩

end Engine

end GraphMarshal
