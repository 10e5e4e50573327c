import GraphMarshal.Proofs.Declarations
import GraphMarshal.Proofs.Resolution

/-!
# Prefixes that agree

A type is resolved by the prefix table of the moment, which depends on the types resolved before.
Where all declarations agree on the namespaces of prefixes this makes no difference to a type whose
prefixes are declared by itself, by the ancestors it inherits, by the configuration, by the
well-known table or by nobody: at its resolution every such table says the same of them. The
invariant is that a table holds only what somebody declares, and all that the types it has taken
declare.
-/

namespace GraphMarshal

open Engine

/-! ## Expansion -/

namespace Namespaces

/-- The prefix that an IRI uses if it is compact: what stands before its first colon, unless two
slashes follow. -/
def prefixOf? (iri : String) : Option String :=
  match Text.splitFirst ':' iri.toList with
  | none => none
  | some (label, rest) =>
    if rest.take 2 = ['/', '/'] then none else some (String.ofList label)

/-- Only the prefix that an IRI uses matters to what it stands for. -/
theorem expand_congr {n n' : Namespaces} {iri : String}
    (h : ∀ label, prefixOf? iri = some label → n.get? label = n'.get? label) :
    n.expand iri = n'.expand iri := by
  unfold expand
  unfold prefixOf? at h
  split
  · rfl
  · next label rest hsplit =>
    rw [hsplit] at h
    split
    · rfl
    · next hslash =>
      dsimp only at h
      rw [h _ (if_neg hslash)]

/-- A table takes an IRI for a compact one: it knows the prefix that the IRI uses. -/
def Abbreviates (n : Namespaces) (iri : String) : Prop :=
  ∃ label ∈ prefixOf? iri, (n.get? label).isSome

instance (n : Namespaces) (iri : String) : Decidable (n.Abbreviates iri) := by
  unfold Abbreviates; infer_instance

/-- Any other IRI stands for itself. -/
theorem expand_of_not_abbreviates {n : Namespaces} {iri : String} (h : ¬n.Abbreviates iri) :
    n.expand iri = iri := by
  have hnone : ∀ label, prefixOf? iri = some label → n.get? label = none := fun label hl =>
    Option.not_isSome_iff_eq_none.1 fun hsome => h ⟨label, hl, hsome⟩
  unfold expand
  unfold prefixOf? at hnone
  split
  · rfl
  · next label rest hsplit =>
    rw [hsplit] at hnone
    split
    · rfl
    · next hslash =>
      dsimp only at hnone
      rw [hnone _ (if_neg hslash)]

end Namespaces

/-! ## Declarations -/

/-- The IRIs that a descriptor gives, compact or expanded. -/
def Descriptor.iris (d : Descriptor) : List String :=
  d.classIri.toList ++ d.members.filterMap (·.predicate) ++ (d.idMember.bind (·.ns)).toList

namespace Setting

/-- The prefixes known before any type is resolved. -/
def basePrefixes (cx : Setting) : List (String × String) :=
  Vocabulary.wellKnown ++ cx.config.namespaces.entries

/-- All declarations of prefixes: those known from the start and those of all types. -/
def declared (cx : Setting) : List (String × String) :=
  cx.basePrefixes ++ cx.schema.types.flatMap fun d => (cx.schema.descriptor d.name).namespaces

/-- All declarations agree on the namespace of every prefix. -/
def Consistent (cx : Setting) : Prop :=
  ∀ e ∈ cx.declared, ∀ e' ∈ cx.declared, e.1 = e'.1 → e = e'

/-- Every prefix that a type or an ancestor it inherits uses is known from the start, or declared by
the type or such an ancestor, or not declared at all. -/
def Grounded (cx : Setting) (ty : TypeName) : Prop :=
  ∀ a ∈ ty :: cx.schema.inherited ty, ∀ iri ∈ (cx.schema.descriptor a).iris,
    ∀ label ∈ Namespaces.prefixOf? iri,
      label ∈ (cx.basePrefixes ++ cx.schema.declarations ty).map (·.1) ∨
        label ∉ cx.declared.map (·.1)

instance (cx : Setting) : Decidable cx.Consistent := by unfold Consistent; infer_instance

instance (cx : Setting) (ty : TypeName) : Decidable (cx.Grounded ty) := by
  unfold Grounded; infer_instance

variable {cx : Setting} {ty : TypeName} {e : String × String}

theorem mem_declared_of_base (he : e ∈ cx.basePrefixes) : e ∈ cx.declared :=
  List.mem_append_left _ he

theorem mem_declared_of_descriptor (he : e ∈ (cx.schema.descriptor ty).namespaces) :
    e ∈ cx.declared := by
  have hd := he
  unfold Schema.descriptor at hd
  split at hd
  · next d hfind =>
    unfold Schema.find? at hfind
    have hname : d.name = ty := by simpa using List.find?_some hfind
    refine List.mem_append_right _ (List.mem_flatMap.2 ⟨d, List.mem_of_find?_eq_some hfind, ?_⟩)
    rw [hname]
    exact he
  · cases hd

end Setting

/-! ## Prefix tables -/

namespace Namespaces

/-- A table says only what is declared, and knows what is known from the start and what the types
declare that it has taken. -/
structure Lawful (cx : Setting) (n : Namespaces) : Prop where
  sound : ∀ {label ns}, n.get? label = some ns → (label, ns) ∈ cx.declared
  base : ∀ e ∈ cx.basePrefixes, (n.get? e.1).isSome
  taken : ∀ ty ∈ n.registered, ∀ e ∈ (cx.schema.descriptor ty).namespaces, (n.get? e.1).isSome

variable {cx : Setting} {n n' : Namespaces} {ty : TypeName}

theorem lawful_initial (cx : Setting) : (World.initial cx.config).namespaces.Lawful cx := by
  have hlookup : ∀ label, (World.initial cx.config).namespaces.get? label =
      ((Table.ofList Vocabulary.wellKnown).insertAll cx.config.namespaces.entries).get? label :=
    fun _ => rfl
  refine ⟨fun {label ns} h => ?_, fun e he => ?_, fun ty hty => by cases hty⟩
  · rw [hlookup] at h
    refine Setting.mem_declared_of_base (List.mem_append.2 ?_)
    rcases Table.get?_insertAll_cases h with hc | hw
    · exact .inr hc
    · rcases Table.get?_insertAll_cases hw with hw | hnone
      · exact .inl hw
      · cases hnone
  · rw [hlookup]
    rcases List.mem_append.1 he with hw | hc
    · exact Table.isSome_get?_insertAll _ (Table.isSome_get?_of_mem hw)
    · exact Table.isSome_get?_of_mem hc

/-- Taking the declarations of a type: the table stays lawful and keeps what it knows, and the type
counts as taken. -/
theorem Lawful.register (h : n.Lawful cx) (ty : TypeName) :
    (n.register ty (cx.schema.descriptor ty).namespaces).Lawful cx ∧
      ty ∈ (n.register ty (cx.schema.descriptor ty).namespaces).registered ∧
      ∀ a ∈ n.registered, a ∈ (n.register ty (cx.schema.descriptor ty).namespaces).registered := by
  unfold Namespaces.register
  split
  · next hreg => exact ⟨h, of_decide_eq_true hreg, fun _ ha => ha⟩
  · refine ⟨⟨fun {label ns} hget => ?_, fun e he => ?_, fun a ha e he => ?_⟩,
      List.mem_cons_self, fun a ha => List.mem_cons_of_mem ty ha⟩
    · rcases Table.get?_insertAll_cases hget with hnew | hold
      · exact Setting.mem_declared_of_descriptor hnew
      · exact h.sound hold
    · exact Table.isSome_get?_insertAll _ (h.base e he)
    · rcases List.mem_cons.1 ha with rfl | ha
      · exact Table.isSome_get?_of_mem he
      · exact Table.isSome_get?_insertAll _ (h.taken a ha e he)

theorem Lawful.registerAll (tys : List TypeName) (h : n.Lawful cx) :
    (n.registerAll cx.schema tys).Lawful cx ∧
      (∀ a ∈ n.registered, a ∈ (n.registerAll cx.schema tys).registered) ∧
      ∀ ty ∈ tys, ty ∈ (n.registerAll cx.schema tys).registered := by
  induction tys generalizing n with
  | nil => exact ⟨h, fun _ ha => ha, fun _ hty => by cases hty⟩
  | cons ty tys ih =>
    obtain ⟨hn, hty, hkept⟩ := h.register ty
    obtain ⟨hn', hkept', htys⟩ := ih hn
    refine ⟨hn', fun a ha => hkept' a (hkept a ha), fun a ha => ?_⟩
    rcases List.mem_cons.1 ha with rfl | ha
    · exact hkept' a hty
    · exact htys a ha

/-- A table by which a type may be resolved: its declarations have been taken. -/
structure Ready (cx : Setting) (ty : TypeName) (n : Namespaces) : Prop extends Lawful cx n where
  ready : ∀ e ∈ cx.schema.declarations ty, (n.get? e.1).isSome

theorem Lawful.readied (h : n.Lawful cx) (ty : TypeName) :
    (n.registerAll cx.schema (ty :: cx.schema.inherited ty)).Ready cx ty := by
  obtain ⟨hn, -, htys⟩ := h.registerAll (ty :: cx.schema.inherited ty)
  refine ⟨hn, fun e he => ?_⟩
  obtain ⟨a, ha, hea⟩ := List.mem_flatMap.1 he
  exact hn.taken a (htys a ha) e hea

theorem Ready.get?_eq (h : n.Ready cx ty) (h' : n'.Ready cx ty) (hc : cx.Consistent)
    {label : String} (hl : label ∈ (cx.basePrefixes ++ cx.schema.declarations ty).map (·.1) ∨
      label ∉ cx.declared.map (·.1)) :
    n.get? label = n'.get? label := by
  rcases hl with hl | hl
  · obtain ⟨e, he, rfl⟩ := List.mem_map.1 hl
    have hknown : ∀ {n : Namespaces}, n.Ready cx ty → (n.get? e.1).isSome := fun hn =>
      (List.mem_append.1 he).elim (hn.base e) (hn.ready e)
    obtain ⟨ns, hns⟩ := Option.isSome_iff_exists.1 (hknown h)
    obtain ⟨ns', hns'⟩ := Option.isSome_iff_exists.1 (hknown h')
    cases hc _ (h.sound hns) _ (h'.sound hns') rfl
    rw [hns, hns']
  · have hunknown : ∀ {n : Namespaces}, n.Lawful cx → n.get? label = none := fun {n} hn => by
      cases hget : n.get? label with
      | none => rfl
      | some ns => exact absurd (List.mem_map_of_mem (hn.sound hget)) hl
    rw [hunknown h.toLawful, hunknown h'.toLawful]

end Namespaces

/-! ## Bindings -/

theorem Setting.classIri_of_checkedClass {cx : Setting} {ty : TypeName} {iri : String}
    (h : cx.checkedClass ty = .ok iri) : (cx.schema.descriptor ty).classIri = some iri := by
  unfold checkedClass at h
  split at h
  · cases h
  · next iri' hiri =>
    split at h
    · cases h
    · split at h
      · cases h
      · cases h
        exact hiri

/-- A binding is made from what the IRIs of the type and of the ancestors it inherits stand for. -/
theorem TypeBinding.build_congr {cx : Setting} {n n' : Namespaces} {ty : TypeName} {iri : String}
    (hc : cx.checkedClass ty = .ok iri)
    (h : ∀ a ∈ ty :: cx.schema.inherited ty, ∀ i ∈ (cx.schema.descriptor a).iris,
      n.expand i = n'.expand i) :
    TypeBinding.build cx n ty iri = TypeBinding.build cx n' ty iri := by
  have hclass : n.expand iri = n'.expand iri := by
    refine h ty List.mem_cons_self iri ?_
    unfold Descriptor.iris
    rw [Setting.classIri_of_checkedClass hc]
    simp
  have hid : (cx.schema.descriptor ty).idMember.map (fun id => { id with ns := id.ns.map n.expand })
      = (cx.schema.descriptor ty).idMember.map fun id => { id with ns := id.ns.map n'.expand } := by
    refine Option.map_congr fun id hid => ?_
    rw [Option.map_congr fun ns hns => h ty List.mem_cons_self ns ?_]
    unfold Descriptor.iris
    rw [hid]
    exact List.mem_append_right _ (Option.mem_toList.2 hns)
  have hmembers : (cx.schema.effectiveMembers ty).filterMap
      (MemberBinding.ofMember? cx.config n (namespaceOf (n.expand iri))) =
      (cx.schema.effectiveMembers ty).filterMap
        (MemberBinding.ofMember? cx.config n' (namespaceOf (n'.expand iri))) := by
    refine List.filterMap_congr fun m hm => ?_
    obtain ⟨a, ha, hma⟩ := Schema.mem_effectiveMembers hm
    unfold MemberBinding.ofMember?
    rw [hclass]
    cases hp : m.predicate with
    | none => rfl
    | some p =>
      have hexpand : n.expand p = n'.expand p := by
        refine h a ha p (List.mem_append_left _ (List.mem_append_right _ ?_))
        exact List.mem_filterMap.2 ⟨m, hma, hp⟩
      dsimp only
      rw [hexpand]
  unfold TypeBinding.build
  dsimp only
  rw [hid, hmembers, hclass]

theorem TypeBinding.build_eq {cx : Setting} {n n' : Namespaces} {ty : TypeName} {iri : String}
    (hc : cx.Consistent) (hg : cx.Grounded ty) (hiri : cx.checkedClass ty = .ok iri)
    (h : n.Ready cx ty) (h' : n'.Ready cx ty) :
    TypeBinding.build cx n ty iri = TypeBinding.build cx n' ty iri :=
  build_congr hiri fun a ha i hi => Namespaces.expand_congr fun label hl =>
    h.get?_eq h' hc (hg a ha i hi label hl)

/-! ## Runs -/

/-- The table of a world is lawful, and every binding was made by a table ready for it. -/
structure World.Prefixed (cx : Setting) (w : World) : Prop where
  table : w.namespaces.Lawful cx
  bound : ∀ {ty b}, w.bindings.get? ty = some b →
    ∃ n iri, n.Ready cx ty ∧ cx.checkedClass ty = .ok iri ∧ b = TypeBinding.build cx n ty iri

namespace World.Prefixed

variable {cx : Setting} {w w₁ : World} {ty : TypeName} {l : List (String × TypeName)}

theorem resolved {iri : String} (h : w.Prefixed cx) (hc : cx.checkedClass ty = .ok iri) :
    (w.resolved cx ty iri).Prefixed cx where
  table := (h.table.readied ty).toLawful
  bound {ty' b} hb := by
    have hget : (w.bindings.insert ty _).get? ty' = some b := hb
    rw [Table.get?_insert] at hget
    split at hget
    · next heq =>
      subst heq
      cases hget
      exact ⟨_, iri, h.table.readied ty, hc, rfl⟩
    · exact h.bound hget

theorem step (h : w.Prefixed cx) (hs : w.Resolves cx l w₁) : w₁.Prefixed cx := by
  induction hs with
  | rest hn hb _ => exact ⟨hn ▸ h.table, fun hget => h.bound (hb ▸ hget)⟩
  | type _ hc => exact h.resolved hc
  | «class» _ => exact ⟨h.table, h.bound⟩
  | trans _ _ ih ih' => exact ih' (ih h)

theorem initial (cx : Setting) : (World.initial cx.config).Prefixed cx :=
  ⟨Namespaces.lawful_initial cx, fun hb => by cases hb⟩

theorem run {ops : List Operation} (h : w.Prefixed cx) (hops : ∀ op ∈ ops, op.declares = false) :
    (w.run cx ops).Prefixed cx := by
  induction ops generalizing w with
  | nil => exact h
  | cons op ops ih =>
    exact ih (h.step (op.after_resolves (hops op List.mem_cons_self)))
      fun op' hop' => hops op' (List.mem_cons_of_mem op hop')

theorem bindingOf_checked {iri : String} (h : w.Prefixed cx) (hc : cx.checkedClass ty = .ok iri) :
    ∃ n w', n.Ready cx ty ∧ bindingOf cx ty w = .ok (TypeBinding.build cx n ty iri) w' := by
  cases hb : w.bindings.get? ty with
  | none => exact ⟨_, _, h.table.readied ty, bindingOf_of_checked hb hc⟩
  | some b =>
    obtain ⟨n, iri', hn, hc', rfl⟩ := h.bound hb
    cases hc.symm.trans hc'
    exact ⟨n, w, hn, bindingOf_of_cached hb⟩

theorem bindingOf_flawed {flaw : Flaw} (h : w.Prefixed cx)
    (hc : cx.checkedClass ty = .error flaw) :
    bindingOf cx ty w = .error (.failed (.invalid flaw)) w := by
  cases hb : w.bindings.get? ty with
  | none => exact bindingOf_of_flaw hb hc
  | some b =>
    obtain ⟨n, iri, -, hc', -⟩ := h.bound hb
    cases hc.symm.trans hc'

end World.Prefixed

/-- **Bindings do not depend on the order in which types are resolved**: where all declarations
agree on the namespaces of prefixes, and those that a type uses are declared by itself, by an
ancestor it inherits, from the start or by nobody, resolving the type gives the same binding after
any two runs of an engine with the same settings, whatever these did and however it ended, or it
fails after both for the same flaw. -/
theorem Engine.bindingOf_after_any (cx : Setting) (ty : TypeName) (ops ops' : List Operation)
    (hc : cx.Consistent) (hg : cx.Grounded ty) (hops : ∀ op ∈ ops, op.declares = false)
    (hops' : ∀ op ∈ ops', op.declares = false) :
    (∃ b w w', bindingOf cx ty ((World.initial cx.config).run cx ops) = .ok b w ∧
      bindingOf cx ty ((World.initial cx.config).run cx ops') = .ok b w') ∨
    ∃ flaw w w', bindingOf cx ty ((World.initial cx.config).run cx ops) =
        .error (.failed (.invalid flaw)) w ∧
      bindingOf cx ty ((World.initial cx.config).run cx ops') =
        .error (.failed (.invalid flaw)) w' := by
  have h := (World.Prefixed.initial cx).run hops
  have h' := (World.Prefixed.initial cx).run hops'
  cases hiri : cx.checkedClass ty with
  | error flaw => exact .inr ⟨flaw, _, _, h.bindingOf_flawed hiri, h'.bindingOf_flawed hiri⟩
  | ok iri =>
    obtain ⟨n, w, hn, hb⟩ := h.bindingOf_checked hiri
    obtain ⟨n', w', hn', hb'⟩ := h'.bindingOf_checked hiri
    refine .inl ⟨_, w, w', hb, ?_⟩
    rw [TypeBinding.build_eq hc hg hiri hn hn']
    exact hb'

/-- Readers, who are agents, and books, which declare the prefix of the agents too. -/
def librarySetting : Setting where
  config := { defaultLanguage := "en", namespaces := .ofList [("app", "urn:app:")] }
  schema := { types := [
    { name := "Agent"
      descriptor := {
        classIri := some "foaf:Agent"
        namespaces := [("foaf", "http://xmlns.com/foaf/0.1/")]
        members := [{ name := "name", kind := .string, predicate := some "foaf:name" }] } },
    { name := "Reader"
      descriptor := {
        classIri := some "app:Reader"
        inherits := true
        parents := ["Agent"]
        idMember := some { member := "card", ns := some "app:card/" }
        members := [{ name := "card", kind := .string, predicate := some "urn:card" }] } },
    { name := "Book"
      descriptor := {
        classIri := some "app:Book"
        namespaces := [("foaf", "http://xmlns.com/foaf/0.1/"), ("dc", "urn:dc:")]
        members := [{ name := "title", kind := .string, predicate := some "dc:title" }] } }] }

/-- Readers are bound alike in a library that knows books first and in one that has read about a
reader first. -/
theorem Engine.bindingOf_after_any_library :
    librarySetting.Consistent ∧ librarySetting.Grounded "Reader" ∧
      ∃ b w w',
        bindingOf librarySetting "Reader" ((World.initial librarySetting.config).run librarySetting
          [.init ["Book"], .resolve "Agent"]) = .ok b w ∧
        bindingOf librarySetting "Reader" ((World.initial librarySetting.config).run librarySetting
          [.attach .empty, .read ⟨0⟩ "Reader" (.iri "urn:r"), .init ["Reader", "Book"]]) = .ok b w' ∧
        b.classIri = "urn:app:Reader" ∧
          b.members.map (·.predicate) = ["http://xmlns.com/foaf/0.1/name", "urn:card"] := by
  have hc : librarySetting.Consistent := by decide +kernel
  have hg : librarySetting.Grounded "Reader" := by decide +kernel
  have hbound : Run.passes (fun b _ => decide (b.classIri = "urn:app:Reader") &&
      decide (b.members.map (·.predicate) = ["http://xmlns.com/foaf/0.1/name", "urn:card"]))
      (bindingOf librarySetting "Reader" ((World.initial librarySetting.config).run librarySetting
        [.init ["Book"], .resolve "Agent"])) := by
    decide +kernel
  obtain ⟨b, w, hb, hpass⟩ := Run.exists_ok hbound
  rw [Bool.and_eq_true] at hpass
  rcases bindingOf_after_any librarySetting "Reader" [.init ["Book"], .resolve "Agent"]
      [.attach .empty, .read ⟨0⟩ "Reader" (.iri "urn:r"), .init ["Reader", "Book"]] hc hg
      (by decide) (by decide) with ⟨b', w₁, w', h, h'⟩ | ⟨flaw, w₁, w', h, -⟩
  · cases hb.symm.trans h
    exact ⟨hc, hg, b, w, w', hb, h', of_decide_eq_true hpass.1, of_decide_eq_true hpass.2⟩
  · cases hb.symm.trans h

end GraphMarshal
