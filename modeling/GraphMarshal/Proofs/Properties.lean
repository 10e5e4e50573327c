import GraphMarshal.Config
import Mathlib.Data.List.Nodup

/-!
# Configuration from properties

Flat properties come in no order, while they are read one by one and several keys may set one toggle:
keys count in any case, and the marker of entities has two. Of the values given for a toggle the last
one counts. So where all that are given for it agree no order makes a difference; the language and
the prefixes are looked up by key and depend on no order anyway. An entry that gives no toggle a value
and is looked up by nobody might as well be missing.

A key may be a toggle and a prefix at once. Its value is then a namespace, even if it is no flag.
-/

namespace GraphMarshal

/-- The settings that are on or off. -/
inductive Toggle where
  | strict
  | strongTyping
  | languageAware
  | inferBindings
  | enforceEntity
deriving DecidableEq

/-- The keys of a toggle, in lower case. -/
def Toggle.keys : Toggle → List String
  | .strict => ["strict_mode"]
  | .strongTyping => ["strong_typing"]
  | .languageAware => ["enable_lang_aware"]
  | .inferBindings => ["infer_missing_bindings"]
  | .enforceEntity => ["enforce_entity_marker", "enforce_entity_annotation"]

namespace Config

variable {c c' : Config} {env : Environment} {props props' extra : List (String × String)}
  {t : Toggle} {b : Bool} {key value : String} {e : String × String}

def toggle (c : Config) : Toggle → Bool
  | .strict => c.strict
  | .strongTyping => c.strongTyping
  | .languageAware => c.languageAware
  | .inferBindings => c.inferBindings
  | .enforceEntity => c.enforceEntity

theorem ext_of_toggle (htoggle : ∀ t, c.toggle t = c'.toggle t)
    (hlanguage : c.defaultLanguage = c'.defaultLanguage) (hns : c.namespaces = c'.namespaces) :
    c = c' := by
  have hstrict := htoggle .strict
  have htyping := htoggle .strongTyping
  have haware := htoggle .languageAware
  have hinfer := htoggle .inferBindings
  have hentity := htoggle .enforceEntity
  cases c
  cases c'
  simp_all only [toggle]

/-! ## Toggles -/

/-- A key names a toggle. -/
def Names (key : String) (t : Toggle) : Prop := asciiLower key ∈ t.keys

instance : Decidable (Names key t) := by unfold Names; infer_instance

/-- The value that an entry gives to a toggle. -/
def given? (t : Toggle) (e : String × String) : Option Bool :=
  if Names e.1 t then flag? e.2 else none

/-- Some entry gives a value to a toggle. -/
def Gives (props : List (String × String)) (t : Toggle) (b : Bool) : Prop :=
  ∃ e ∈ props, given? t e = some b

instance : Decidable (Gives props t b) := by unfold Gives; infer_instance

/-- All values that are given to one toggle agree. -/
def Agreeing (props : List (String × String)) : Prop :=
  ∀ t b b', Gives props t b → Gives props t b' → b = b'

theorem toggle_withProperty (c : Config) (key value : String) (t : Toggle) :
    (c.withProperty key value).toggle t = (given? t (key, value)).getD (c.toggle t) := by
  unfold withProperty given?
  cases flag? value with
  | none => rw [ite_self]; rfl
  | some flag =>
    unfold Names
    dsimp only
    -- Different toggles have different keys, so the branch that is taken tells the toggle.
    split_ifs <;> cases t <;> simp_all [toggle, Toggle.keys]

theorem withProperty_text (c : Config) (key value : String) :
    (c.withProperty key value).defaultLanguage = c.defaultLanguage ∧
      (c.withProperty key value).namespaces = c.namespaces := by
  unfold withProperty
  cases flag? value with
  | none => exact ⟨rfl, rfl⟩
  | some flag =>
    dsimp only
    split_ifs <;> exact ⟨rfl, rfl⟩

/-- A configuration after all entries have been read for toggles. -/
def withProperties (c : Config) (props : List (String × String)) : Config :=
  props.foldl (fun c e => c.withProperty e.1 e.2) c

theorem withProperties_cons (c : Config) (e : String × String) (props : List (String × String)) :
    c.withProperties (e :: props) = (c.withProperty e.1 e.2).withProperties props :=
  List.foldl_cons ..

/-- Of the values given for a toggle the last one counts. -/
theorem toggle_withProperties (c : Config) (props : List (String × String)) (t : Toggle) :
    (c.withProperties props).toggle t =
      (props.filterMap (given? t)).getLast?.getD (c.toggle t) := by
  induction props generalizing c with
  | nil => rfl
  | cons e props ih =>
    rw [withProperties_cons, ih, toggle_withProperty, List.filterMap_cons]
    cases given? t e with
    | none => rfl
    | some b => rw [List.getLast?_cons]; rfl

theorem withProperties_text (c : Config) (props : List (String × String)) :
    (c.withProperties props).defaultLanguage = c.defaultLanguage ∧
      (c.withProperties props).namespaces = c.namespaces := by
  induction props generalizing c with
  | nil => exact ⟨rfl, rfl⟩
  | cons e props ih =>
    obtain ⟨hlanguage, hns⟩ := withProperty_text c e.1 e.2
    obtain ⟨hlanguage', hns'⟩ := ih (c.withProperty e.1 e.2)
    rw [withProperties_cons]
    exact ⟨hlanguage'.trans hlanguage, hns'.trans hns⟩

theorem gives_iff : Gives props t b ↔ b ∈ props.filterMap (given? t) :=
  List.mem_filterMap.symm

theorem toggle_of_gives (h : Gives props t b) (honly : ∀ b', Gives props t b' → b' = b) :
    (c.withProperties props).toggle t = b := by
  have hne : props.filterMap (given? t) ≠ [] := List.ne_nil_of_mem (gives_iff.1 h)
  rw [toggle_withProperties, List.getLast?_eq_some_getLast hne]
  exact honly _ (gives_iff.2 (List.getLast_mem hne))

theorem toggle_of_not_gives (h : ∀ b, ¬Gives props t b) :
    (c.withProperties props).toggle t = c.toggle t := by
  have hnil : props.filterMap (given? t) = [] :=
    List.eq_nil_iff_forall_not_mem.2 fun b hb => h b (gives_iff.2 hb)
  rw [toggle_withProperties, hnil]
  rfl

theorem toggle_congr (hagree : Agreeing props) (hsame : ∀ b, Gives props' t b ↔ Gives props t b) :
    (c.withProperties props').toggle t = (c.withProperties props).toggle t := by
  by_cases h : ∃ b, Gives props t b
  · obtain ⟨b, hb⟩ := h
    have honly : ∀ b', Gives props t b' → b' = b := fun b' hb' => hagree t b' b hb' hb
    rw [toggle_of_gives hb honly,
      toggle_of_gives ((hsame b).2 hb) fun b' hb' => honly b' ((hsame b').1 hb')]
  · have hnone : ∀ b, ¬Gives props t b := not_exists.1 h
    rw [toggle_of_not_gives hnone, toggle_of_not_gives fun b hb => hnone b ((hsame b).1 hb)]

/-! ## Look-ups -/

/-- The properties are a map: no key comes twice. -/
def IsMap (props : List (String × String)) : Prop := (props.map (·.1)).Nodup

instance : Decidable (IsMap props) := by unfold IsMap; infer_instance

theorem property?_eq_some_iff (h : IsMap props) : property? props key = some value ↔
    (key, value) ∈ props := by
  have hkey : ∀ {e}, (props.find? fun e => e.1 = key) = some e → e.1 = key := fun he => by
    simpa using List.find?_some he
  unfold property?
  rw [Option.map_eq_some_iff]
  constructor
  · rintro ⟨e, he, rfl⟩
    rw [← hkey he]
    exact List.mem_of_find?_eq_some he
  · intro hmem
    have hfound : (props.find? fun e => e.1 = key).isSome :=
      List.find?_isSome.2 ⟨_, hmem, decide_eq_true rfl⟩
    obtain ⟨e, he⟩ := Option.isSome_iff_exists.1 hfound
    exact ⟨e, he, congrArg Prod.snd
      (List.inj_on_of_nodup_map h (List.mem_of_find?_eq_some he) hmem (hkey he))⟩

theorem property?_congr (h : IsMap props) (h' : IsMap props')
    (hsame : ∀ value, (key, value) ∈ props' ↔ (key, value) ∈ props) :
    property? props' key = property? props key := by
  ext value
  exact (property?_eq_some_iff h').trans ((hsame value).trans (property?_eq_some_iff h).symm)

/-- The items of the list of prefixes. -/
def listedPrefixes (props : List (String × String)) : List String :=
  ((property? props "ns_list").map listItems).getD []

/-- A label is one of the items that commas separate in the list of prefixes, without the white
space around it; it is not empty. -/
def Listed (props : List (String × String)) (label : String) : Prop :=
  label ≠ "" ∧ ∃ e ∈ props, e.1 = "ns_list" ∧
    ∃ item ∈ Text.splitOn (· = ',') e.2.toList, String.ofList (Text.trim item) = label

instance : Decidable (Listed props key) := by unfold Listed; infer_instance

theorem mem_listItems {text label : String} : label ∈ listItems text ↔
    label ≠ "" ∧ ∃ item ∈ Text.splitOn (· = ',') text.toList, String.ofList (Text.trim item) = label := by
  unfold listItems
  rw [List.mem_filter, List.mem_map, decide_eq_true_eq, and_comm]

theorem mem_listedPrefixes (h : IsMap props) : key ∈ listedPrefixes props ↔ Listed props key := by
  have hget : ∀ text, property? props "ns_list" = some text ↔ ("ns_list", text) ∈ props :=
    fun text => property?_eq_some_iff h
  unfold listedPrefixes Listed
  constructor
  · intro hkey
    cases htext : property? props "ns_list" with
    | none =>
      rw [htext] at hkey
      cases hkey
    | some text =>
      rw [htext] at hkey
      obtain ⟨hne, hitem⟩ := mem_listItems.1 hkey
      exact ⟨hne, ("ns_list", text), (hget text).1 htext, rfl, hitem⟩
  · rintro ⟨hne, ⟨_, text⟩, he, rfl, hitem⟩
    rw [(hget text).2 he]
    exact mem_listItems.2 ⟨hne, hitem⟩

theorem withNamespaceList_parts (c : Config) (props : List (String × String)) :
    (∀ t, (c.withNamespaceList props).toggle t = c.toggle t) ∧
    (c.withNamespaceList props).defaultLanguage = c.defaultLanguage ∧
    (c.withNamespaceList props).namespaces = c.namespaces.insertAll ((listedPrefixes props).filterMap
      fun label => (property? props label).map fun ns => (label, ns)) := by
  unfold withNamespaceList listedPrefixes
  cases property? props "ns_list" with
  | none => exact ⟨fun t => rfl, rfl, rfl⟩
  | some text =>
    dsimp only [Option.map_some, Option.getD_some]
    exact ⟨fun t => by cases t <;> simp only [toggle], rfl, rfl⟩

theorem ofProperties_parts (env : Environment) (props : List (String × String)) :
    (∀ t, (ofProperties env props).toggle t = ((ofLocale env).withProperties props).toggle t) ∧
    (ofProperties env props).defaultLanguage =
      ((property? props "default_language").map Text.strip).getD (localeLanguage env) ∧
    (ofProperties env props).namespaces = Table.insertAll ∅ ((listedPrefixes props).filterMap
      fun label => (property? props label).map fun ns => (label, ns)) := by
  obtain ⟨hlanguage, hns⟩ := (ofLocale env).withProperties_text props
  unfold ofProperties
  rw [← withProperties]
  generalize (ofLocale env).withProperties props = c at hlanguage hns ⊢
  dsimp only
  cases property? props "default_language" with
  | none =>
    obtain ⟨htoggle, hlanguage', hns'⟩ := c.withNamespaceList_parts props
    rw [hns] at hns'
    exact ⟨htoggle, hlanguage'.trans hlanguage, hns'⟩
  | some lang =>
    obtain ⟨htoggle, hlanguage', hns'⟩ :=
      { c with defaultLanguage := Text.strip lang }.withNamespaceList_parts props
    refine ⟨fun t => (htoggle t).trans ?_, hlanguage', hns'.trans ?_⟩
    · cases t <;> simp only [toggle]
    · dsimp only
      rw [hns]
      rfl

theorem ofProperties_congr
    (htoggle : ∀ t, ((ofLocale env).withProperties props').toggle t =
      ((ofLocale env).withProperties props).toggle t)
    (hlookup : ∀ key, key = "default_language" ∨ key = "ns_list" ∨ key ∈ listedPrefixes props →
      property? props' key = property? props key) :
    ofProperties env props' = ofProperties env props := by
  obtain ⟨ht, hlanguage, hns⟩ := ofProperties_parts env props
  obtain ⟨ht', hlanguage', hns'⟩ := ofProperties_parts env props'
  have hlisted : listedPrefixes props' = listedPrefixes props := by
    unfold listedPrefixes
    rw [hlookup "ns_list" (.inr (.inl rfl))]
  apply ext_of_toggle
  · exact fun t => (ht' t).trans ((htoggle t).trans (ht t).symm)
  · rw [hlanguage, hlanguage', hlookup "default_language" (.inl rfl)]
  · rw [hns, hns', hlisted]
    congr 1
    exact List.filterMap_congr fun label hlabel => by rw [hlookup label (.inr (.inr hlabel))]

theorem get?_namespaces_ofProperties {label ns : String} :
    (ofProperties env props).namespaces.get? label = some ns ↔
      label ∈ listedPrefixes props ∧ property? props label = some ns := by
  obtain ⟨-, -, hns⟩ := ofProperties_parts env props
  have hmem : ∀ {ns}, (label, ns) ∈ ((listedPrefixes props).filterMap fun label =>
      (property? props label).map fun ns => (label, ns)) ↔
      label ∈ listedPrefixes props ∧ property? props label = some ns := by
    intro ns
    simp only [List.mem_filterMap, Option.map_eq_some_iff, Prod.mk.injEq]
    constructor
    · rintro ⟨_, hlabel, _, hget, rfl, rfl⟩
      exact ⟨hlabel, hget⟩
    · exact fun ⟨hlabel, hget⟩ => ⟨label, hlabel, ns, hget, rfl, rfl⟩
  have hcases : ∀ {ns}, (ofProperties env props).namespaces.get? label = some ns →
      label ∈ listedPrefixes props ∧ property? props label = some ns := fun hget => by
    rw [hns] at hget
    exact hmem.1 ((Table.get?_insertAll_cases hget).resolve_right nofun)
  refine ⟨hcases, fun hlisted => ?_⟩
  have hsome : ((ofProperties env props).namespaces.get? label).isSome := by
    rw [hns]
    exact Table.isSome_get?_of_mem (hmem.2 hlisted)
  obtain ⟨ns', hget⟩ := Option.isSome_iff_exists.1 hsome
  rw [hget, ← (hcases hget).2, hlisted.2]

/-! ## Entries without effect -/

/-- No setting has the key. -/
def Unknown (key : String) : Prop :=
  (∀ t, ¬Names key t) ∧ key ≠ "default_language" ∧ key ≠ "ns_list"

/-- The key is unknown, or names a toggle and the value is no flag. -/
def Ignored (e : String × String) : Prop := Unknown e.1 ∨ (∃ t, Names e.1 t) ∧ flag? e.2 = none

theorem Ignored.not_given (h : Ignored e) (t : Toggle) : given? t e = none := by
  unfold given?
  rcases h with ⟨hkey, -⟩ | ⟨-, hvalue⟩
  · exact if_neg (hkey t)
  · rw [hvalue, ite_self]

theorem Ignored.key_ne (h : Ignored e) : e.1 ≠ "default_language" ∧ e.1 ≠ "ns_list" := by
  rcases h with ⟨-, hkey⟩ | ⟨⟨t, hkey⟩, -⟩
  · exact hkey
  · have hother : ∀ key, key = "default_language" ∨ key = "ns_list" → ¬Names key t := by
      rintro _ (rfl | rfl) <;> cases t <;> decide
    exact ⟨fun heq => hother e.1 (.inl heq) hkey, fun heq => hother e.1 (.inr heq) hkey⟩

theorem ofProperties_of_ignored (hmap : IsMap props') (hagree : Agreeing props)
    (hperm : props'.Perm (extra ++ props))
    (hignored : ∀ e ∈ extra, Ignored e ∧ ¬Listed props e.1) :
    ofProperties env props' = ofProperties env props := by
  have hmem : ∀ {e}, e ∈ props' ↔ e ∈ extra ∨ e ∈ props :=
    fun {e} => hperm.mem_iff.trans List.mem_append
  have hsub : IsMap props := by
    have hall : ((extra ++ props).map (·.1)).Nodup := (hperm.map _).nodup_iff.1 hmap
    rw [List.map_append] at hall
    exact (List.nodup_append.1 hall).2.1
  refine ofProperties_congr (fun t => toggle_congr hagree fun b => ?_) fun key hkey => ?_
  · constructor
    · rintro ⟨e, he, hgives⟩
      rcases hmem.1 he with he | he
      · rw [(hignored e he).1.not_given t] at hgives
        cases hgives
      · exact ⟨e, he, hgives⟩
    · exact fun ⟨e, he, hgives⟩ => ⟨e, hmem.2 (.inr he), hgives⟩
  · refine property?_congr hsub hmap fun value => hmem.trans (or_iff_right fun he => ?_)
    obtain ⟨hign, hlisted⟩ := hignored _ he
    rcases hkey with hkey | hkey | hkey
    · exact hign.key_ne.1 hkey
    · exact hign.key_ne.2 hkey
    · exact hlisted ((mem_listedPrefixes hsub).1 hkey)

/-- **Properties need no order.** If all values that a map gives for one toggle agree, the map makes
the same configuration in every order: each toggle has the value that is given for it, if one is, and
its default otherwise, and the namespaces are what the listed prefixes have as their properties. More
entries under keys that are not listed make no difference, if their keys are unknown or name toggles
for which they have no flags. -/
theorem ofProperties_settles (env : Environment) (props : List (String × String))
    (hmap : IsMap props) (hagree : Agreeing props) :
    (∀ props', props'.Perm props → ofProperties env props' = ofProperties env props) ∧
    (∀ t b, Gives props t b → (ofProperties env props).toggle t = b) ∧
    (∀ t, (∀ b, ¬Gives props t b) →
      (ofProperties env props).toggle t = (ofLocale env).toggle t) ∧
    (∀ label ns, (ofProperties env props).namespaces.get? label = some ns ↔
      Listed props label ∧ (label, ns) ∈ props) ∧
    ∀ extra props', IsMap props' → props'.Perm (extra ++ props) →
      (∀ e ∈ extra, Ignored e ∧ ¬Listed props e.1) →
      ofProperties env props' = ofProperties env props := by
  obtain ⟨htoggle, -, -⟩ := ofProperties_parts env props
  refine ⟨fun props' hperm => ?_, fun t b h => ?_, fun t h => ?_, fun label ns => ?_,
    fun extra props' hmap' hperm hignored => ofProperties_of_ignored hmap' hagree hperm hignored⟩
  · have hmap' : IsMap props' := (hperm.map _).nodup_iff.2 hmap
    have hnone : props'.Perm ([] ++ props) := hperm
    exact ofProperties_of_ignored hmap' hagree hnone (List.forall_mem_nil _)
  · rw [htoggle t]
    exact toggle_of_gives h fun b' hb' => hagree t b' b hb' h
  · rw [htoggle t]
    exact toggle_of_not_gives h
  · rw [get?_namespaces_ofProperties, mem_listedPrefixes hmap, property?_eq_some_iff hmap]

/-- Properties with a toggle in two cases, both keys of the marker, a flag in the wrong case, and a
list with blanks, repetitions, a toggle and a prefix that has no namespace. -/
def mixedProperties : List (String × String) :=
  [("STRICT_MODE", "true"), ("strict_mode", " true "), ("enforce_entity_marker", "false"),
    ("Enforce_Entity_Annotation", "false"), ("enable_lang_aware", "True"),
    ("ns_list", " foaf , ,strict_mode,foaf, dc"), ("foaf", "urn:foaf:"), ("rdf", "urn:rdf:")]

theorem agreeing_mixedProperties : Agreeing mixedProperties := by
  intro t
  cases t <;> decide

theorem ofProperties_settles_mixed :
    IsMap mixedProperties ∧ Agreeing mixedProperties ∧
      (∀ props', props'.Perm mixedProperties →
        (ofProperties {} props').toggle .strict = true ∧
        (ofProperties {} props').toggle .languageAware = false ∧
        (ofProperties {} props').namespaces.get? "strict_mode" = some " true " ∧
        (ofProperties {} props').namespaces.get? "rdf" = none) ∧
      ofProperties {} (("Strong_Typing", "no") :: ("color", "true") :: mixedProperties) =
        ofProperties {} mixedProperties := by
  have hmap : IsMap mixedProperties := by decide
  obtain ⟨horder, hgiven, hdefault, hns, hmore⟩ :=
    ofProperties_settles {} mixedProperties hmap agreeing_mixedProperties
  refine ⟨hmap, agreeing_mixedProperties, fun props' hperm => ?_, ?_⟩
  · rw [horder props' hperm]
    have hrdf : ∀ ns, (ofProperties {} mixedProperties).namespaces.get? "rdf" ≠ some ns :=
      fun ns hget => absurd ((hns "rdf" ns).1 hget).1 (by decide)
    exact ⟨hgiven .strict true (by decide), hdefault .languageAware (by decide),
      (hns "strict_mode" " true ").2 (by decide), Option.eq_none_iff_forall_ne_some.2 hrdf⟩
  · refine hmore [("Strong_Typing", "no"), ("color", "true")] _ (by decide) (List.Perm.refl _) ?_
    have htyping : Ignored ("Strong_Typing", "no") := .inr ⟨⟨.strongTyping, by decide⟩, by decide⟩
    have hcolor : Ignored ("color", "true") :=
      .inl ⟨fun t => by cases t <;> decide, by decide, by decide⟩
    exact List.forall_mem_cons.2 ⟨⟨htyping, by decide⟩,
      List.forall_mem_singleton.2 ⟨hcolor, by decide⟩⟩

/-- A toggle without a flag that the list of prefixes names is a prefix. -/
theorem ofProperties_toggle_listed :
    IsMap [("ns_list", "strict_mode")] ∧ Agreeing [("ns_list", "strict_mode")] ∧
      IsMap [("strict_mode", "urn:strict:"), ("ns_list", "strict_mode")] ∧
      Names "strict_mode" .strict ∧ flag? "urn:strict:" = none ∧
      ofProperties {} [("strict_mode", "urn:strict:"), ("ns_list", "strict_mode")] ≠
        ofProperties {} [("ns_list", "strict_mode")] := by
  refine ⟨by decide, fun t => by cases t <;> decide, by decide, by decide, by decide, fun h => ?_⟩
  have hns := congrArg (·.namespaces.get? "strict_mode") h
  revert hns
  decide

end Config

end GraphMarshal
