import GraphMarshal.Json
import GraphMarshal.Table
import GraphMarshal.Text.Blank
import GraphMarshal.Text.Split

/-!
# Configuration

The settings of an engine, and the three places they come from: the locale, a JSON value and flat properties.
-/

namespace GraphMarshal

/-- The two environment variables that name the locale. -/
structure Environment where
  lcAll : Option String := none
  lang : Option String := none

structure Config where
  /-- Related records that cannot be made are errors instead of being left out. -/
  strict : Bool := false
  /-- Scalars are written as typed literals instead of plain ones. -/
  strongTyping : Bool := true
  /-- Only literals in the language of their member are read. -/
  languageAware : Bool := false
  /-- A member without a predicate gets one from its name. -/
  inferBindings : Bool := true
  /-- Every mapped type has to carry the entity marker. -/
  enforceEntity : Bool := false
  /-- The language preferred when no literal is untagged. -/
  defaultLanguage : String
  namespaces : Table String String := ∅

namespace Config

open Text

/-! ## Locale -/

def fallbackLanguage : String := "en"

def asciiLower (s : String) : String := String.ofList (s.toList.map Char.toLower)

/-- The language of a locale name, in lower case; the neutral locales have none. -/
def languageOf? (locale : String) : Option String :=
  let cut := (splitOn (fun c => c = '_' || c = '.' || c = '@' || c = '-') locale.toList).headD []
  let lang := String.ofList (trim cut)
  if lang = "" ∨ lang = "C" ∨ lang = "POSIX" then none else some (asciiLower lang)

/-- The language of the first variable that names one. -/
def localeLanguage (env : Environment) : String :=
  ([env.lcAll, env.lang].findSome? fun v => v.bind languageOf?).getD fallbackLanguage

def ofLocale (env : Environment) : Config := { defaultLanguage := localeLanguage env }

/-! ## JSON -/

/-- The member of a key, read by `read?`; `default` if there is no such member. Repeated keys are errors. -/
def setting? {α : Type} (members : List (String × Json)) (key : String) (read? : Json → Option α)
    (default : α) : Option α :=
  match Json.uniqueMember? members key with
  | none => none
  | some none => some default
  | some (some v) => read? v

/-- An object of texts; the later of two members of one key counts. -/
def namespacesOfJson? : Json → Option (Table String String)
  | .object members =>
    (members.mapM fun (e : String × Json) => e.2.string?.map fun ns => (e.1, ns)).map Table.ofList
  | _ => none

def ofMembers? (base : Config) (members : List (String × Json)) : Option Config := do
  let strict ← setting? members "strict_mode" Json.bool? base.strict
  let strongTyping ← setting? members "strong_typing" Json.bool? base.strongTyping
  let languageAware ← setting? members "enable_lang_aware" Json.bool? base.languageAware
  let inferBindings ← setting? members "infer_missing_bindings" Json.bool? base.inferBindings
  let enforceEntity ← setting? members "enforce_entity_marker" Json.bool? base.enforceEntity
  let defaultLanguage ← setting? members "default_language" Json.string? base.defaultLanguage
  let namespaces ← setting? members "namespaces" namespacesOfJson? base.namespaces
  some { strict, strongTyping, languageAware, inferBindings, enforceEntity, defaultLanguage, namespaces }

/-- The keys of the settings, in the order of the array form. -/
def settingKeys : List String :=
  ["strict_mode", "strong_typing", "enable_lang_aware", "infer_missing_bindings",
    "enforce_entity_marker", "default_language", "namespaces"]

/-- Settings from an object, or from an array that gives them in order and may end early. -/
def ofJson? (env : Environment) : Json → Option Config
  | .object members => (ofLocale env).ofMembers? members
  | .array items =>
    if items.length ≤ settingKeys.length then (ofLocale env).ofMembers? (settingKeys.zip items) else none
  | _ => none

/-! ## Properties -/

/-- The value of the first pair of a key. -/
def property? (props : List (String × String)) (key : String) : Option String :=
  (props.find? fun e => e.1 = key).map (·.2)

def flag? (text : String) : Option Bool :=
  let word := strip text
  if word = "true" then some true else if word = "false" then some false else none

/-- Switches the setting that a key names in any case; other keys and values that are no flags change nothing. -/
def withProperty (c : Config) (key value : String) : Config :=
  match flag? value with
  | none => c
  | some flag =>
    let key := asciiLower key
    if key = "strict_mode" then { c with strict := flag }
    else if key = "strong_typing" then { c with strongTyping := flag }
    else if key = "enable_lang_aware" then { c with languageAware := flag }
    else if key = "infer_missing_bindings" then { c with inferBindings := flag }
    else if key = "enforce_entity_marker" ∨ key = "enforce_entity_annotation" then
      { c with enforceEntity := flag }
    else c

/-- The trimmed items of a list separated by commas that are not empty. -/
def listItems (text : String) : List String :=
  ((splitOn (· = ',') text.toList).map fun item => String.ofList (trim item)).filter (· ≠ "")

def withNamespaceList (c : Config) (props : List (String × String)) : Config :=
  match property? props "ns_list" with
  | none => c
  | some text =>
    let pairs := (listItems text).filterMap fun label => (property? props label).map fun ns => (label, ns)
    { c with namespaces := c.namespaces.insertAll pairs }

def ofProperties (env : Environment) (props : List (String × String)) : Config :=
  let c := props.foldl (fun c e => c.withProperty e.1 e.2) (ofLocale env)
  let c := match property? props "default_language" with
    | some lang => { c with defaultLanguage := strip lang }
    | none => c
  c.withNamespaceList props

end Config

end GraphMarshal
