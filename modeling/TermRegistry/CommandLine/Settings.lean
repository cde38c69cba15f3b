import TermRegistry.CommandLine.Arguments
import TermRegistry.CommandLine.Environment
import TermRegistry.CommandLine.Setting.Key
import TermRegistry.Error
import TermRegistry.Factories
import TermRegistry.Json.Parser
import TermRegistry.Text.Split

/-!
# Settings

Settings come from three sources: a file that holds a JSON object, the environment, and the
arguments. Each source gives values for some keys, which are merged into a tree of values in that
order; only then are the fields of the tree read as settings.
-/

namespace TermRegistry

namespace CommandLine

/-- How results are printed. -/
inductive Format
  | text
  | json
deriving DecidableEq, Repr, Inhabited

/-- The generic names that the function namespaces have permissive components for. -/
structure Families where
  spanFn : List String := []
  strFn : List String := []
  spanStrFn : List String := []
deriving DecidableEq, Repr, Inhabited

/-- The factories of some families: composition and the given names in the function namespaces,
and a fallback in the labelled ones. -/
def Families.factories (f : Families) : Factories :=
  let registered :=
    [(Namespace.spanFn, f.spanFn), (.strFn, f.strFn), (.spanStrFn, f.spanStrFn)].flatMap
      fun family ↦ family.2.map (Prototype.permissive family.1)
  [Namespace.model, .feature, .gridSearch, .evaluation].foldl Factories.withFallback
    (registered.foldl Factories.register .standard)

/-- What the command works with. -/
structure Settings where
  context? : Option String := none
  /-- How much is logged. Nothing that the command prints depends on it. -/
  logLevel : String := "info"
  ruleSet? : Option String := none
  source? : Option String := none
  bindings : List String := []
  format : Format := .text
  families : Families := {}
deriving DecidableEq, Repr, Inhabited

/-- Values for some keys, in the order in which they are merged. -/
abbrev Layer := List (String × Setting)

/-! ### Sources -/

/-- The characters of a settings file, without a byte order mark in front. -/
def fileText? (bytes : ByteArray) : Option (List Char) :=
  (String.fromUTF8? bytes).map fun text ↦
    match text.toList with
    | '\ufeff' :: cs => cs
    | cs => cs

/-- The values that a settings file gives. It is named as messages name it. -/
def fileLayer (file : String) (bytes : ByteArray) : Except Error Layer :=
  match fileText? bytes with
  | none => .error (.input .notUtf8)
  | some text =>
    match Json.parse text with
    | .error failure => .error (.settings (.malformed failure.fault (failure.place text) file))
    | .ok j =>
      match Setting.ofJson file j with
      | .table _ fields => .ok fields
      | _ => .error (.settings (.noObject j.kind file))

/-- What the names of the environment variables begin with. -/
def environmentPrefix : String := "ARKCONF_"

/-- The variable that names the settings file. -/
def settingsVariable : String := environmentPrefix ++ "SETTINGS"

/-- The lower case of a character, where that is an ASCII letter; the capital letters are those of
ASCII and the Kelvin sign. Other characters are no part of the name of a setting and stay. -/
def lowerCase (c : Char) : Char := if c = '\u212a' then 'k' else c.toLower

/-- The key that an environment variable gives a value for: its name in lower case behind
`environmentPrefix`. -/
def variableKey? (name : String) : Option String :=
  let start := environmentPrefix.toList.map lowerCase
  let cs := name.toList.map lowerCase
  if start.isPrefixOf cs then some (String.ofList (cs.drop start.length)) else none

/-- The key of the bindings, of which an environment variable gives several. -/
def bindingsKey : String := "bindings"

/-- The value of a variable for a key: a truth value or a number where it reads as one, and
otherwise a text, or for the bindings the list of texts between its commas. -/
def variableValue (key value : String) : Setting :=
  if value.toLower = "true" then .bool true
  else if value.toLower = "false" then .bool false
  else
    match Number.ofText? value with
    | some n => .number n
    | none =>
      if key = bindingsKey then .list none ((Text.split ',' value).map .text) else .text value

/-- The values that the environment gives. Of several variables for one key the last one counts. -/
def environmentLayer (environment : Environment) : Layer :=
  environment.toList.filterMap fun v ↦
    (variableKey? v.1).map fun key ↦ (key, variableValue key v.2)

/-- The values that the arguments give. -/
def Arguments.layer (a : Arguments) : Layer :=
  let texts := [("context", a.context?), ("rule_set", a.ruleSet?), ("source", a.source?)]
  texts.filterMap (fun f ↦ f.2.map fun value ↦ (f.1, Setting.text value)) ++
    (if a.bindings.isEmpty then [] else [(bindingsKey, .list none (a.bindings.map .text))]) ++
    (if a.json then [("format", .text "json")] else [])

/-- The tree of values that a layer makes. -/
def Layer.tree (layer : Layer) : Setting :=
  layer.foldl (fun tree v ↦ tree.put v.1 v.2) .empty

/-! ### Reading the fields -/

namespace Setting

/-- The error of a value that is of no use for a key. -/
def invalid (fault : FieldFault) (key : String) (file? : Option String) : Error :=
  .settings (.field fault key file?)

/-- The text of a scalar. -/
def asText (key : String) : Setting → Except Error String
  | .bool b => .ok (Json.Kind.boolName b)
  | .number n => .ok n.render
  | .text s => .ok s
  | s => .error (invalid (.kind s.kind "a string") key s.file?)

/-- The text of a field that may be missing or null. -/
def asText? (key : String) : Option Setting → Except Error (Option String)
  | none | some (.null _) => .ok none
  | some s => do return some (← s.asText key)

/-- The key of an item of a list. -/
def itemKey (key : String) (index : Nat) : String := key ++ "[" ++ toString index ++ "]"

/-- The texts of some items of a list, from an index on. -/
def itemTexts (key : String) : Nat → List Setting → Except Error (List String)
  | _, [] => .ok []
  | index, s :: ss => do
    let text ← s.asText (itemKey key index)
    return text :: (← itemTexts key (index + 1) ss)

/-- The texts of a list, which may be missing. -/
def asTexts (key : String) : Option Setting → Except Error (List String)
  | none => .ok []
  | some (.list _ items) => itemTexts key 0 items
  | some s => .error (invalid (.kind s.kind "a sequence") key none)

/-- A format by its name. -/
def formatOfName (key : String) : String → Except Error Format
  | "text" => .ok .text
  | "json" => .ok .json
  | name => .error (invalid (.unknownFormat name) key none)

/-- A format, which may be missing: its name, or a table whose only field has that name. -/
def asFormat (key : String) : Option Setting → Except Error Format
  | none => .ok .text
  | some (.text name) | some (.table _ [(name, _)]) => formatOfName key name
  | some _ => .error (invalid .noFormatName key none)

/-- The families, which may be missing: the fields of a table, or the first items of a list. -/
def asFamilies (key : String) : Option Setting → Except Error Families
  | none => .ok {}
  | some (.table _ fields) => do
    let names (name : String) := asTexts (key ++ "." ++ name) (fields.lookup name)
    return ⟨← names "ts_fn", ← names "str_fn", ← names "ts_str_fn"⟩
  | some (.list _ items) => do
    let names (index : Nat) := asTexts (itemKey key index) items[index]?
    return ⟨← names 0, ← names 1, ← names 2⟩
  | some s => .error (invalid (.kind s.kind "struct Families") key none)

end Setting

/-- The level of logging, which may be missing. -/
def logLevelOf (tree : Setting) : Except Error String :=
  match tree.fields.lookup "log_level" with
  | some s => s.asText "log_level"
  | none => .ok "info"

/-- **The settings that a tree of values holds.** -/
def Settings.ofTree (tree : Setting) : Except Error Settings := do
  let field (key : String) := tree.fields.lookup key
  let text? (key : String) := Setting.asText? key (field key)
  return {
    context? := ← text? "context"
    logLevel := ← logLevelOf tree
    ruleSet? := ← text? "rule_set"
    source? := ← text? "source"
    bindings := ← Setting.asTexts bindingsKey (field bindingsKey)
    format := ← Setting.asFormat "format" (field "format")
    families := ← Setting.asFamilies "families" (field "families") }

end CommandLine

end TermRegistry
