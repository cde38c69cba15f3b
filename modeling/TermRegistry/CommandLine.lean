import TermRegistry.CommandLine.Path
import TermRegistry.CommandLine.Settings
import TermRegistry.Context.Rules
import TermRegistry.Json.Printer

/-!
# The command

The command loads a context and prints it, or applies one of its rule sets to one of its entries
and prints what the rules derive. It reads files through a function that it is given, so it can be
run on files of any kind, also on imagined ones. Settings files are JSON texts and have no other
format, also the one that is read if none is named.
-/

namespace TermRegistry

namespace CommandLine

/-- What a run of the command leaves behind. -/
structure Outcome where
  code : Nat
  stdout : String := ""
  stderr : String := ""
deriving DecidableEq, Repr, Inhabited

/-- How the command is used. -/
def usage : String :=
  "usage: [CONTEXT] [--settings FILE] [--rules RULE_SET --source NAME]\n" ++
    "       [--bind NAME=VALUE]... [--json]\n"

/-- The name of the command and its version. -/
def version : String := "arkconf 0.1.0\n"

/-! ### Results as text -/

/-- An extra binding, as `NAME=VALUE`, without blank characters around name and value. -/
def binding (text : String) : Except Error (String × Term) :=
  match text.toList.dropWhile (· != '=') with
  | _ :: value =>
    .ok (Text.trim (String.ofList (text.toList.takeWhile (· != '='))),
      .text (Text.trim (String.ofList value)))
  | [] => .error (.settings (.binding text))

/-- An entry as a JSON object. -/
def declaration (k : Kept) : Json :=
  .object [("type", .string k.ns.tag), ("name", .string k.name),
    ("value", .string k.toTerm.render)]

/-- A context as it is printed. -/
def printed (ctx : Context) : Format → String
  | .text => ctx.render
  | .json => (Json.array (ctx.entries.map declaration)).render 0 ++ "\n"

/-- Derived terms as they are printed. -/
def printedDerived (derived : List (String × Term)) : Format → String
  | .text => String.join (derived.map fun d ↦ d.1 ++ "=" ++ d.2.render ++ ";\n")
  | .json =>
    (Json.array (derived.map fun d ↦ .array [.string d.1, .string d.2.render])).render 0 ++ "\n"

/-- What the rules of a set derive from an entry, as it is printed. -/
def derive (ctx : Context) (s : Settings) (ruleSet source : String) : Except Error String := do
  let some rules := ctx.ruleSet? ruleSet | throw (.unresolved ruleSet)
  let some kept := ctx.lookup? source | throw (.unresolved source)
  let extra ← s.bindings.mapM binding
  let derived ← (ctx.applyRules rules kept.toTerm (.ofList extra)).result
  return printedDerived derived s.format

/-- **What the command prints** about a loaded context. -/
def output (ctx : Context) (s : Settings) : Except Error String :=
  match s.ruleSet?, s.source? with
  | some ruleSet, some source => derive ctx s ruleSet source
  | none, none => .ok (printed ctx s.format)
  | _, _ => .error (.settings .unpaired)

/-! ### Running -/

section

variable {m : Type → Type} [Monad m] (read : String → m (Except InputFault ByteArray))

/-- The extension of settings files, of which only those in JSON are read. -/
def settingsExtension : String := "json"

/-- The settings file of a path: the file itself, which has to have the extension of settings
files, or if there is none the path with that extension added. A file that is missing counts as
empty. -/
def readSettings (path : String) : ExceptT Error m Layer := do
  match ← (read path : m _) with
  | .ok bytes =>
    if (Path.fileName? path).bind Path.extension? = some settingsExtension then
      liftM (fileLayer (Path.normal path) bytes)
    else return []
  | .error _ =>
    let some path := Path.addExtension? path settingsExtension | return []
    match ← (read path : m _) with
    | .ok bytes => liftM (fileLayer (Path.normal path) bytes)
    | .error _ => return []

/-- Does what the arguments ask for and yields what is printed. The settings come from the file that
the arguments name, or else the environment, or else `arkconf.json`; what the environment and the
arguments give besides goes over what is in it. -/
def execute (environment : Environment) (a : Arguments) : ExceptT Error m String := do
  let path := (a.settings?.or (environment.get? settingsVariable)).getD "arkconf.json"
  let file ← readSettings read path
  let layer : Layer := file ++ environmentLayer environment ++ a.layer
  let settings ← liftM (Settings.ofTree layer.tree)
  let some path := settings.context? | throw (.settings .noContext)
  match ← (read path : m _) with
  | .error fault => throw (.input fault)
  | .ok bytes =>
    let loaded := (Context.empty 0 settings.families.factories).loadBytes bytes
    liftM loaded.result
    liftM (output loaded.context settings)

/-- **Runs the command.** A command line that is rejected exits with 2, any other failure with 1
and the wording of its error. -/
def run (environment : Environment) (args : List String) : m Outcome := do
  match parse args with
  | none => return { code := 2, stderr := usage }
  | some .help => return { code := 0, stdout := usage }
  | some .version => return { code := 0, stdout := version }
  | some (.run a) =>
    match ← (execute read environment a).run with
    | .ok stdout => return { code := 0, stdout }
    | .error e => return { code := 1, stderr := e.message ++ "\n" }

end

end CommandLine

end TermRegistry
