/-!
# Command line arguments

```text
[CONTEXT] [--settings FILE] [--rules RULE_SET --source NAME] [--bind NAME=VALUE]... [--json]
```

An option takes its value from the next argument or from behind an `=`. The next argument is no
value if it looks like an option itself. Only `--bind` may be given more than once, `--rules` and
`--source` belong together, and everything behind `--` is positional. Arguments that break one of
these rules are rejected as a whole.
-/

namespace TermRegistry

namespace CommandLine

/-- What the command is asked to do. -/
structure Arguments where
  context? : Option String := none
  settings? : Option String := none
  ruleSet? : Option String := none
  source? : Option String := none
  bindings : List String := []
  json : Bool := false
deriving DecidableEq, Repr, Inhabited

/-- A command line that is not rejected. -/
inductive Request
  | run (arguments : Arguments)
  | help
  | version
deriving DecidableEq, Repr, Inhabited

/-- An argument by its looks. -/
inductive Word
  | plain
  /-- `--` -/
  | escape
  /-- `--name` or `--name=value` -/
  | long (name : String) (value? : Option String)
  /-- `-c..` -/
  | short (c : Char)
deriving DecidableEq, Repr, Inhabited

/-- How an argument looks. -/
def Word.ofString (s : String) : Word :=
  match s.toList with
  | ['-', '-'] => escape
  | '-' :: '-' :: cs =>
    let name := String.ofList (cs.takeWhile (· != '='))
    match cs.dropWhile (· != '=') with
    | _ :: value => long name (some (String.ofList value))
    | [] => long name none
  | '-' :: c :: _ => short c
  | _ => plain

namespace Arguments

/-- Sets a field that is not set yet. -/
def once (field : Option String) (value : String) : Option (Option String) :=
  if field.isNone then some (some value) else none

/-- Takes a positional argument; there is only one. -/
def positional (a : Arguments) (value : String) : Option Arguments := do
  return { a with context? := ← once a.context? value }

/-- Takes an option with its value. -/
def option (a : Arguments) (name value : String) : Option Arguments :=
  match name with
  | "settings" => do return { a with settings? := ← once a.settings? value }
  | "rules" => do return { a with ruleSet? := ← once a.ruleSet? value }
  | "source" => do return { a with source? := ← once a.source? value }
  | "bind" => some { a with bindings := a.bindings ++ [value] }
  | _ => none

/-- The command line, once all arguments are taken. -/
def finish (a : Arguments) : Option Request :=
  if a.ruleSet?.isSome == a.source?.isSome then some (.run a) else none

/-- Takes the remaining arguments. -/
def parseFrom (a : Arguments) : List String → Option Request
  | [] => a.finish
  | arg :: args =>
    match Word.ofString arg with
    | .plain => do (← a.positional arg).parseFrom args
    | .escape => do (← args.foldlM positional a).finish
    | .long "help" none | .short 'h' => some .help
    | .long "version" none | .short 'V' => some .version
    | .short _ => none
    | .long "json" none => if a.json then none else parseFrom { a with json := true } args
    | .long name (some value) => do (← a.option name value).parseFrom args
    | .long name none =>
      match args with
      | value :: args =>
        if Word.ofString value = .plain then do (← a.option name value).parseFrom args else none
      | [] => none

end Arguments

/-- **Reads a command line**; nothing if it is rejected. -/
def parse (args : List String) : Option Request := Arguments.parseFrom {} args

end CommandLine

end TermRegistry
