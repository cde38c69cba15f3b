import TermRegistry.Json
import TermRegistry.Json.Fault
import TermRegistry.Namespace
import TermRegistry.Term.Printer
import TermRegistry.Token

/-!
# Errors

Every operation that can fail says why by a value of `Error`. The constructors name the causes;
the wording is in `Error.message` alone.
-/

namespace TermRegistry

/-- Why tokens do not form a term. -/
inductive SyntaxFault
  | unexpected (expected found : Token)
  | noReferenceName (found : Token)
  | noStatementName (found : Token)
  | noValue (found : Token)
  /-- Neither the next item of an array nor its end. -/
  | noItem (found : Token)
  /-- Something stands behind a complete text. -/
  | trailing (found : Token)
  /-- The name of a parameter is not a literal text. -/
  | parameterName (found : Term)
  | mixedParameters
deriving DecidableEq, Inhabited

/-- Why a term is not the definition it is used as. -/
inductive StructureFault
  | noType (statement : Entry Term)
  | unknownType (tag : String)
  | notRuleSet
  | ruleSetParameters
  | notRuleStatement (statement : Entry Term)
  | notRule (name : String)
  | misplacedCapture (name : String)
  | arrayItem (found : Term)
  | notArray (found : Term)
  | notText (found : Term)
  | notFunction (found : Term)
  | notComponent (ns : Namespace) (found : Term)
  | wrongFamily (composition : Term) (inferred declared : Namespace)
  | notComposable (f g : Namespace) (composition : Term)
  | severalFamilies (generic : String) (families : List Namespace)
deriving DecidableEq, Inhabited

/-- Why a component cannot be built. -/
inductive ConstructionFault
  | unknownGeneric (ns : Namespace) (generic : String)
  | unknownFunction (generic : String)
  | noPosition (generic : String) (index : Nat)
  | noParameter (generic name : String)
  | rejected (generic : String) (value : Term) (name : String)
deriving DecidableEq, Inhabited

/-- Why an input cannot be read. -/
inductive InputFault
  | notUtf8
  | noSuchFile
  | notDirectory
  | isDirectory
  | nameTooLong
  /-- There is a zero character in a file name. -/
  | zeroInName
deriving DecidableEq, Repr, Inhabited

/-- Why a field of the settings cannot be read. -/
inductive FieldFault
  | kind (found : Json.Kind) (expected : String)
  /-- The format is neither a name nor an object with one field. -/
  | noFormatName
  | unknownFormat (name : String)
deriving DecidableEq, Repr, Inhabited

/-- Why the command line's settings are of no use. -/
inductive SettingsFault
  | noContext
  | unpaired
  | binding (text : String)
  | malformed (fault : Json.Fault) (place : Json.Place) (file : String)
  | noObject (found : Json.Kind) (file : String)
  /-- A field that cannot be read; some values know the file they come from. -/
  | field (fault : FieldFault) (key : String) (file? : Option String)
deriving DecidableEq, Repr, Inhabited

/-- Why an operation failed, or that it has no outcome. -/
inductive Error
  | lexical (fault : LexicalFault) (position : Position)
  | syntactic (fault : SyntaxFault) (position : Position)
  | structural (fault : StructureFault)
  | unresolved (name : String)
  | ambiguous (ns : Namespace) (candidates : List String)
  | construction (fault : ConstructionFault)
  /-- A name is taken; the scope is a declaration type. -/
  | duplicateName (scope name : String)
  | input (fault : InputFault)
  | settings (fault : SettingsFault)
  /-- No failure: references lead back to themselves, and following them comes to no end. This
  stands for the outcome that there is not. -/
  | circular
deriving DecidableEq, Inhabited

namespace SyntaxFault

/-- The wording of a syntax fault. -/
def message : SyntaxFault → String
  | unexpected expected found =>
    "expected '" ++ expected.render ++ "' but found '" ++ found.render ++ "'"
  | noReferenceName found => "expected a reference name but found '" ++ found.render ++ "'"
  | noStatementName found => "expected a statement name or '=' but found '" ++ found.render ++ "'"
  | noValue found => "expected a value but found '" ++ found.render ++ "'"
  | noItem found => "expected ',' or ']' but found '" ++ found.render ++ "'"
  | trailing found => "unexpected '" ++ found.render ++ "' after the end of input"
  | parameterName found => "a parameter name must be a word, not a " ++ found.kind
  | mixedParameters => "named and positional parameters cannot be mixed"

end SyntaxFault

namespace StructureFault

/-- The wording of a structure fault. -/
def message : StructureFault → String
  | noType statement => "'" ++ statement.render ++ "' has no declaration type"
  | unknownType tag => "unknown declaration type '" ++ tag ++ "'"
  | notRuleSet => "a rule set must be written RuleSet() \x7b ... \x7d"
  | ruleSetParameters => "RuleSet takes no parameters"
  | notRuleStatement statement =>
    "a rule set holds only 'rule' statements, not '" ++ statement.render ++ "'"
  | notRule name => "rule " ++ name ++ " must be written (source) -> (target)"
  | misplacedCapture name =>
    "the capture " ++ (Term.capture name).render ++ " can only appear in a rule source"
  | arrayItem found => "array items must be values, not a " ++ found.kind
  | notArray found => "expected an array but found a " ++ found.kind
  | notText found => "expected a value but found a " ++ found.kind
  | notFunction found => "expected a function but found a " ++ found.kind
  | notComponent ns found =>
    "a " ++ ns.tag ++ " declaration needs a function but found a " ++ found.kind
  | wrongFamily composition inferred declared =>
    composition.render ++ " is a " ++ inferred.tag ++ " and cannot be declared as a " ++
      declared.tag
  | notComposable f g composition =>
    "a " ++ f.tag ++ " cannot be composed with a " ++ g.tag ++ " in " ++ composition.render
  | severalFamilies generic families =>
    "'" ++ generic ++ "' is known to several function families (" ++
      ", ".intercalate (families.map Namespace.tag) ++ ")"

end StructureFault

namespace ConstructionFault

/-- The wording of a construction fault. Positions count from one. -/
def message : ConstructionFault → String
  | unknownGeneric ns generic => "no " ++ ns.tag ++ " factory knows '" ++ generic ++ "'"
  | unknownFunction generic => "no function factory knows '" ++ generic ++ "'"
  | noPosition generic index =>
    generic ++ " takes no parameter at position " ++ toString (index + 1)
  | noParameter generic name => generic ++ " has no parameter '" ++ name ++ "'"
  | rejected generic value name =>
    generic ++ " rejects " ++ value.render ++ " as its '" ++ name ++ "' parameter"

end ConstructionFault

namespace InputFault

/-- The wording of an input fault. -/
def message : InputFault → String
  | notUtf8 => "stream did not contain valid UTF-8"
  | noSuchFile => "No such file or directory (os error 2)"
  | notDirectory => "Not a directory (os error 20)"
  | isDirectory => "Is a directory (os error 21)"
  | nameTooLong => "File name too long (os error 36)"
  | zeroInName => "file name contained an unexpected NUL byte"

end InputFault

/-- The wording of a fault in a field. -/
def FieldFault.message : FieldFault → String
  | kind found expected => "invalid type: " ++ found.describe ++ ", expected " ++ expected
  | noFormatName =>
    "value of enum Format should be represented by either string or table with exactly one key"
  | unknownFormat name => "enum Format does not have variant constructor " ++ name

namespace SettingsFault

/-- Names the file that something was read from. -/
def inFile (file : String) : String := " in " ++ file

/-- The wording of a settings fault. -/
def message : SettingsFault → String
  | noContext => "no context file given"
  | unpaired => "a rule set and a source are given together or not at all"
  | binding text => "binding '" ++ text ++ "' is not of the form NAME=VALUE"
  | malformed fault place file =>
    fault.message ++ " at line " ++ toString place.line ++ " column " ++ toString place.column ++
      inFile file
  | noObject found file =>
    "invalid type: " ++ found.describeSized ++ ", expected a map" ++ inFile file ++ inFile file
  | field fault key file? =>
    fault.message ++ " for key `" ++ key ++ "`" ++ (file?.map inFile).getD ""

end SettingsFault

namespace Error

/-- **The wording of an error.** -/
def message : Error → String
  | lexical fault position => "Lexical error at " ++ position.render ++ ": " ++ fault.message
  | syntactic fault position => "Parse error at " ++ position.render ++ ": " ++ fault.message
  | structural fault => "Structure error: " ++ fault.message
  | unresolved name => "Unresolved reference: $\x7b" ++ name ++ "\x7d"
  | ambiguous ns candidates =>
    "Ambiguous match in " ++ ns.tag ++ ": " ++ ", ".intercalate candidates
  | construction fault => "Construction error: " ++ fault.message
  | duplicateName scope name => "Duplicate name in " ++ scope ++ ": " ++ name
  | input fault => "I/O error: " ++ fault.message
  | settings fault => "Config error: " ++ fault.message
  | circular => "Circular reference"

end Error

/-- The namespace that a declaration type stands for; refused for any other text. -/
def Namespace.parse (tag : String) : Except Error Namespace :=
  match ofTag? tag with
  | some ns => .ok ns
  | none => .error (.structural (.unknownType tag))

end TermRegistry
