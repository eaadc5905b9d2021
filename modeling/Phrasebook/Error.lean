import Phrasebook.Diagnostic
import Phrasebook.Json.Fault
import Phrasebook.Text.Encoding
import Phrasebook.Toml.Fault

namespace Phrasebook

inductive NameFault
  | unknownExtension
  | outside : Path → NameFault
  | notText
  | declaredLanguage : String → NameFault
  | noLanguage
  | language : String → NameFault
  | segment : String → NameFault
  | noName
  | other : String → NameFault
  deriving DecidableEq

def NameFault.text : NameFault → String
  | unknownExtension => "the extension must be `.json` or `.csv`"
  | outside root => s!"not below the source directory `{root.display}`"
  | notText => "the file name is not valid UTF-8"
  | declaredLanguage tag => s!"declared language `{tag}` is not a language code"
  | noLanguage => "expected `<Name>.<language>.<extension>`"
  | language tag => s!"`{tag}` is not a language code"
  | segment name => s!"`{name}` is not a valid type name segment"
  | noName => "the type name is empty"
  | other text => text

inductive EntryFault
  | blankKey
  | columns : Nat → EntryFault
  | other : String → EntryFault
  deriving DecidableEq

def EntryFault.text : EntryFault → String
  | blankKey => "blank key"
  | columns n => s!"expected two columns (key, text), found {n}"
  | other text => text

inductive OptionFault
  | unknownFormat : String → OptionFault
  | emptyNamespace
  | namespaceSegment (whole segment : String)
  | fallbackLanguage : String → OptionFault
  | malformed : Toml.Fault → OptionFault
  | missingField : String → OptionFault
  | unknownField (name : String) (known : List String)
  | fieldType (found expected : String)
  | other : String → OptionFault
  deriving DecidableEq

def OptionFault.text : OptionFault → String
  | unknownFormat name => s!"unsupported syntax `{name}`"
  | emptyNamespace => "the namespace must not be empty"
  | namespaceSegment whole segment => s!"namespace `{whole}` has an invalid segment `{segment}`"
  | fallbackLanguage tag => s!"`{tag}` is not a valid fallback language tag"
  | malformed fault => fault.text
  | missingField name => s!"missing field `{name}`"
  | unknownField name known =>
    let names := ", ".intercalate (known.map fun k => s!"`{k}`")
    s!"unknown field `{name}`, expected one of {names}"
  | fieldType found expected => s!"invalid type: {found}, expected {expected}"
  | other text => text

inductive Error
  | unreadable (path : Path) (reason : String)
  | undecodable (path : Path) (encoding : Encoding)
  | malformedJson (path : Path) (problem : Json.Problem)
  | malformedCsv (path : Path) (line : Nat) (reason : String)
  | invalidValue (path : Path) (key found : String)
  | unusableRow (path : Path) (line : Option Nat) (fault : EntryFault)
  | duplicateKey (path : Path) (key : String) (line : Option Nat)
  | unrecognizedName (path : Path) (fault : NameFault)
  | duplicateLanguage (path : Path) (typeName language : String) (first : Path)
  | namespaceConflict (path : Path) (typeName user : String)
  | missingFallback (typeName language : String)
  | invalidOptions (fault : OptionFault)
  | unwritable (path : Path) (reason : String)
  | internal (reason : String)
  | cancelled
  deriving DecidableEq

namespace Error

def code : Error → Code
  | unreadable .. => .unreadableFile
  | undecodable .. | malformedJson .. | malformedCsv .. | invalidValue .. | unusableRow .. =>
    .malformedFile
  | duplicateKey .. => .duplicateKey
  | unrecognizedName .. => .unrecognizedFileName
  | duplicateLanguage .. => .duplicateLanguage
  | namespaceConflict .. => .namespaceConflict
  | missingFallback .. => .missingFallbackLanguage
  | invalidOptions .. => .invalidConfiguration
  | unwritable .. => .writeFailed
  | internal .. | cancelled => .unhandled

def atLine : Option Nat → String
  | some n => s!" line {n}"
  | none => ""

def message : Error → String
  | unreadable path reason => s!"could not read `{path.display}`: {reason}"
  | undecodable path encoding => s!"`{path.display}` is not valid {encoding.name} text"
  | malformedJson path problem =>
    s!"`{path.display}` is not a valid JSON text resource: {problem.message}"
  | malformedCsv path line reason => s!"`{path.display}` line {line}: malformed CSV: {reason}"
  | invalidValue path key found =>
    s!"`{path.display}`: the value of key `{key}` must be a string, found {found}"
  | unusableRow path line fault => s!"`{path.display}`{atLine line}: {fault.text}"
  | duplicateKey path key line => s!"`{path.display}`{atLine line}: duplicate key `{key}`"
  | unrecognizedName path fault => s!"unrecognized file name `{path.display}`: {fault.text}"
  | duplicateLanguage path typeName language first =>
    s!"duplicate language `{language}` for type `{typeName}`: `{path.display}` is ignored, " ++
      s!"`{first.display}` is used"
  | namespaceConflict _ typeName user =>
    s!"type `{typeName}` is ignored because type `{user}` uses it as a namespace"
  | missingFallback typeName language =>
    s!"type `{typeName}` has no text resource for the fallback language `{language}`"
  | invalidOptions fault => s!"invalid configuration: {fault.text}"
  | unwritable path reason => s!"could not write `{path.display}`: {reason}"
  | internal reason => s!"internal error: {reason}"
  | cancelled => "compilation cancelled"

def arguments : Error → List String
  | unreadable path reason | unwritable path reason => [path.display, reason]
  | duplicateKey path key _ => [path.display, key]
  | unrecognizedName path fault => [path.display, fault.text]
  | duplicateLanguage path typeName language first =>
    [typeName, language, path.display, first.display]
  | namespaceConflict _ typeName user => [typeName, user]
  | missingFallback typeName language => [typeName, language]
  | invalidOptions fault => [fault.text]
  | e => [e.message]

def location : Error → Option Location
  | unreadable path _ | undecodable path _ | invalidValue path _ _ | unrecognizedName path _
  | duplicateLanguage path _ _ _ | namespaceConflict path _ _ | unwritable path _ =>
    some ⟨path, none⟩
  | malformedJson path problem => some ⟨path, problem.line?⟩
  | malformedCsv path line _ => some ⟨path, some line⟩
  | unusableRow path line _ | duplicateKey path _ line => some ⟨path, line⟩
  | missingFallback .. | invalidOptions .. | internal .. | cancelled => none

def diagnostic (e : Error) : Diagnostic := .ofTemplate e.code e.arguments e.location

end Error

def Code.ofName (s : String) : Except Error Code :=
  match Code.ofText? s with
  | some c => .ok c
  | none => .error (.internal s!"unknown diagnostic code `{Text.trim s}`")

end Phrasebook
