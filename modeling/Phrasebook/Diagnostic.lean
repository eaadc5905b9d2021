import Phrasebook.Json.Printer
import Phrasebook.Path
import Phrasebook.Template
import Phrasebook.Text.Blank

namespace Phrasebook

inductive Severity
  | info
  | error
  deriving DecidableEq

def Severity.name : Severity → String
  | info => "info"
  | error => "error"

inductive Code
  | information
  | malformedFile
  | unrecognizedFileName
  | duplicateKey
  | duplicateLanguage
  | missingFallbackLanguage
  | unreadableFile
  | invalidConfiguration
  | writeFailed
  | namespaceConflict
  | fallbackSubstituted
  | missingFallbackKey
  | unhandled
  deriving DecidableEq

namespace Code

def all : List Code :=
  [information, malformedFile, unrecognizedFileName, duplicateKey, duplicateLanguage,
    missingFallbackLanguage, unreadableFile, invalidConfiguration, writeFailed, namespaceConflict,
    fallbackSubstituted, missingFallbackKey, unhandled]

theorem mem_all (c : Code) : c ∈ all := by cases c <;> simp [all]

def id : Code → String
  | information => "I18N000"
  | malformedFile => "I18N001"
  | unrecognizedFileName => "I18N002"
  | duplicateKey => "I18N003"
  | duplicateLanguage => "I18N004"
  | missingFallbackLanguage => "I18N005"
  | unreadableFile => "I18N006"
  | invalidConfiguration => "I18N007"
  | writeFailed => "I18N008"
  | namespaceConflict => "I18N009"
  | fallbackSubstituted => "I18N100"
  | missingFallbackKey => "I18N101"
  | unhandled => "I18N999"

def title : Code → String
  | information => "Information"
  | malformedFile => "Malformed text resource file"
  | unrecognizedFileName => "Unrecognized text resource file name"
  | duplicateKey => "Duplicate key"
  | duplicateLanguage => "Duplicate language for text resource type"
  | missingFallbackLanguage => "Missing fallback language"
  | unreadableFile => "Unreadable text resource file"
  | invalidConfiguration => "Invalid configuration"
  | writeFailed => "Failed to write generated output"
  | namespaceConflict => "Type name conflicts with a namespace"
  | fallbackSubstituted => "Fallback text substituted"
  | missingFallbackKey => "Key missing from fallback language"
  | unhandled => "Unhandled error"

def template : Code → Template
  | information | malformedFile | unhandled => [.slot 0]
  | unrecognizedFileName => [.text "unrecognized file name `", .slot 0, .text "`: ", .slot 1]
  | duplicateKey => [.text "duplicate key `", .slot 1, .text "` in `", .slot 0, .text "`"]
  | duplicateLanguage =>
    [.text "duplicate language `", .slot 1, .text "` for type `", .slot 0, .text "`: `", .slot 2,
      .text "` is ignored, `", .slot 3, .text "` is used"]
  | missingFallbackLanguage =>
    [.text "type `", .slot 0, .text "` has no text resource for the fallback language `", .slot 1,
      .text "`"]
  | unreadableFile => [.text "could not read `", .slot 0, .text "`: ", .slot 1]
  | invalidConfiguration => [.text "invalid configuration: ", .slot 0]
  | writeFailed => [.text "could not write `", .slot 0, .text "`: ", .slot 1]
  | namespaceConflict =>
    [.text "type `", .slot 0, .text "` is ignored because type `", .slot 1,
      .text "` uses it as a namespace"]
  | fallbackSubstituted =>
    [.text "`", .slot 0, .text "`: language `", .slot 1, .text "` has no text for key `", .slot 2,
      .text "`, the fallback text is used"]
  | missingFallbackKey =>
    [.text "`", .slot 0, .text "`: language `", .slot 1, .text "` has no text for key `", .slot 2,
      .text "`, which the fallback language does not define either; an empty text is used"]

def severity : Code → Severity
  | information | fallbackSubstituted | missingFallbackKey => .info
  | _ => .error

def ofText? (s : String) : Option Code :=
  all.find? fun c => Text.lowerAscii c.id == Text.lowerAscii (Text.trim s)

end Code

/-- A file and, where it is known, a line in it. Lines count from one. -/
structure Location where
  path : Path
  line : Option Nat
  deriving DecidableEq

def Location.text (l : Location) : String :=
  match l.line with
  | some n => s!"{l.path.display}({n})"
  | none => l.path.display

structure Diagnostic where
  code : Code
  message : String
  location : Option Location
  deriving DecidableEq

namespace Diagnostic

def info (message : String) : Diagnostic := ⟨.information, message, none⟩

def ofTemplate (code : Code) (args : List String) (location : Option Location) : Diagnostic :=
  ⟨code, code.template.fill args, location⟩

def fallbackSubstituted (typeName language key : String) : Diagnostic :=
  ofTemplate .fallbackSubstituted [typeName, language, key] none

def missingFallbackKey (typeName language key : String) : Diagnostic :=
  ofTemplate .missingFallbackKey [typeName, language, key] none

def severity (d : Diagnostic) : Severity := d.code.severity

def isError (d : Diagnostic) : Bool := d.severity == .error

def text (d : Diagnostic) : String :=
  let place := match d.location with
    | some l => l.text ++ ": "
    | none => ""
  s!"{place}{d.severity.name} {d.code.id}: {d.message}"

def json? (d : Diagnostic) : Option Json.Value :=
  let common := [("code", Json.Value.string d.code.id), ("message", .string d.message)]
  match d.location with
  | none => some (.object common)
  | some l =>
    l.path.toString?.map fun path =>
      let line := l.line.toList.map fun n => ("line", Json.Value.number (.natural n))
      .object (common ++ [("location", .object (("path", .string path) :: line))])

end Diagnostic

end Phrasebook
