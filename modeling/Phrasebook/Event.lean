import Phrasebook.Diagnostic

namespace Phrasebook

inductive Level
  | info
  | warn
  | error
  deriving DecidableEq

def Level.name : Level → String
  | info => "INFO"
  | warn => "WARN"
  | error => "ERROR"

structure Event where
  level : Level
  code : Code
  message : String
  place : Option String
  deriving DecidableEq

namespace Event

def lineText : Option Nat → String
  | none => "None"
  | some n => s!"Some({n})"

def placeText : Option Location → String
  | none => "None"
  | some l =>
    let path := String.ofList ('"' :: Text.Quoted.quoteBytes l.path.bytes ++ ['"'])
    s!"Some(Location \x7b path: {path}, line: {lineText l.line} \x7d)"

def ofDiagnostic (d : Diagnostic) : Event :=
  match d.severity, d.code with
  | .error, _ => ⟨.error, d.code, d.message, some (placeText d.location)⟩
  | .info, .information => ⟨.info, d.code, d.message, none⟩
  | .info, _ => ⟨.warn, d.code, d.message, some (placeText d.location)⟩

end Event

end Phrasebook
