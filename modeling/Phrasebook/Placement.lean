import Phrasebook.Options
import Phrasebook.Resource

namespace Phrasebook

structure Placement where
  nameSpace : List String
  baseName : String
  language : String
  deriving DecidableEq

namespace Placement

def fullName (p : Placement) : String := Phrasebook.fullName p.nameSpace p.baseName

def directoryNames (cs : List Path.Component) : List String :=
  (cs.dropLast.filterMap Path.Component.name?).map fun name =>
    Identifier.sanitize (Text.Utf8.toStringLossy name)

def stemParts (stem : String) : List String := (stem.toList.splitOn '.').map .ofList

def languageOf (declared : Option String) (parts : List String) :
    Except NameFault (String × List String) :=
  match declared with
  | some tag =>
    match Language.canonical? tag with
    | none => .error (.declaredLanguage tag)
    | some language =>
      if 1 < parts.length ∧ parts.getLast?.bind Language.canonical? = some language then
        .ok (language, parts.dropLast)
      else .ok (language, parts)
  | none =>
    match parts.getLast? with
    | none => .error .noLanguage
    | some last =>
      if parts.length < 2 then .error .noLanguage
      else
        match Language.canonical? last with
        | none => .error (.language last)
        | some language => .ok (language, parts.dropLast)

def ofStem (leading : List String) (declared : Option String) (stem : String) :
    Except NameFault Placement := do
  let (language, parts) ← languageOf declared (stemParts stem)
  match parts.find? (!Identifier.isIdentifier ·) with
  | some part => .error (.segment part)
  | none =>
    match parts.getLast? with
    | none => .error .noName
    | some baseName => .ok ⟨leading ++ parts.dropLast, baseName, language⟩

def find (o : Options) (f : TextFile) : Except NameFault Placement :=
  match (o.resolve f.path).below? o.sourceRoot with
  | none => .error (.outside o.sourceRoot)
  | some cs =>
    match (Path.fileStem? cs).bind Text.Utf8.decode? with
    | none => .error .notText
    | some stem =>
      let directories := if o.disableSubNamespace then [] else directoryNames cs
      ofStem (o.rootSegments ++ directories) f.language stem

end Placement

end Phrasebook
