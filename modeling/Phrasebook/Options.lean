import Phrasebook.Error
import Phrasebook.Identifier
import Phrasebook.Language.Tag

namespace Phrasebook

structure Options where
  baseDir : Path
  sourceDir : Path
  outDir : Path
  rootNamespace : String
  fallbackLanguage : String
  /-- Directories below the source directory name no namespaces. -/
  disableSubNamespace : Bool
  deriving DecidableEq

namespace Options

def sourceRoot (o : Options) : Path := o.baseDir.join o.sourceDir

def outputDir (o : Options) : Path := o.baseDir.join o.outDir

def resolve (o : Options) (p : Path) : Path := o.baseDir.join p

def pushPiece (c : Char) : List (List Char) → List (List Char)
  | [] => [[c]]
  | p :: ps => (c :: p) :: ps

def splitColons : List Char → List (List Char)
  | [] => [[]]
  | ':' :: ':' :: r => [] :: splitColons r
  | c :: r => pushPiece c (splitColons r)

def segmentsOf (s : String) : List String :=
  ((splitColons s.toList).flatMap (·.splitOn '.')).map fun piece => Text.trim (.ofList piece)

def rootSegments (o : Options) : List String := segmentsOf o.rootNamespace

def fallbackTag (o : Options) : Except Error String :=
  match Language.canonical? o.fallbackLanguage with
  | some tag => .ok tag
  | none => .error (.invalidOptions (.fallbackLanguage o.fallbackLanguage))

def validate (o : Options) : Except Error Unit :=
  if Text.isBlankText o.rootNamespace then .error (.invalidOptions .emptyNamespace)
  else
    match o.rootSegments.find? (!Identifier.isIdentifier ·) with
    | some segment => .error (.invalidOptions (.namespaceSegment o.rootNamespace segment))
    | none => o.fallbackTag.map fun _ => ()

end Options

end Phrasebook
