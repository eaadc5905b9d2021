import Phrasebook.Text.Blank

namespace Phrasebook.Language

structure Tag where
  language : List Char
  script : Option (List Char)
  region : Option (List Char)
  variants : List (List Char)
  deriving DecidableEq

def isSeparator (c : Char) : Bool := c = '-' || c = '_'

def subtags (cs : List Char) : List (List Char) := cs.splitOnP isSeparator

def isLanguage (cs : List Char) : Bool := (cs.length == 2 || cs.length == 3) && cs.all Char.isAlpha

def isScript (cs : List Char) : Bool := cs.length == 4 && cs.all Char.isAlpha

def isRegion (cs : List Char) : Bool :=
  (cs.length == 2 && cs.all Char.isAlpha) || (cs.length == 3 && cs.all Char.isDigit)

def isVariant (cs : List Char) : Bool :=
  4 ≤ cs.length && cs.length ≤ 8 && cs.all Char.isAlphanum

def lower (cs : List Char) : List Char := cs.map Char.toLower

def upper (cs : List Char) : List Char := cs.map Char.toUpper

def title : List Char → List Char
  | [] => []
  | c :: cs => c.toUpper :: lower cs

def insertVariant (v : List Char) : List (List Char) → List (List Char)
  | [] => [v]
  | w :: ws => if v < w then v :: w :: ws else if v = w then w :: ws else w :: insertVariant v ws

def sortVariants (vs : List (List Char)) : List (List Char) := vs.foldr insertVariant []

def takePart (p : List Char → Bool) : List (List Char) → Option (List Char) × List (List Char)
  | [] => (none, [])
  | part :: parts => if p part then (some part, parts) else (none, part :: parts)

namespace Tag

def ofSubtags? : List (List Char) → Option Tag
  | [] => none
  | language :: parts =>
    let (script, parts) := takePart isScript parts
    let (region, variants) := takePart isRegion parts
    if isLanguage language && variants.all isVariant then
      some ⟨lower language, script.map title, region.map upper, sortVariants (variants.map lower)⟩
    else none

def parts (t : Tag) : List (List Char) :=
  t.language :: (t.script.toList ++ t.region.toList ++ t.variants)

def render (t : Tag) : List Char := ['-'].intercalate t.parts

def ofChars? (cs : List Char) : Option Tag := ofSubtags? (subtags cs)

end Tag

def canonicalChars? (cs : List Char) : Option (List Char) := (Tag.ofChars? cs).map Tag.render

def canonical? (s : String) : Option String := (canonicalChars? s.toList).map .ofList

end Phrasebook.Language
