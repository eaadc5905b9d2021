import Phrasebook.Text.Blank

namespace Phrasebook.Language

def comparable (tag : String) : String :=
  Text.lowerAscii (.ofList ((Text.trim tag).toList.map fun c => if c = '_' then '-' else c))

def primary (tag : String) : String := .ofList (tag.toList.takeWhile (· ≠ '-'))

def position (wanted : String) (available : List String) : Option Nat :=
  available.findIdx? fun tag => comparable tag == wanted

/-- In turn: the same tag, the bare primary language, any tag of that primary language, and the
fallback. -/
def choose (requested : String) (available : List String) (fallback : String) : Option Nat :=
  let wanted := comparable requested
  position wanted available
    <|> position (primary wanted) available
    <|> available.findIdx? (fun tag => primary (comparable tag) == primary wanted)
    <|> position (comparable fallback) available

end Phrasebook.Language
