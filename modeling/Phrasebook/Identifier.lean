namespace Phrasebook.Identifier

def isStart (c : Char) : Bool := c.isAlpha || c = '_'

def isPart (c : Char) : Bool := c.isAlphanum || c = '_'

def isIdentifierChars : List Char → Bool
  | [] => false
  | c :: r => isStart c && r.all isPart && !(c :: r == ['_'])

def isIdentifier (s : String) : Bool := isIdentifierChars s.toList

def sanitizeChars (cs : List Char) : List Char :=
  match cs.map fun c => if isPart c then c else '_' with
  | [] => ['_', '_']
  | ['_'] => ['_', '_']
  | c :: r => if c.isDigit then '_' :: c :: r else c :: r

/-- Other characters become underscores, and an underscore goes before a leading digit. Where that
leaves nothing or a lone underscore, two stand instead. -/
def sanitize (s : String) : String := .ofList (sanitizeChars s.toList)

def rawKeywords : List String :=
  ["abstract", "as", "async", "await", "become", "box", "break", "const", "continue", "do", "dyn",
    "else", "enum", "extern", "false", "final", "fn", "for", "gen", "if", "impl", "in", "let",
    "loop", "macro", "match", "mod", "move", "mut", "override", "priv", "pub", "ref", "return",
    "static", "struct", "trait", "true", "try", "type", "typeof", "unsafe", "unsized", "use",
    "virtual", "where", "while", "yield"]

def suffixedKeywords : List String := ["self", "Self", "super", "crate"]

def render (name : String) : String :=
  if name ∈ suffixedKeywords then name ++ "_"
  else if name ∈ rawKeywords then "r#" ++ name
  else name

end Phrasebook.Identifier
