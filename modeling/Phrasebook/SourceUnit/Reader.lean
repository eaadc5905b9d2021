import Phrasebook.SourceUnit

namespace Phrasebook.SourceUnit

def readLiterals (cs : List Char) : Option (List String × List Char) :=
  match _h : Text.readQuoted cs with
  | none => none
  | some (s, ',' :: ' ' :: r) => (readLiterals r).map fun p => (s :: p.1, p.2)
  | some (s, r) => some ([s], r)
termination_by cs.length
decreasing_by
  have := Text.length_readQuoted _h
  simp only [List.length_cons] at this
  omega

def readList? (ending : String) : List Char → Option (List String)
  | '[' :: ']' :: r => if r = ending.toList then some [] else none
  | '[' :: r => do
    let (ss, r) ← readLiterals r
    if r = ']' :: ending.toList then some ss else none
  | _ => none

def after? (start : String) (ls : List (List Char)) : Option (List Char) :=
  ls.findSome? (start.toList.isPrefixOf? ·)

def textAfter? (start : String) (ls : List (List Char)) : Option String := do
  let (s, r) ← Text.readQuoted (← after? start ls)
  if r = [';'] then some s else none

def listAfter? (start : String) (ls : List (List Char)) : Option (List String) :=
  (after? start ls).bind (readList? ";")

def between (first last : String) (ls : List (List Char)) : List (List Char) :=
  ((ls.dropWhile (· ≠ first.toList)).drop 1).takeWhile (· ≠ last.toList)

def readRows? (ls : List (List Char)) : Option (List (List String)) :=
  ((between "    const VALUES: &'static [&'static [&'static str]] = &[" "    ];" ls).filterMap
    ("        &".toList.isPrefixOf? ·)).mapM (readList? ",")

def readTable? (source : String) : Option Table := do
  let ls := source.toList.splitOn '\n'
  some {
    typeName := ← textAfter? "    const TYPE_NAME: &'static str = " ls
    nameSpace := some (← textAfter? "    pub const NAMESPACE: &'static str = " ls)
    fallbackLanguage := ← textAfter? "    const FALLBACK_LANGUAGE: &'static str = " ls
    languages := ← listAfter? "    const LANGUAGES: &'static [&'static str] = &" ls
    keys := ← listAfter? "    const KEYS: &'static [&'static str] = &" ls
    values := ← readRows? ls }

def readBinding? (line : List Char) : Option (String × Nat) := do
  let line := line.dropWhile (· = ' ')
  let r ← ": values[".toList.isPrefixOf? (line.dropWhile (· ≠ ':'))
  let place ← (String.ofList (r.takeWhile (· ≠ ']'))).toNat?
  some (.ofList (line.takeWhile (· ≠ ':')), place)

def readBindings (source : String) : List (String × Nat) :=
  (between "    fn from_values(values: &'static [&'static str]) -> Self \x7b" "        \x7d"
    (source.toList.splitOn '\n')).filterMap readBinding?

end Phrasebook.SourceUnit
