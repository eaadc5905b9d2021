import Phrasebook.Json.Literal
import Phrasebook.Json.Spelling

/-!
JSON documents as they are written. A document spells a tree, in which numbers are literals and a
string may name halves of characters that do not belong together. Any tree can be written down, but
not every one has a value.
-/

namespace Phrasebook.Json

/-- A character of a string, or a unit of 16 bits that is given by its digits. -/
inductive Mark
  | char : Char → Mark
  | unit : Nat → Mark
  deriving DecidableEq

namespace Mark

def chars? : List Mark → Option (List Char)
  | [] => some []
  | char c :: ms => (chars? ms).map (c :: ·)
  | unit n :: unit m :: ms =>
    if Encoding.isLowHalf n then none
    else if Encoding.isHighHalf n then
      if Encoding.isLowHalf m then (chars? ms).map (Encoding.joinHalves n m :: ·) else none
    else (chars? (unit m :: ms)).map (.ofNat n :: ·)
  | unit n :: ms =>
    if Encoding.isLowHalf n || Encoding.isHighHalf n then none
    else (chars? ms).map (.ofNat n :: ·)

def text? (ms : List Mark) : Option String := (chars? ms).map .ofList

end Mark

inductive Tree
  | null
  | boolean : Bool → Tree
  | number : Literal → Tree
  | string : List Mark → Tree
  | array : List Tree → Tree
  | object : List (List Mark × Tree) → Tree

namespace Tree

def kind : Tree → String
  | null => "null"
  | boolean _ => "a boolean"
  | number _ => "a number"
  | string _ => "a string"
  | array _ => "an array"
  | object _ => "an object"

def isScalar : Tree → Bool
  | boolean _ | number _ | string _ => true
  | null | array _ | object _ => false

mutual

/-- The value of a tree in which no more than the given number of brackets are open at once. -/
def value? : Nat → Tree → Option Value
  | _, null => some .null
  | _, boolean b => some (.boolean b)
  | _, number l => l.number?.map .number
  | _, string ms => (Mark.text? ms).map .string
  | 0, array _ => none
  | 0, object _ => none
  | n + 1, array ts => (elements? n ts).map .array
  | n + 1, object ms => (members? n ms).map .object

def elements? : Nat → List Tree → Option (List Value)
  | _, [] => some []
  | n, t :: ts => do
    let v ← value? n t
    let vs ← elements? n ts
    some (v :: vs)

def members? : Nat → List (List Mark × Tree) → Option (List (String × Value))
  | _, [] => some []
  | n, (name, t) :: ms => do
    let name ← Mark.text? name
    let v ← value? n t
    let ms ← members? n ms
    some ((name, v) :: ms)

end

/-- The members of the object of a document. With its own, 127 brackets may be open at once. -/
def documentMembers? (ms : List (List Mark × Tree)) : Option (List (String × Value)) :=
  members? 126 ms

mutual

def depth : Tree → Nat
  | array ts => depthOfElements ts + 1
  | object ms => depthOfMembers ms + 1
  | _ => 0

def depthOfElements : List Tree → Nat
  | [] => 0
  | t :: ts => max t.depth (depthOfElements ts)

def depthOfMembers : List (List Mark × Tree) → Nat
  | [] => 0
  | (_, t) :: ms => max t.depth (depthOfMembers ms)

end

mutual

def literals : Tree → List Literal
  | number l => [l]
  | array ts => literalsOfElements ts
  | object ms => literalsOfMembers ms
  | _ => []

def literalsOfElements : List Tree → List Literal
  | [] => []
  | t :: ts => t.literals ++ literalsOfElements ts

def literalsOfMembers : List (List Mark × Tree) → List Literal
  | [] => []
  | (_, t) :: ms => t.literals ++ literalsOfMembers ms

end

mutual

def strings : Tree → List (List Mark)
  | string ms => [ms]
  | array ts => stringsOfElements ts
  | object ms => stringsOfMembers ms
  | _ => []

def stringsOfElements : List Tree → List (List Mark)
  | [] => []
  | t :: ts => t.strings ++ stringsOfElements ts

def stringsOfMembers : List (List Mark × Tree) → List (List Mark)
  | [] => []
  | (name, t) :: ms => name :: t.strings ++ stringsOfMembers ms

end

end Tree

inductive MarkSpelling : Mark → List Char → Prop
  | plain {c} : 0x20 ≤ c.toNat → c ≠ '"' → c ≠ '\\' → MarkSpelling (.char c) [c]
  | short {c e} : ShortEscape c e → MarkSpelling (.char c) ['\\', e]
  | unit {n h} : HexSpelling n h → MarkSpelling (.unit n) ('\\' :: 'u' :: h)

inductive MarksSpelling : List Mark → List Char → Prop
  | nil : MarksSpelling [] []
  | cons {m ms s t} : MarkSpelling m s → MarksSpelling ms t → MarksSpelling (m :: ms) (s ++ t)

inductive StringSpelling : List Mark → List Char → Prop
  | string {ms t} : MarksSpelling ms t → StringSpelling ms ('"' :: t ++ ['"'])

inductive Part
  | value : Tree → Part
  | elements : List Tree → Part
  | members : List (List Mark × Tree) → Part

inductive PartSpelling : Part → List Char → Prop
  | null : PartSpelling (.value .null) ['n', 'u', 'l', 'l']
  | true : PartSpelling (.value (.boolean true)) ['t', 'r', 'u', 'e']
  | false : PartSpelling (.value (.boolean false)) ['f', 'a', 'l', 's', 'e']
  | number {l} : PartSpelling (.value (.number l)) l.chars
  | string {ms s} : StringSpelling ms s → PartSpelling (.value (.string ms)) s
  | array {ts s} : PartSpelling (.elements ts) s →
      PartSpelling (.value (.array ts)) ('[' :: s ++ [']'])
  | object {ms s} : PartSpelling (.members ms) s →
      PartSpelling (.value (.object ms)) ('\x7b' :: s ++ ['\x7d'])
  | noElements {a} : Blanks a → PartSpelling (.elements []) a
  | lastElement {t a s b} : Blanks a → PartSpelling (.value t) s → Blanks b →
      PartSpelling (.elements [t]) (a ++ s ++ b)
  | element {t ts a s b r} : Blanks a → PartSpelling (.value t) s → Blanks b → ts ≠ [] →
      PartSpelling (.elements ts) r → PartSpelling (.elements (t :: ts)) (a ++ s ++ b ++ ',' :: r)
  | noMembers {a} : Blanks a → PartSpelling (.members []) a
  | lastMember {name t a n b c s d} : Blanks a → StringSpelling name n → Blanks b → Blanks c →
      PartSpelling (.value t) s → Blanks d →
      PartSpelling (.members [(name, t)]) (a ++ n ++ b ++ ':' :: c ++ s ++ d)
  | member {name t ms a n b c s d r} : Blanks a → StringSpelling name n → Blanks b → Blanks c →
      PartSpelling (.value t) s → Blanks d → ms ≠ [] → PartSpelling (.members ms) r →
      PartSpelling (.members ((name, t) :: ms)) (a ++ n ++ b ++ ':' :: c ++ s ++ d ++ ',' :: r)

inductive DocumentSpelling : Tree → List Char → Prop
  | document {t a s b} : Blanks a → PartSpelling (.value t) s → Blanks b →
      DocumentSpelling t (a ++ s ++ b)

end Phrasebook.Json
