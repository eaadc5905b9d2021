import Phrasebook.Decimal.Shortest
import Phrasebook.Text.Quoted
import Phrasebook.Toml.Fault

/-!
Contents of a TOML document. Items keep the order in which they were defined. A table remembers how
it came about, because that decides what may still be added to it.
-/

namespace Phrasebook.Toml

inductive Number
  | finite : Bool → Decimal.Binary64 → Number
  | infinite : Bool → Number
  | notANumber
  deriving DecidableEq

def style : Decimal.Style := ⟨.up, none, none⟩

def Number.text : Number → String
  | finite negative x => (if negative then "-" else "") ++ x.text style
  | infinite negative => if negative then "-inf" else "inf"
  | notANumber => "NaN"

inductive Origin
  /-- Defined by its own header, or an element of an array of tables. -/
  | header
  /-- Named on the way to another header. -/
  | implied
  /-- Named on the way to a dotted key. -/
  | dotted
  /-- Written between braces. -/
  | inline
  deriving DecidableEq

inductive Node
  | string : String → Node
  | integer : Int → Node
  | float : Number → Node
  | boolean : Bool → Node
  | datetime
  | array : List Node → Node
  | table : Origin → List (String × Node) → Node
  | tables : List (List (String × Node)) → Node

abbrev Items := List (String × Node)

namespace Node

def text : Node → String
  | string s => "string " ++ Text.quote s
  | integer n => s!"integer `{n}`"
  | float x => s!"floating point `{x.text}`"
  | boolean b => s!"boolean `{b}`"
  | datetime => "map"
  | array _ => "sequence"
  | table _ _ => "map"
  | tables _ => "sequence"

def kind : Node → String
  | string _ => "string"
  | integer _ => "integer"
  | float _ => "float"
  | boolean _ => "boolean"
  | datetime => "datetime"
  | array _ => "array"
  | table .inline _ => "inline table"
  | table _ _ => "table"
  | tables _ => "array of tables"

end Node

/-- What follows a path: a header, a dotted key of a table, or a dotted key between braces. -/
inductive Way
  | header
  | key
  | inlineKey
  deriving DecidableEq

namespace Way

def origin : Way → Origin
  | header => .implied
  | _ => .dotted

def enter (way : Way) (path : List String) (key : String) : Origin → Except Fault Unit
  | .inline =>
    match way with
    | inlineKey => .error (.duplicateKey key none)
    | _ => .error (.notATable (path ++ [key]) (Node.table .inline []).kind)
  | .header =>
    match way with
    | header => .ok ()
    | _ => .error (.duplicateKey key none)
  | _ => .ok ()

end Way

namespace Items

def set (key : String) (node : Node) : Items → Items
  | [] => [(key, node)]
  | p :: ps => if p.1 = key then (key, node) :: ps else p :: set key node ps

def erase (key : String) (items : Items) : Items := items.filter (·.1 != key)

/-- Goes along a path, makes tables where it is missing, and changes the items at its end. In an
array of tables the way leads through the last one. `before` is the path gone so far. -/
def visit {α : Type} (way : Way) (f : Origin → Items → Except Fault (α × Items)) (here : Origin)
    (before : List String) : List String → Items → Except Fault (α × Items)
  | [], items => f here items
  | key :: path, items =>
    match items.lookup key with
    | none => do
      let (a, inner) ← visit way f way.origin (before ++ [key]) path []
      .ok (a, items.set key (.table way.origin inner))
    | some (.table origin inner) => do
      way.enter before key origin
      let (a, inner) ← visit way f origin (before ++ [key]) path inner
      .ok (a, items.set key (.table origin inner))
    | some (.tables each) => do
      let (a, last) ← visit way f .header (before ++ [key]) path (each.getLast?.getD [])
      .ok (a, items.set key (.tables (each.dropLast ++ [last])))
    | some node => .error (.notATable (before ++ [key]) node.kind)

def modify (way : Way) (f : Origin → Items → Except Fault Items) (here : Origin)
    (path : List String) (items : Items) : Except Fault Items :=
  (visit way (fun origin inner => (f origin inner).map ((), ·)) here [] path items).map (·.2)

def define (way : Way) (table : Option (List String)) (here : Origin) (path : List String)
    (key : String) (node : Node) (items : Items) : Except Fault Items :=
  items.modify way (fun origin inner =>
    if ¬(origin = .dotted ↔ path ≠ []) then .error (.duplicateKey key none)
    else if (inner.lookup key).isSome then .error (.duplicateKey key table)
    else .ok (inner ++ [(key, node)])) here path

end Items

end Phrasebook.Toml
