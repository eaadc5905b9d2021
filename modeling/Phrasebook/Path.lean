import Phrasebook.Text.Utf8

/-!
File paths as sequences of bytes. A path keeps its spelling; comparing and cutting go by components,
among which `.` stands only at the start of a relative path and repeated slashes count once.
-/

namespace Phrasebook

structure Path where
  bytes : List UInt8
  deriving DecidableEq

namespace Path

def slash : UInt8 := 0x2F

def dot : UInt8 := 0x2E

inductive Component
  | root
  | current
  | parent
  | name : List UInt8 → Component
  deriving DecidableEq

def ofString (s : String) : Path := ⟨Text.Utf8.ofString s⟩

def display (p : Path) : String := Text.Utf8.toStringLossy p.bytes

def toString? (p : Path) : Option String := Text.Utf8.decode? p.bytes

def isAbsolute (p : Path) : Bool := p.bytes.head? == some slash

def pieces (p : Path) : List (List UInt8) := p.bytes.splitOn slash

def Component.ofPiece? (piece : List UInt8) : Option Component :=
  if piece = [] ∨ piece = [dot] then none
  else if piece = [dot, dot] then some .parent
  else some (.name piece)

def components (p : Path) : List Component :=
  let body := p.pieces.filterMap Component.ofPiece?
  if p.isAbsolute then .root :: body
  else if p.pieces.head? = some [dot] then .current :: body
  else body

def Component.name? : Component → Option (List UInt8)
  | .name bs => some bs
  | _ => none

def Component.bytes : Component → List UInt8
  | .root => [slash]
  | .current => [dot]
  | .parent => [dot, dot]
  | .name bs => bs

/-- An absolute path on the right replaces the left one. -/
def join (p q : Path) : Path :=
  if q.isAbsolute ∨ p.bytes = [] then q
  else if p.bytes.getLast? = some slash then ⟨p.bytes ++ q.bytes⟩
  else ⟨p.bytes ++ slash :: q.bytes⟩

def below? (p q : Path) : Option (List Component) := q.components.isPrefixOf? p.components

def fileNameOf? (cs : List Component) : Option (List UInt8) := cs.getLast?.bind Component.name?

/-- A file name before and after its last dot. A dot in front, and the name `..`, do not count. -/
def splitExtension (file : List UInt8) : List UInt8 × Option (List UInt8) :=
  let ext := (file.reverse.takeWhile (· != dot)).reverse
  let stem := file.take (file.length - ext.length - 1)
  if file = [dot, dot] ∨ stem = [] then (file, none) else (stem, some ext)

def fileStem? (cs : List Component) : Option (List UInt8) :=
  (fileNameOf? cs).map fun file => (splitExtension file).1

def extension? (p : Path) : Option (List UInt8) :=
  (fileNameOf? p.components).bind fun file => (splitExtension file).2

def joinPieces (ps : List (List UInt8)) : List UInt8 := [slash].intercalate ps

def dropIdlePieces (ps : List (List UInt8)) : List (List UInt8) :=
  (ps.reverse.dropWhile fun piece => piece == [] || piece == [dot]).reverse

def parent? (p : Path) : Option Path :=
  match p.pieces with
  | [] => none
  | first :: rest =>
    match dropIdlePieces rest with
    | [] => if first = [] then none else some ⟨[]⟩
    | kept =>
      let kept := dropIdlePieces kept.dropLast
      if first = [] ∧ kept = [] then some ⟨[slash]⟩ else some ⟨joinPieces (first :: kept)⟩

def Component.rank : Component → List Nat
  | .root => [0]
  | .current => [1]
  | .parent => [2]
  | .name bs => 3 :: bs.map UInt8.toNat

def rank (p : Path) : List (List Nat) := p.components.map Component.rank

def le (p q : Path) : Bool := !decide (q.rank < p.rank)

end Path

end Phrasebook
