import Phrasebook.Path

/-!
A tree of files, directories and symbolic links, and what a path finds in it. A path is followed
piece by piece from the root and through links. Each write stamps the file anew, so that a stamp
tells whether a file was written since.
-/

namespace Phrasebook

namespace FileTree

abbrev Name := List UInt8

inductive Node
  | file (content : List UInt8) (stamp : Nat)
  | directory (entries : List (Name × Node))
  | link (target : Path)

abbrev Entries := List (Name × Node)

/-- The names from the root to an object. -/
abbrev Place := List Name

abbrev Trail := List (Name × Entries)

inductive Obstacle
  | missing
  | blocked
  deriving DecidableEq

structure Finding where
  place : Place
  node? : Option Node

end FileTree

structure FileTree where
  root : FileTree.Entries
  /-- The number of writes so far. -/
  clock : Nat

namespace FileTree

def empty : FileTree := ⟨[], 0⟩

def placeOf (trail : Trail) : Place := (trail.map (·.1)).reverse

def entriesAt (t : FileTree) : Trail → Entries
  | [] => t.root
  | (_, entries) :: _ => entries

def isName (name : Name) : Bool := name.length ≤ 255

def isPath (p : Path) : Bool := p.bytes.length ≤ 4095 && !p.bytes.contains 0

/-- What the pieces of a path lead to from a directory, through at most `links` links. With `create`
the last piece may name a new object. -/
def follow (t : FileTree) (create : Bool) (links : Nat) (trail : Trail) :
    List Name → Except Obstacle Finding
  | [] => .ok ⟨placeOf trail, some (.directory (t.entriesAt trail))⟩
  | piece :: rest =>
    if piece = [] ∨ piece = [Path.dot] then follow t create links trail rest
    else if piece = [Path.dot, Path.dot] then follow t create links trail.tail rest
    else if !isName piece then .error .blocked
    else
      match (t.entriesAt trail).lookup piece with
      | none =>
        if create ∧ rest = [] then .ok ⟨placeOf trail ++ [piece], none⟩ else .error .missing
      | some (.directory entries) => follow t create links ((piece, entries) :: trail) rest
      | some (.file content stamp) =>
        if rest = [] then .ok ⟨placeOf trail ++ [piece], some (.file content stamp)⟩
        else .error .blocked
      | some (.link target) =>
        match _h : links with
        | 0 => .error .blocked
        | fewer + 1 =>
          follow t create fewer (if target.isAbsolute then [] else trail) (target.pieces ++ rest)
termination_by pieces => (links, pieces.length)

def maxLinks : Nat := 40

def locate (t : FileTree) (create : Bool) (p : Path) : Except Obstacle Finding :=
  if p.bytes = [] then .error .missing
  else if isPath p then t.follow create maxLinks [] p.pieces
  else .error .blocked

def find? (t : FileTree) (p : Path) : Option (Place × Node) :=
  match t.locate false p with
  | .ok ⟨place, some node⟩ => some (place, node)
  | _ => none

def read? (t : FileTree) (p : Path) : Option (List UInt8) :=
  match t.find? p with
  | some (_, .file content _) => some content
  | _ => none

def isDirectory (t : FileTree) (p : Path) : Bool :=
  match t.find? p with
  | some (_, .directory _) => true
  | _ => false

def change (f : Entries → Entries) : Place → Entries → Entries
  | [], entries => f entries
  | name :: place, entries =>
    entries.map fun e =>
      match e.2 with
      | .directory inner => if e.1 = name then (e.1, .directory (change f place inner)) else e
      | _ => e

def without (name : Name) (entries : Entries) : Entries := entries.filter (·.1 != name)

def setNode (t : FileTree) (place : Place) (node : Node) : FileTree :=
  match place.getLast? with
  | some name =>
    { t with root := change (fun es => without name es ++ [(name, node)]) place.dropLast t.root }
  | none => t

def removeAt (t : FileTree) (place : Place) : FileTree :=
  match place.getLast? with
  | some name => { t with root := change (without name) place.dropLast t.root }
  | none => t

def write? (t : FileTree) (p : Path) (content : List UInt8) : Option FileTree :=
  match t.locate true p with
  | .error _ => none
  | .ok ⟨_, some (.directory _)⟩ => none
  | .ok f => some { t.setNode f.place (.file content (t.clock + 1)) with clock := t.clock + 1 }

def trimPieces (pieces : List Name) : List Name := (pieces.reverse.dropWhile (· == [])).reverse

def newPlace (t : FileTree) (p : Path) : Except Obstacle Place :=
  if p.bytes = [] then .error .missing
  else if !isPath p then .error .blocked
  else
    let pieces := trimPieces p.pieces
    match pieces.getLast?, t.follow false maxLinks [] pieces.dropLast with
    | some name, .ok ⟨place, some (.directory entries)⟩ =>
      if name = [Path.dot] ∨ name = [Path.dot, Path.dot] ∨ !isName name then .error .blocked
      else if (entries.lookup name).isSome then .error .blocked
      else .ok (place ++ [name])
    | _, .error obstacle => .error obstacle
    | _, _ => .error .blocked

def makeDirectory (t : FileTree) (p : Path) : Except Obstacle FileTree :=
  (t.newPlace p).map fun place => t.setNode place (.directory [])

def makeLink (t : FileTree) (p target : Path) : Except Obstacle FileTree :=
  (t.newPlace p).map fun place => t.setNode place (.link target)

/-- Makes a directory and the ones it stands in, and tells whether it is there afterwards. Only so
many of them can be missing as the path is long. -/
def makeDirectories (t : FileTree) (fuel : Nat) (p : Path) : Bool × FileTree :=
  if p.bytes = [] then (true, t)
  else
    match t.makeDirectory p, fuel, p.parent? with
    | .ok t, _, _ => (true, t)
    | .error .blocked, _, _ => (t.isDirectory p, t)
    | .error .missing, fuel + 1, some parent =>
      match t.makeDirectories fuel parent with
      | (false, t) => (false, t)
      | (true, t) =>
        match t.makeDirectory p with
        | .ok t => (true, t)
        | .error _ => (t.isDirectory p, t)
    | .error .missing, _, _ => (false, t)

def createDirectories (t : FileTree) (p : Path) : Bool × FileTree :=
  t.makeDirectories p.bytes.length p

def entriesBelow : Place → Entries → Entries
  | [], entries => entries
  | name :: place, entries =>
    match entries.lookup name with
    | some (.directory inner) => entriesBelow place inner
    | _ => []

mutual

def nodeFiles (place : Place) : Node → List (Place × List UInt8 × Nat)
  | .file content stamp => [(place, content, stamp)]
  | .directory entries => entryFiles place entries
  | .link _ => []

def entryFiles (place : Place) : List (Name × Node) → List (Place × List UInt8 × Nat)
  | [] => []
  | (name, node) :: rest => nodeFiles (place ++ [name]) node ++ entryFiles place rest

end

def filesBelow (t : FileTree) (place : Place) : List (Place × List UInt8 × Nat) :=
  entryFiles [] (entriesBelow place t.root)

mutual

def nodeSize : Node → Nat
  | .directory entries => 1 + entriesSize entries
  | _ => 1

def entriesSize : List (Name × Node) → Nat
  | [] => 0
  | (_, node) :: rest => nodeSize node + entriesSize rest

end

def size (t : FileTree) : Nat := entriesSize t.root

end FileTree

end Phrasebook
