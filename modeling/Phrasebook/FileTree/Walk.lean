import Phrasebook.ReadFile

namespace Phrasebook.FileTree

mutual

def walkNode (t : FileTree) : Nat → List Place → Path → Place → Node → Option (List Path)
  | 0, _, _, _, _ => none
  | fuel + 1, opened, path, place, node =>
    match node with
    | .file _ _ => some [path]
    | .directory entries =>
      if isPath path then walkEntries t fuel (place :: opened) path place entries else none
    | .link _ =>
      match t.find? path with
      | some (_, .file _ _) => some [path]
      | some (target, .directory entries) =>
        if target ∈ opened then none
        else walkEntries t fuel (target :: opened) path target entries
      | _ => none

def walkEntries (t : FileTree) : Nat → List Place → Path → Place → Entries → Option (List Path)
  | _, _, _, _, [] => some []
  | 0, _, _, _, _ :: _ => none
  | fuel + 1, opened, path, place, (name, node) :: rest => do
    let here ← walkNode t fuel opened (path.join ⟨name⟩) (place ++ [name]) node
    let more ← walkEntries t fuel opened path place rest
    some (here ++ more)

end

/-- A walk goes through a link only to a directory that is not open, so no walk is deeper. -/
def walkDepth (t : FileTree) : Nat := (t.size + 2) * (t.size + 2) * 2

def walk (t : FileTree) (dir : Path) : Option (List Path) := do
  let (place, node) ← t.find? dir
  walkNode t t.walkDepth [] dir place node

def textFiles (t : FileTree) (dir : Path) : Except Error (List TextFile) :=
  match t.walk dir with
  | none => .error (.unreadable dir "the directory cannot be walked")
  | some paths =>
    ((paths.filter fun p => (Format.ofPath? p).isSome).mergeSort Path.le).mapM (TextFile.read t)

end Phrasebook.FileTree
