import Phrasebook.FileTree
import Phrasebook.Contents

namespace Phrasebook

def readContent (t : FileTree) (p : Path) : Except Error (List UInt8) :=
  match t.read? p with
  | some content => .ok content
  | none => .error (.unreadable p "the file cannot be read")

def TextFile.read (t : FileTree) (p : Path) : Except Error TextFile := do
  let content ← readContent t p
  TextFile.ofPath p content

def Format.parseFile (format : Format) (t : FileTree) (p : Path) : Except Error Contents := do
  let content ← readContent t p
  format.parseBytes p content

end Phrasebook
