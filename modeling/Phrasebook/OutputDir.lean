import Phrasebook.FileTree
import Phrasebook.SourceUnit
import Phrasebook.ModuleIndex

namespace Phrasebook

structure OutputDir where
  dir : Path
  /-- The namespaces of the saved units, by file name. -/
  saved : Dict (List String)

namespace OutputDir

def start (dir : Path) : OutputDir := ⟨dir, ∅⟩

def filePath (d : OutputDir) (name : String) : Path := d.dir.join (.ofString name)

def refresh (t : FileTree) (p : Path) (content : String) : Except Error Unit × FileTree :=
  let bytes := Text.Utf8.ofString content
  if t.read? p = some bytes then (.ok (), t)
  else
    match t.write? p bytes with
    | some t => (.ok (), t)
    | none => (.error (.unwritable p "the file cannot be written"), t)

def writeAll (t : FileTree) : List (Path × String) → Except Error Unit × FileTree
  | [] => (.ok (), t)
  | (p, content) :: rest =>
    match refresh t p content with
    | (.ok (), t) => writeAll t rest
    | (.error e, t) => (.error e, t)

def unitFiles (d : OutputDir) (u : SourceUnit) : List (Path × String) :=
  (d.filePath u.fileName, u.source) :: u.tableFiles.map fun f => (d.filePath f.fileName, f.content)

def save (d : OutputDir) (u : SourceUnit) (t : FileTree) :
    Except Error Unit × OutputDir × FileTree :=
  match t.createDirectories d.dir with
  | (false, t) => (.error (.unwritable d.dir "the directory cannot be made"), d, t)
  | (true, t) =>
    match writeAll t (d.unitFiles u) with
    | (.ok (), t) => (.ok (), { d with saved := d.saved.insert u.fileName u.nameSpace }, t)
    | (.error e, t) => (.error e, d, t)

def indexPath (d : OutputDir) : Path := d.filePath indexFileName

def writeIndex (d : OutputDir) (t : FileTree) : Except Error Path × FileTree :=
  match refresh t d.indexPath (moduleIndex d.saved) with
  | (.ok (), t) => (.ok d.indexPath, t)
  | (.error e, t) => (.error e, t)

end OutputDir

end Phrasebook
