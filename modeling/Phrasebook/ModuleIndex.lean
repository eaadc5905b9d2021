import Phrasebook.Dict
import Phrasebook.Identifier
import Phrasebook.Text.Quoted

/-!
The index of a set of units: a module for each namespace, nested as namespaces are, in which the
units of that namespace are included. A tree of modules is written as lines that include a file,
open a module or close one, and `IndexLine.places?` finds the files among such lines with the
modules around them.
-/

namespace Phrasebook

inductive IndexLine
  | file : String → IndexLine
  | opening : String → IndexLine
  | closing
  deriving DecidableEq

inductive ModuleTree
  | node (files : List String) (children : List (String × ModuleTree))

namespace ModuleTree

def empty : ModuleTree := node [] []

def update (name : String) (f : ModuleTree → ModuleTree) :
    List (String × ModuleTree) → List (String × ModuleTree)
  | [] => [(name, f empty)]
  | p :: ps =>
    if name < p.1 then (name, f empty) :: p :: ps
    else if name = p.1 then (name, f p.2) :: ps
    else p :: update name f ps

def insert (file : String) : List String → ModuleTree → ModuleTree
  | [], node files children => node (files ++ [file]) children
  | segment :: rest, node files children => node files (update segment (insert file rest) children)

def ofUnits (units : Dict (List String)) : ModuleTree :=
  units.toList.foldl (fun tree p => insert p.1 p.2 tree) empty

mutual

def lines : ModuleTree → List IndexLine
  | node files children => files.map .file ++ childLines children

def childLines : List (String × ModuleTree) → List IndexLine
  | [] => []
  | (name, child) :: rest =>
    .opening (Identifier.render name) :: lines child ++ .closing :: childLines rest

end

end ModuleTree

namespace IndexLine

def indent (depth : Nat) (s : String) : String := .ofList (List.replicate (4 * depth) ' ') ++ s

def render : Nat → List IndexLine → List String
  | _, [] => []
  | depth, file name :: ls => indent depth s!"include!({Text.quote name});" :: render depth ls
  | depth, opening name :: ls =>
    indent depth "#[allow(non_snake_case)]" :: indent depth s!"pub mod {name} \x7b" ::
      render (depth + 1) ls
  | depth, closing :: ls => indent (depth - 1) "\x7d" :: render (depth - 1) ls

/-- What a line of an index holds, if it is neither a comment nor an attribute nor blank. -/
def read? (line : List Char) : Option IndexLine :=
  let cs := line.dropWhile (· = ' ')
  match "include!(".toList.isPrefixOf? cs, "pub mod ".toList.isPrefixOf? cs with
  | some r, _ =>
    match Text.readQuoted r with
    | some (name, [')', ';']) => some (file name)
    | _ => none
  | none, some r =>
    if r.dropWhile (· ≠ ' ') = [' ', '\x7b'] then some (opening (.ofList (r.takeWhile (· ≠ ' '))))
    else none
  | none, none => if cs = ['\x7d'] then some closing else none

/-- The files among lines with the modules around each, or nothing where the modules are not closed
in their turn. `around` are the modules that are open. -/
def places? (around : List String) : List IndexLine → Option (List (List String × String))
  | [] => if around = [] then some [] else none
  | file name :: ls => (places? around ls).map ((around, name) :: ·)
  | opening name :: ls => places? (around ++ [name]) ls
  | closing :: ls => if around = [] then none else places? around.dropLast ls

end IndexLine

def moduleIndex (units : Dict (List String)) : String :=
  "// <auto-generated>\n//     Generated by i18ntext.\n// </auto-generated>\n\n" ++
    String.join ((IndexLine.render 0 (ModuleTree.ofUnits units).lines).map (· ++ "\n"))

def readModuleIndex (index : String) : Option (List (List String × String)) :=
  IndexLine.places? [] ((index.toList.splitOn '\n').filterMap IndexLine.read?)

def indexFileName : String := "i18ntext.g.rs"

end Phrasebook
