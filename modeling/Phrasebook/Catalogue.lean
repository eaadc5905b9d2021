import Phrasebook.Placement

namespace Phrasebook

structure Catalogue where
  /-- Resources by full name. -/
  types : Dict Resource
  errors : List Error

namespace Catalogue

def empty : Catalogue := ⟨∅, []⟩

def report (c : Catalogue) (e : Error) : Catalogue := { c with errors := c.errors ++ [e] }

def addPlaced (o : Options) (c : Catalogue) (f : TextFile) (p : Placement) : Catalogue :=
  let resource :=
    (c.types.get? p.fullName).getD ⟨p.nameSpace, p.baseName, ∅, !o.disableSubNamespace⟩
  match resource.files.get? p.language with
  | some first => c.report (.duplicateLanguage f.path p.fullName p.language first.path)
  | none =>
    { c with types :=
        c.types.insert p.fullName { resource with files := resource.files.insert p.language f } }

def add (o : Options) (c : Catalogue) (f : TextFile) : Catalogue :=
  match Placement.find o f with
  | .ok p => addPlaced o c f p
  | .error fault => c.report (.unrecognizedName f.path fault)

def enclosing (nameSpace : List String) : List String :=
  (List.range nameSpace.length).map fun n => dotted (nameSpace.take (n + 1))

def user? (types : Dict Resource) (name : String) : Option String :=
  (types.toList.find? fun p => name ∈ enclosing p.2.nameSpace).map (·.1)

def conflict? (types : Dict Resource) (name : String) (r : Resource) : Option Error :=
  match user? types name, r.files.toList with
  | some user, (_, first) :: _ => some (.namespaceConflict first.path name user)
  | _, _ => none

def dropConflicts (c : Catalogue) : Catalogue where
  types := c.types.filter fun name _ => (user? c.types name).isNone
  errors := c.errors ++ c.types.toList.filterMap fun p => conflict? c.types p.1 p.2

def ofFiles (o : Options) (files : List TextFile) : Catalogue :=
  (files.foldl (add o) empty).dropConflicts

end Catalogue

end Phrasebook
