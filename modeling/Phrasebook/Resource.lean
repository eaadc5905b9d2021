import Phrasebook.Dict
import Phrasebook.TextFile

namespace Phrasebook

def dotted (segments : List String) : String := ".".intercalate segments

def fullName (nameSpace : List String) (baseName : String) : String :=
  if nameSpace.isEmpty then baseName else dotted nameSpace ++ "." ++ baseName

structure Resource where
  nameSpace : List String
  baseName : String
  files : Dict TextFile
  subNamespace : Bool

namespace Resource

def dottedNameSpace (r : Resource) : String := dotted r.nameSpace

def fullName (r : Resource) : String := Phrasebook.fullName r.nameSpace r.baseName

def unitName (r : Resource) : String := r.fullName ++ ".g.rs"

def languages (r : Resource) : List String := r.files.keys

def sources (r : Resource) : List (String × Path) := r.files.toList.map fun p => (p.1, p.2.path)

end Resource

end Phrasebook
