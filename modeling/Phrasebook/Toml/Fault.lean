namespace Phrasebook.Toml

inductive Fault
  | malformed
  /-- The path is that of the table, where a header has opened it or it is the root. -/
  | duplicateKey (key : String) (table : Option (List String))
  | notATable (path : List String) (kind : String)
  deriving DecidableEq

namespace Fault

def pathText (path : List String) : String := ".".intercalate path

def text : Fault → String
  | malformed => "the document is malformed"
  | duplicateKey key none => s!"duplicate key `{key}`"
  | duplicateKey key (some []) => s!"duplicate key `{key}` in document root"
  | duplicateKey key (some path) => s!"duplicate key `{key}` in table `{pathText path}`"
  | notATable path kind =>
    s!"dotted key `{pathText path}` attempted to extend non-table type ({kind})"

end Fault

end Phrasebook.Toml
