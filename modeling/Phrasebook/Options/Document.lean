import Phrasebook.FileTree
import Phrasebook.Options
import Phrasebook.Toml.Reader

namespace Phrasebook

namespace Options

inductive Field
  | baseDir
  | sourceDir
  | outDir
  | rootNamespace
  | fallbackLanguage
  | disableSubNamespace
  deriving DecidableEq

namespace Field

def all : List Field :=
  [baseDir, sourceDir, outDir, rootNamespace, fallbackLanguage, disableSubNamespace]

def name : Field → String
  | baseDir => "base-dir"
  | sourceDir => "source-dir"
  | outDir => "out-dir"
  | rootNamespace => "namespace"
  | fallbackLanguage => "fallback-language"
  | disableSubNamespace => "disable-sub-namespace"

def ofName? (s : String) : Option Field := all.find? (·.name = s)

def expected : Field → String
  | baseDir | sourceDir | outDir => "path string"
  | rootNamespace | fallbackLanguage => "a string"
  | disableSubNamespace => "a boolean"

def accepts : Field → Toml.Node → Bool
  | disableSubNamespace, .boolean _ => true
  | disableSubNamespace, _ => false
  | _, .string _ => true
  | _, _ => false

end Field

def checkItem (item : String × Toml.Node) : Except OptionFault Unit :=
  match Field.ofName? item.1 with
  | none => .error (.unknownField item.1 (Field.all.map Field.name))
  | some field =>
    if field.accepts item.2 then .ok () else .error (.fieldType item.2.text field.expected)

def textOf (items : Toml.Items) (field : Field) : Except OptionFault String :=
  match items.lookup field.name with
  | some (.string s) => .ok s
  | some node => .error (.fieldType node.text field.expected)
  | none => .error (.missingField field.name)

def flagOf (items : Toml.Items) (field : Field) : Except OptionFault Bool :=
  match items.lookup field.name with
  | some (.boolean b) => .ok b
  | some node => .error (.fieldType node.text field.expected)
  | none => .error (.missingField field.name)

def ofItems (items : Toml.Items) : Except OptionFault Options := do
  items.forM checkItem
  let baseDir ← textOf items .baseDir
  let sourceDir ← textOf items .sourceDir
  let outDir ← textOf items .outDir
  let rootNamespace ← textOf items .rootNamespace
  let fallbackLanguage ← textOf items .fallbackLanguage
  let disableSubNamespace ← flagOf items .disableSubNamespace
  .ok ⟨.ofString baseDir, .ofString sourceDir, .ofString outDir, rootNamespace, fallbackLanguage,
    disableSubNamespace⟩

def ofToml (text : String) : Except Error Options :=
  match Toml.parse text.toList with
  | .error fault => .error (.invalidOptions (.malformed fault))
  | .ok items => (ofItems items).mapError .invalidOptions

def rebase (o : Options) (file : Path) : Options :=
  match file.parent? with
  | some parent => if o.baseDir.isAbsolute then o else { o with baseDir := parent.join o.baseDir }
  | none => o

def load (t : FileTree) (file : Path) : Except Error Options :=
  match t.read? file with
  | none => .error (.unreadable file "the file cannot be read")
  | some content =>
    match Text.Utf8.decode? content with
    | none => .error (.unreadable file "the file is not valid UTF-8")
    | some text => (ofToml text).map fun o => o.rebase file

end Options

end Phrasebook
