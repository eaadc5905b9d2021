import Phrasebook.Error

namespace Phrasebook

inductive Format
  | json
  | csv
  deriving DecidableEq

namespace Format

def extension : Format → String
  | json => "json"
  | csv => "csv"

def ofName (name : String) : Except Error Format :=
  match Text.lowerAscii (Text.trim name) with
  | "json" => .ok json
  | "csv" => .ok csv
  | other => .error (.invalidOptions (.unknownFormat other))

def ofPath? (p : Path) : Option Format := do
  let ext ← p.extension?
  let name ← Text.Utf8.decode? ext
  (ofName name).toOption

end Format

structure TextFile where
  path : Path
  format : Format
  /-- A declared language takes precedence over the one in the file name. -/
  language : Option String
  content : List UInt8
  /-- The encoding of content without a byte-order mark. -/
  encoding : Encoding
  deriving DecidableEq

namespace TextFile

def ofPath (path : Path) (content : List UInt8) : Except Error TextFile :=
  match Format.ofPath? path with
  | some format => .ok ⟨path, format, none, content, .utf8⟩
  | none => .error (.unrecognizedName path .unknownExtension)

end TextFile

/-- The text of content declared to be in an encoding. An error names the encoding that was used. -/
def decodeContent (path : Path) (content : List UInt8) (declared : Encoding) :
    Except Error String :=
  let (encoding, bytes) := Encoding.effective declared content
  match encoding.decode? bytes with
  | some text => .ok text
  | none => .error (.undecodable path encoding)

def TextFile.decode (f : TextFile) : Except Error String :=
  decodeContent f.path f.content f.encoding

end Phrasebook
