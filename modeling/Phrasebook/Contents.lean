import Phrasebook.Csv
import Phrasebook.Json.Reader
import Phrasebook.TextFile

namespace Phrasebook

structure Entry where
  key : String
  value : String
  deriving DecidableEq

def Entry.text (e : Entry) : String :=
  s!"LocaleEntry \x7b key: {e.key}, value: {e.value} \x7d"

structure Occurrence where
  key : String
  line : Option Nat
  deriving DecidableEq

inductive Outcome
  | accepted : Occurrence → String → Outcome
  | refused : Occurrence → Error → Outcome
  | keyless : Error → Outcome
  deriving DecidableEq

namespace Outcome

def occurrence? : Outcome → Option Occurrence
  | accepted o _ => some o
  | refused o _ => some o
  | keyless _ => none

def entry? : Outcome → Option Entry
  | accepted o value => some ⟨o.key, value⟩
  | _ => none

def error? : Outcome → Option Error
  | accepted _ _ => none
  | refused _ e => some e
  | keyless e => some e

end Outcome

structure Contents where
  entries : List Entry
  errors : List Error
  deriving DecidableEq

namespace Contents

/-- The second occurrence of each key that has one, where the keys of `seen` have gone before. -/
def repeated (seen : List String) : List Occurrence → List Occurrence
  | [] => []
  | o :: os =>
    let later := repeated (o.key :: seen) os
    if seen.count o.key = 1 then o :: later else later

def ofOutcomes (path : Path) (outcomes : List Outcome) : Contents :=
  let occurrences := outcomes.filterMap Outcome.occurrence?
  let isSingle (e : Entry) : Bool := (occurrences.map (·.key)).count e.key = 1
  { entries := (outcomes.filterMap Outcome.entry?).filter isSingle
    errors := outcomes.filterMap Outcome.error? ++
      (repeated [] occurrences).map fun o => .duplicateKey path o.key o.line }

def get? (c : Contents) (key : String) : Option String :=
  (c.entries.find? (·.key = key)).map (·.value)

def ofMember (path : Path) (member : String × Json.Value) : Outcome :=
  if Text.isBlankText member.1 then .keyless (.unusableRow path none .blankKey)
  else
    match member.2.scalarText? with
    | some text => .accepted ⟨member.1, none⟩ text
    | none => .refused ⟨member.1, none⟩ (.invalidValue path member.1 member.2.kind)

def ofRecord (path : Path) (record : Csv.Record) : Outcome :=
  let line := some record.line
  match record.fields with
  | key :: value :: _ =>
    if Text.isBlankText key then .keyless (.unusableRow path line .blankKey)
    else .accepted ⟨key, line⟩ value
  | [key] =>
    let error := .unusableRow path line (.columns 1)
    if Text.isBlankText key then .keyless error else .refused ⟨key, line⟩ error
  | [] => .keyless (.unusableRow path line (.columns 0))

end Contents

namespace Format

def parse (format : Format) (path : Path) (text : String) : Except Error Contents :=
  match format with
  | .json =>
    match Json.parseObject text.toList with
    | .ok members => .ok (.ofOutcomes path (members.map (Contents.ofMember path)))
    | .error problem => .error (.malformedJson path problem)
  | .csv => .ok (.ofOutcomes path ((Csv.parse text.toList).map (Contents.ofRecord path)))

def parseBytes (format : Format) (path : Path) (content : List UInt8) : Except Error Contents := do
  let text ← decodeContent path content .utf8
  format.parse path text

end Format

/-- Content that arrives in pieces and may break off with a reason. -/
structure Stream where
  content : List UInt8
  failure : Option String

def Format.parseStream (format : Format) (path : Path) (stream : Stream) : Except Error Contents :=
  match stream.failure with
  | some reason => .error (.unreadable path reason)
  | none => format.parseBytes path stream.content

def TextFile.parse (f : TextFile) : Except Error Contents := do
  let text ← f.decode
  f.format.parse f.path text

end Phrasebook
