import Phrasebook.Catalogue
import Phrasebook.Compile.Task

/-!
Compiling a batch of files. Each type is a task of its own, and a schedule says which of them takes
the next step: it asks the host whether to stop, hands over its unit or hands over one diagnostic.
The host is asked before the files are sorted into types, before each type, each of its files and
its unit, and once more at the end. A type that has been stopped keeps others from being taken up,
but not from going on.
-/

universe u

namespace Phrasebook

namespace Compile

structure Prepared where
  files : List TextFile
  diagnostics : List Diagnostic
  unit : Except Error SourceUnit

def fileDiagnostics : Except Error Contents → List Diagnostic
  | .ok c => c.errors.map Error.diagnostic
  | .error e => [e.diagnostic]

def entries? (parsed : Except Error Contents) : Option (List Entry) :=
  parsed.toOption.map (·.entries)

def prepare (o : Options) (fallbackLanguage typeName : String) (r : Resource) : Prepared :=
  let parsed := r.files.mapValues fun _ f => f.parse
  let ds := parsed.values.flatMap fileDiagnostics
  match merge typeName (parsed.filterMap fun _ c => entries? c) fallbackLanguage with
  | .ok (merged, warnings) => ⟨r.files.values, ds ++ warnings, .ok (.ofMerged merged r o)⟩
  | .error e => ⟨r.files.values, ds, .error e⟩

namespace Prepared

def closing (q : Prepared) : Task :=
  match q.unit with
  | .error e => .reportAll (q.diagnostics ++ [e.diagnostic])
  | .ok u => .ask (.save u fun
    | .ok () => .reportAll q.diagnostics
    | .error e => .reportAll (q.diagnostics ++ [e.diagnostic]))

/-- Nothing is handed over before the files are read, so that each of them is no more than a
question. -/
def task (q : Prepared) : Task := .start (q.files.foldr (fun _ => .ask) q.closing)

end Prepared

def summary (generated types files : Nat) : Diagnostic :=
  .info s!"generated {generated} of {types} text resource types from {files} files"

end Compile

open Compile

variable {σ : Type u}

def compileUnder (schedule : Schedule) (h : Host σ) (o : Options) (files : List TextFile) (s : σ) :
    Except Error Bool × σ :=
  match o.validate.bind fun _ => o.fallbackTag with
  | .error e => (.ok false, h.report e.diagnostic s)
  | .ok fallbackLanguage =>
    if h.isCancelled s then (.error .cancelled, s)
    else
      let catalogue := Catalogue.ofFiles o files
      let start := deliver h (catalogue.errors.map Error.diagnostic) ⟨s, 0, false, false⟩
      let tasks := catalogue.types.toList.map fun p =>
        (p.1, (prepare o fallbackLanguage p.1 p.2).task)
      let p := work h schedule tasks start
      if p.stopped || h.isCancelled p.host then (.error .cancelled, p.host)
      else (.ok !p.failed, h.report (summary p.generated tasks.length files.length) p.host)

def compile (h : Host σ) (o : Options) (files : List TextFile) (s : σ) : Except Error Bool × σ :=
  compileUnder .inOrder h o files s

end Phrasebook
