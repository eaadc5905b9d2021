import Phrasebook.Diagnostic

namespace Phrasebook

structure Collector where
  diagnostics : List Diagnostic
  deriving DecidableEq

namespace Collector

def empty : Collector := ⟨[]⟩

def report (c : Collector) (d : Diagnostic) : Collector := ⟨c.diagnostics ++ [d]⟩

def errors (c : Collector) : List Diagnostic := c.diagnostics.filter Diagnostic.isError

def hasErrors (c : Collector) : Bool := c.diagnostics.any Diagnostic.isError

def withCode (c : Collector) (code : Code) : List Diagnostic := c.diagnostics.filter (·.code = code)

end Collector

end Phrasebook
