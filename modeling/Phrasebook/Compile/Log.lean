import Phrasebook.Compile

universe u

namespace Phrasebook

inductive Delivery
  | diagnostic : Diagnostic → Delivery
  /-- A unit, and what the host answered. -/
  | unit : SourceUnit → Except Error Unit → Delivery

namespace Delivery

def diagnostic? : Delivery → Option Diagnostic
  | diagnostic d => some d
  | unit _ _ => none

def savedUnit? : Delivery → Option SourceUnit
  | unit u (.ok ()) => some u
  | _ => none

end Delivery

abbrev Log := List Delivery

namespace Log

def diagnostics (l : Log) : List Diagnostic := l.filterMap Delivery.diagnostic?

def units (l : Log) : List SourceUnit := l.filterMap Delivery.savedUnit?

end Log

namespace Host

variable {σ : Type u}

def logged (h : Host σ) : Host (σ × Log) where
  isCancelled s := h.isCancelled s.1
  report d s := (h.report d s.1, s.2 ++ [.diagnostic d])
  save u s :=
    let (result, t) := h.save u s.1
    (result, t, s.2 ++ [.unit u result])

def unstoppable (h : Host σ) : Host σ := { h with isCancelled := fun _ => false }

end Host

end Phrasebook
