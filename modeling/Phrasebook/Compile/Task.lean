import Phrasebook.Error
import Phrasebook.SourceUnit

universe u

namespace Phrasebook

/-- Who receives diagnostics and units and may ask for the work to stop. -/
structure Host (σ : Type u) where
  isCancelled : σ → Bool
  report : Diagnostic → σ → σ
  save : SourceUnit → σ → Except Error Unit × σ

namespace Compile

/-- What a worker has left to do for one type. -/
inductive Task
  | done
  /-- Takes the type up, unless the work was stopped before. -/
  | start : Task → Task
  /-- Asks the host whether to stop. -/
  | ask : Task → Task
  | save : SourceUnit → (Except Error Unit → Task) → Task
  | report : Diagnostic → Task → Task

structure Progress (σ : Type u) where
  host : σ
  generated : Nat
  failed : Bool
  stopped : Bool

variable {σ : Type u}

def Progress.stop (p : Progress σ) : Progress σ := { p with stopped := true }

def deliver (h : Host σ) (ds : List Diagnostic) (p : Progress σ) : Progress σ :=
  { p with
    host := ds.foldl (fun s d => h.report d s) p.host
    failed := p.failed || ds.any Diagnostic.isError }

def offer (h : Host σ) (u : SourceUnit) (p : Progress σ) : Except Error Unit × Progress σ :=
  match h.save u p.host with
  | (.ok (), s) => (.ok (), { p with host := s, generated := p.generated + 1 })
  | (.error e, s) => (.error e, { p with host := s })

namespace Task

def reportAll (ds : List Diagnostic) : Task := ds.foldr report done

def step (h : Host σ) : Task → Progress σ → Task × Progress σ
  | done, p => (done, p)
  | start t, p => if p.stopped || h.isCancelled p.host then (done, p.stop) else (t, p)
  | ask t, p => if h.isCancelled p.host then (done, p.stop) else (t, p)
  | save u next, p => (next (offer h u p).1, (offer h u p).2)
  | report d t, p => (t, deliver h [d] p)

def complete (h : Host σ) : Task → Progress σ → Progress σ
  | done, p => p
  | start t, p => if p.stopped || h.isCancelled p.host then p.stop else t.complete h p
  | ask t, p => if h.isCancelled p.host then p.stop else t.complete h p
  | save u next, p => (next (offer h u p).1).complete h (offer h u p).2
  | report d t, p => t.complete h (deliver h [d] p)

theorem complete_step (h : Host σ) (t : Task) (p : Progress σ) :
    (t.step h p).1.complete h (t.step h p).2 = t.complete h p := by
  cases t with
  | done => rfl
  | start t =>
    rw [step, complete]
    split <;> rfl
  | ask t =>
    rw [step, complete]
    split <;> rfl
  | save u next => rfl
  | report d t => rfl

end Task

def turn (h : Host σ) (name : String) :
    List (String × Task) → Progress σ → List (String × Task) × Progress σ
  | [], p => ([], p)
  | (n, t) :: ts, p =>
    if n = name then ((n, (t.step h p).1) :: ts, (t.step h p).2)
    else ((n, t) :: (turn h name ts p).1, (turn h name ts p).2)

/-- The types that take the next steps, by their names. When there are no more turns, the types go
on one after the other. -/
abbrev Schedule := List String

def Schedule.inOrder : Schedule := []

def work (h : Host σ) : Schedule → List (String × Task) → Progress σ → Progress σ
  | [], ts, p => ts.foldl (fun p t => t.2.complete h p) p
  | name :: names, ts, p => work h names (turn h name ts p).1 (turn h name ts p).2

end Compile

end Phrasebook
