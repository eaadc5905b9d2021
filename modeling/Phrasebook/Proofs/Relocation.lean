import Phrasebook.Proofs.Rebasing
import Phrasebook.Proofs.Transcript

universe u v

namespace Phrasebook

variable {o o' : Options}

/-- What a delivery shows apart from the texts of diagnostics. -/
inductive Outline
  | diagnostic : Severity → Outline
  /-- A unit, and whether the host took it. -/
  | unit : SourceUnit → Bool → Outline

namespace Outline

def attempt? : Outline → Option SourceUnit
  | diagnostic _ => none
  | unit u _ => some u

def savedUnit? : Outline → Option SourceUnit
  | diagnostic _ => none
  | unit u taken => if taken then some u else none

def severity? : Outline → Option Severity
  | diagnostic severity => some severity
  | unit _ _ => none

end Outline

def Delivery.outline : Delivery → Outline
  | diagnostic d => .diagnostic d.severity
  | unit u answer => .unit u answer.isOk

namespace Log

def outline (l : Log) : List Outline := l.map Delivery.outline

theorem outline_reports (ds : List Diagnostic) :
    (reports ds).outline = (ds.map Diagnostic.severity).map .diagnostic := by
  rw [outline, reports, List.map_map, List.map_map]
  rfl

theorem attempts_eq (l : Log) : l.attempts = l.outline.filterMap Outline.attempt? := by
  rw [attempts, outline, List.filterMap_map]
  refine List.filterMap_congr fun d _ => ?_
  cases d <;> rfl

theorem units_eq (l : Log) : l.units = l.outline.filterMap Outline.savedUnit? := by
  rw [units, outline, List.filterMap_map]
  refine List.filterMap_congr fun d _ => ?_
  cases d with
  | diagnostic d => rfl
  | unit u answer => cases answer <;> rfl

theorem severities_eq (l : Log) :
    l.diagnostics.map Diagnostic.severity = l.outline.filterMap Outline.severity? := by
  rw [diagnostics, outline, List.map_filterMap, List.filterMap_map]
  refine List.filterMap_congr fun d _ => ?_
  cases d <;> rfl

/-- Logs with the same units, offered and taken, and with diagnostics of the same severities. -/
structure Alike (l l' : Log) : Prop where
  attempts : l.attempts = l'.attempts
  units : l.units = l'.units
  severities : l.diagnostics.map Diagnostic.severity = l'.diagnostics.map Diagnostic.severity

/-- The same, but perhaps in another order. -/
structure Shuffled (l l' : Log) : Prop where
  attempts : l.attempts.Perm l'.attempts
  units : l.units.Perm l'.units
  severities : (l.diagnostics.map Diagnostic.severity).Perm
    (l'.diagnostics.map Diagnostic.severity)

variable {l l' : Log}

theorem alike_of_outline (h : l.outline = l'.outline) : l.Alike l' where
  attempts := by rw [attempts_eq, attempts_eq, h]
  units := by rw [units_eq, units_eq, h]
  severities := by rw [severities_eq, severities_eq, h]

theorem shuffled_of_outline (h : l.outline.Perm l'.outline) : l.Shuffled l' where
  attempts := attempts_eq l ▸ attempts_eq l' ▸ h.filterMap _
  units := units_eq l ▸ units_eq l' ▸ h.filterMap _
  severities := severities_eq l ▸ severities_eq l' ▸ h.filterMap _

theorem Shuffled.any_isError (h : l.Shuffled l') :
    l.diagnostics.any Diagnostic.isError = l'.diagnostics.any Diagnostic.isError := by
  have hany (l : Log) : l.diagnostics.any Diagnostic.isError =
      (l.diagnostics.map Diagnostic.severity).any (· == .error) := by
    rw [List.any_map]
    rfl
  rw [hany, hany, h.severities.any_eq]

end Log

namespace Compile

open Log

def outlineOf (accepts : String → Bool) : Except Error SourceUnit × List Severity → List Outline
  | (.error _, severities) => (severities ++ [Severity.error]).map .diagnostic
  | (.ok u, severities) => .unit u (accepts u.fileName) ::
      (severities ++ if accepts u.fileName then [] else [Severity.error]).map .diagnostic

section

variable {σ : Type u} {h : Host σ} {accepts : String → Bool}
  (hsave : ∀ u s, (h.save u s).1.isOk = accepts u.fileName)

include hsave

theorem outline_block {q : Prepared} {block : Log} (hblock : Block h q block) :
    block.outline = outlineOf accepts q.view := by
  have hclosed (e : Error) : (reports (q.diagnostics ++ [e.diagnostic])).outline =
      (q.diagnostics.map Diagnostic.severity ++ [Severity.error]).map .diagnostic := by
    have hone : [e.diagnostic].map Diagnostic.severity = [.error] := Error.map_severity [e]
    rw [outline_reports, List.map_append, hone]
  cases hblock with
  | skipped hunit =>
    rw [Prepared.view, hunit, hclosed]
    rfl
  | @saved u s hunit hanswer =>
    have haccepts : accepts u.fileName = true := by
      rw [← hsave u s, hanswer]
      rfl
    change .unit u true :: (reports q.diagnostics).outline = _
    rw [outline_reports, Prepared.view, hunit, outlineOf, haccepts, if_pos rfl, List.append_nil]
  | @refused u s e hunit hanswer =>
    have haccepts : accepts u.fileName = false := by
      rw [← hsave u s, hanswer]
      rfl
    change .unit u false :: (reports _).outline = _
    rw [hclosed, Prepared.view, hunit, outlineOf, haccepts]
    rfl

theorem Conducts.outline_eq {τ : Type v} {h' : Host τ}
    (hsave' : ∀ u s, (h'.save u s).1.isOk = accepts u.fileName) (ho : o.Rebased o')
    {files files' : List TextFile} (hfiles : List.Forall₂ (TextFile.Moved o o') files files')
    {fallbackLanguage : String} {steps steps' : Dict (List (Option Delivery))}
    (hsteps : Conducts h o files fallbackLanguage false steps)
    (hsteps' : Conducts h' o' files' fallbackLanguage false steps') :
    (steps.mapValues fun _ l => l.map (Option.map Delivery.outline)) =
      steps'.mapValues fun _ l => l.map (Option.map Delivery.outline) := by
  apply Dict.ext_get?
  intro name
  rw [Dict.get?_mapValues, Dict.get?_mapValues]
  have htypes := (Catalogue.moved_ofFiles ho hfiles).types.get? name
  cases hr : (Catalogue.ofFiles o files).types.get? name with
  | none =>
    rw [hr] at htypes
    cases hr' : (Catalogue.ofFiles o' files').types.get? name with
    | some r' =>
      rw [hr'] at htypes
      cases htypes
    | none => rw [hsteps.get?_eq_none hr, hsteps'.get?_eq_none hr']
  | some r =>
    rw [hr] at htypes
    cases hr' : (Catalogue.ofFiles o' files').types.get? name with
    | none =>
      rw [hr'] at htypes
      cases htypes
    | some r' =>
      rw [hr'] at htypes
      obtain ⟨hmoved⟩ := htypes
      obtain ⟨block, hblock, hget⟩ := hsteps.exists_block hr
      obtain ⟨block', hblock', hget'⟩ := hsteps'.exists_block hr'
      have houtline : block.outline = block'.outline := by
        rw [outline_block hsave hblock, outline_block hsave' hblock',
          view_prepare hmoved fallbackLanguage name]
      have hblocks : (block.map some).map (Option.map Delivery.outline) =
          (block'.map some).map (Option.map Delivery.outline) := by
        have hmap (block : Log) : (block.map some).map (Option.map Delivery.outline) =
            block.outline.map some := by
          rw [Log.outline, List.map_map, List.map_map]
          rfl
        rw [hmap, hmap, houtline]
      rw [hget, hget', Option.map_some, Option.map_some, List.map_append, List.map_append, hblocks,
        questions_prepare hmoved fallbackLanguage name]

end

/-- The outline of a run is that of its steps, woven. -/
theorem outline_log {files : List TextFile} {schedule : Schedule}
    {steps : Dict (List (Option Delivery))} {last : Diagnostic} {log : Log}
    (hlog : log = catalogueReports o files ++ (woven schedule steps.toList).map (·.2) ++
      [.diagnostic last]) : log.outline =
        (List.replicate (Catalogue.ofFiles o files).errors.length .error).map .diagnostic ++
          (woven schedule (steps.mapValues fun _ l =>
            l.map (Option.map Delivery.outline)).toList).map (·.2) ++
              [.diagnostic last.severity] := by
  have hmiddle : Log.outline ((woven schedule steps.toList).map (·.2)) =
      (woven schedule (steps.mapValues fun _ l =>
        l.map (Option.map Delivery.outline)).toList).map (·.2) := by
    change _ = (woven schedule (steps.toList.map
      (Prod.map id (List.map (Option.map Delivery.outline))))).map (·.2)
    rw [← map_woven, Log.outline, List.map_map, List.map_map]
    rfl
  rw [hlog, ← Error.map_severity, ← outline_reports, ← hmiddle]
  simp only [Log.outline, List.map_append]
  rfl

theorem Run.outlines {σ : Type u} {τ : Type v} {h : Host σ} {h' : Host τ}
    {accepts : String → Bool} (hsave : ∀ u s, (h.save u s).1.isOk = accepts u.fileName)
    (hsave' : ∀ u s, (h'.save u s).1.isOk = accepts u.fileName) (ho : o.Rebased o')
    {files files' : List TextFile} (hfiles : List.Forall₂ (TextFile.Moved o o') files files')
    {schedule schedule' : Schedule} {result result' : Except Error Bool} {log log' : Log}
    (hrun : Run schedule h o files result log) (hrun' : Run schedule' h' o' files' result' log')
    (hresult : result ≠ .error .cancelled) (hresult' : result' ≠ .error .cancelled) :
    log.outline.Perm log'.outline ∧ (schedule = schedule' → log.outline = log'.outline) := by
  cases hvalid : o.validate with
  | error e =>
    obtain ⟨-, rfl⟩ := hrun.of_refused hvalid hresult
    obtain ⟨-, rfl⟩ := hrun'.of_refused (ho.validate ▸ hvalid) hresult'
    exact ⟨.refl _, fun _ => rfl⟩
  | ok _ =>
    obtain ⟨fallbackLanguage, steps, last, htag, hsteps, hlog, hlast⟩ :=
      hrun.exists_steps hvalid hresult
    obtain ⟨_, steps', last', htag', hsteps', hlog', hlast'⟩ :=
      hrun'.exists_steps (ho.validate ▸ hvalid) hresult'
    cases (ho.fallbackTag ▸ htag).symm.trans htag'
    have hseverity : last.severity = last'.severity := by
      rw [hlast, hlast']
      rfl
    rw [outline_log hlog, outline_log hlog', hseverity, (Catalogue.moved_ofFiles ho hfiles).errors,
      hsteps.outline_eq hsave hsave' ho hfiles hsteps']
    refine ⟨?_, ?_⟩
    · exact (((woven_perm_woven schedule schedule' _).map _).append_left _).append_right _
    · rintro rfl
      rfl

end Compile

open Compile in
/-- A run does not depend on where the base directory is: from another one it has the same result
and hands over the same units, with the files in their headers. When the types take turns in the
same way, the units come in the same order. -/
theorem compile_rebased (schedule schedule' : Schedule) {σ : Type u} {τ : Type v} (h : Host σ)
    (h' : Host τ) (accepts : String → Bool)
    (hsave : ∀ u s, (h.save u s).1.isOk = accepts u.fileName)
    (hsave' : ∀ u s, (h'.save u s).1.isOk = accepts u.fileName) {o o' : Options}
    (ho : o.Rebased o') (files : List TextFile)
    (hrelative : ∀ f ∈ files, ¬f.path.isAbsolute = true) {given given' : List TextFile}
    (hgiven : List.Forall₂ (TextFile.GivenFrom o.baseDir) files given)
    (hgiven' : List.Forall₂ (TextFile.GivenFrom o'.baseDir) files given') (s : σ) (t : τ)
    (hresult : (compileUnder schedule h.logged o given (s, [])).1 ≠ .error .cancelled)
    (hresult' : (compileUnder schedule' h'.logged o' given' (t, [])).1 ≠ .error .cancelled) :
    let run := compileUnder schedule h.logged o given (s, [])
    let run' := compileUnder schedule' h'.logged o' given' (t, [])
    run.1 = run'.1 ∧ run.2.2.Shuffled run'.2.2 ∧
      (schedule = schedule' → run.2.2.Alike run'.2.2) := by
  intro run run'
  have hfiles := TextFile.moved_of_given ho hrelative hgiven hgiven'
  have hrun := run_compile schedule h o given s
  have hrun' := run_compile schedule' h' o' given' t
  obtain ⟨hperm, hsame⟩ := hrun.outlines hsave hsave' ho hfiles hrun' hresult hresult'
  have hshuffled := Log.shuffled_of_outline hperm
  refine ⟨?_, hshuffled, fun hschedule => Log.alike_of_outline (hsame hschedule)⟩
  rw [hrun.result_eq hresult, hrun'.result_eq hresult', hshuffled.any_isError]

def Options.elsewhere : Options :=
  { Options.sample with baseDir := .ofString "/else//where/./" }

theorem Options.rebased_elsewhere : Options.sample.Rebased .elsewhere where
  isAbsolute := by decide +kernel
  isRelative := by decide +kernel
  sourceDir := rfl
  rootNamespace := rfl
  fallbackLanguage := rfl
  disableSubNamespace := rfl

def TextFile.relativeBatch : List TextFile :=
  [{ TextFile.sample "Greeting.en.csv" with path := .ofString "./texts/Greeting.en.csv" },
    { TextFile.sample "Greeting.de.csv" with path := .ofString "texts//Greeting.de.csv" }]

open Compile in
theorem compile_rebased_elsewhere :
    let given := TextFile.relativeBatch.map fun f =>
      { f with path := Options.elsewhere.baseDir.join f.path }
    let run := compile Host.accepting.logged .sample TextFile.relativeBatch ((), [])
    let run' := compile Host.accepting.logged .elsewhere given ((), [])
    run.2.2.units.map (·.typeName) = ["App.Greeting"] ∧ run.1 = run'.1 ∧
      run.2.2.Alike run'.2.2 := by
  intro given run run'
  have hok : run.1 = .ok true := by decide +kernel
  have hok' : run'.1 = .ok true := by decide +kernel
  have hgiven (base : Path) : List.Forall₂ (TextFile.GivenFrom base) TextFile.relativeBatch
      TextFile.relativeBatch := List.forall₂_same.2 fun _ _ => .asSuch
  have hgiven' : List.Forall₂ (TextFile.GivenFrom Options.elsewhere.baseDir)
      TextFile.relativeBatch given :=
    List.forall₂_map_right_iff.2 (List.forall₂_same.2 fun _ _ => .joined)
  have hsave : ∀ (u : SourceUnit) (s : Unit), (Host.accepting.save u s).1.isOk = true :=
    fun _ _ => rfl
  obtain ⟨hresult, -, hsame⟩ := compile_rebased .inOrder .inOrder Host.accepting Host.accepting
    (fun _ => true) hsave hsave Options.rebased_elsewhere TextFile.relativeBatch (by decide +kernel)
    (hgiven _) hgiven' () () (ne_cancelled_of_ok hok) (ne_cancelled_of_ok hok')
  exact ⟨by decide +kernel, hresult, hsame rfl⟩

end Phrasebook
