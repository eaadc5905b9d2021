import Phrasebook.Proofs.Success

/-!
The transcript of a run that is not stopped: the errors of the catalogue, the blocks of the types,
mixed as the schedule has it, and a summary. A block has the errors of the files in the order of
languages. It ends with the missing fallback language, or it belongs to the one attempt to hand over
the unit of the type and goes on with the warnings and with the error of the host, if it refused the
unit.
-/

universe u v

namespace Phrasebook

namespace Delivery

def attempt? : Delivery → Option SourceUnit
  | diagnostic _ => none
  | unit u _ => some u

end Delivery

namespace Log

def attempts (l : Log) : List SourceUnit := l.filterMap Delivery.attempt?

@[simp] theorem attempts_append (l₁ l₂ : Log) :
    attempts (l₁ ++ l₂) = attempts l₁ ++ attempts l₂ := List.filterMap_append

theorem filterMap_reports {α : Type u} {view : Delivery → Option α}
    (hview : ∀ d, view (.diagnostic d) = none) (ds : List Diagnostic) :
    (reports ds).filterMap view = [] := by
  rw [reports, List.filterMap_map]
  exact List.filterMap_eq_nil_iff.2 fun d _ => hview d

@[simp] theorem attempts_reports (ds : List Diagnostic) : attempts (reports ds) = [] :=
  filterMap_reports (fun _ => rfl) ds

end Log

namespace Text

def numbersIn (cs : List Char) : List Nat :=
  ((cs.splitOnP (!·.isDigit)).filter (· ≠ [])).map (Nat.ofDigitChars 10 · 0)

/-- The numbers that stand in a text, in decimal. -/
def numbers (s : String) : List Nat := numbersIn s.toList

theorem numbersIn_append_cons {c : Char} (hc : c.isDigit = false) (cs ds : List Char) :
    numbersIn (cs ++ c :: ds) = numbersIn cs ++ numbersIn ds := by
  have hsplit : (!c.isDigit) = true := by rw [hc, Bool.not_false]
  rw [numbersIn, List.splitOnP_append_cons cs ds hsplit, List.filter_append, List.map_append]
  rfl

theorem numbersIn_toDigits (n : Nat) : numbersIn (Nat.toDigits 10 n) = [n] := by
  have hdigits : ∀ c ∈ Nat.toDigits 10 n, (!c.isDigit) = false := by
    intro c hc
    rw [Nat.isDigit_of_mem_toDigits (by decide) (by decide) hc, Bool.not_true]
  have hkept : ∀ ds ∈ [Nat.toDigits 10 n], decide (ds ≠ []) = true :=
    List.forall_mem_singleton.2 (decide_eq_true Nat.toDigits_ne_nil)
  rw [numbersIn, List.splitOnP_eq_singleton hdigits, List.filter_eq_self.2 hkept]
  exact congrArg (fun n => [n]) Nat.ofDigitChars_ten_toDigits

end Text

/-- A message about no place in particular, with these numbers in its text. -/
structure Diagnostic.Summarizes (d : Diagnostic) (numbers : List Nat) : Prop where
  code : d.code = .information
  location : d.location = none
  message : Text.numbers d.message = numbers

theorem Compile.summarizes_summary (generated types files : Nat) :
    (summary generated types files).Summarizes [generated, types, files] where
  code := rfl
  location := rfl
  message := by
    have htext : (summary generated types files).message.toList = "generated".toList ++ ' ' ::
        (Nat.toDigits 10 generated ++ ' ' :: ("of".toList ++ ' ' :: (Nat.toDigits 10 types ++ ' ' ::
          ("text resource types from".toList ++ ' ' :: (Nat.toDigits 10 files ++ ' ' ::
            "files".toList))))) := by
      simp only [summary, Diagnostic.info, String.toList_append, Nat.toString_eq_ofList_toDigits,
        String.toList_ofList, List.append_assoc]
      rfl
    have hblank : ' '.isDigit = false := rfl
    rw [Text.numbers, htext]
    simp only [Text.numbersIn_append_cons hblank, Text.numbersIn_toDigits]
    rfl

def TextFile.faults (f : TextFile) : List Error :=
  match f.parse with
  | .ok c => c.errors
  | .error e => [e]

theorem Contents.code_of_ofMember {path : Path} {member : String × Json.Value} {e : Error}
    (h : (ofMember path member).error? = some e) : e.code = .malformedFile := by
  unfold ofMember at h
  repeat' split at h
  all_goals cases h
  all_goals rfl

theorem Contents.code_of_ofRecord {path : Path} {record : Csv.Record} {e : Error}
    (h : (ofRecord path record).error? = some e) : e.code = .malformedFile := by
  unfold ofRecord at h
  dsimp only at h
  repeat' split at h
  all_goals cases h
  all_goals rfl

theorem Contents.code_of_ofOutcomes {path : Path} {outcomes : List Outcome}
    (h : ∀ outcome ∈ outcomes, ∀ e, outcome.error? = some e → e.code = .malformedFile) :
    ∀ e ∈ (ofOutcomes path outcomes).errors, e.code = .malformedFile ∨ e.code = .duplicateKey := by
  intro e he
  rcases List.mem_append.1 he with he | he
  · obtain ⟨outcome, houtcome, he⟩ := List.mem_filterMap.1 he
    exact .inl (h outcome houtcome e he)
  · obtain ⟨occurrence, -, rfl⟩ := List.mem_map.1 he
    exact .inr rfl

theorem Format.code_of_parse (format : Format) (path : Path) (text : String) :
    match format.parse path text with
    | .ok c => ∀ e ∈ c.errors, e.code = .malformedFile ∨ e.code = .duplicateKey
    | .error e => e.code = .malformedFile := by
  cases format with
  | json =>
    simp only [parse]
    cases Json.parseObject text.toList with
    | ok members =>
      apply Contents.code_of_ofOutcomes
      exact List.forall_mem_map.2 fun member _ e he => Contents.code_of_ofMember he
    | error problem => rfl
  | csv =>
    apply Contents.code_of_ofOutcomes
    exact List.forall_mem_map.2 fun record _ e he => Contents.code_of_ofRecord he

theorem TextFile.code_of_faults (f : TextFile) :
    ∀ e ∈ f.faults, e.code = .malformedFile ∨ e.code = .duplicateKey := by
  unfold faults parse decode decodeContent
  dsimp only
  cases (Encoding.effective f.encoding f.content).1.decode?
      (Encoding.effective f.encoding f.content).2 with
  | none =>
    intro e he
    exact .inl (List.mem_singleton.1 he ▸ rfl)
  | some text =>
    have hparse := f.format.code_of_parse f.path text
    simp only [bind, Except.bind]
    cases hresult : f.format.parse f.path text with
    | ok c =>
      rw [hresult] at hparse
      exact hparse
    | error e =>
      rw [hresult] at hparse
      intro e' he'
      exact .inl (List.mem_singleton.1 he' ▸ hparse)

def Resource.faults (r : Resource) : List Error := r.files.values.flatMap TextFile.faults

theorem Resource.code_of_faults {r : Resource} {e : Error} (he : e ∈ r.faults) :
    e.code = .malformedFile ∨ e.code = .duplicateKey := by
  obtain ⟨f, -, he⟩ := List.mem_flatMap.1 he
  exact f.code_of_faults e he

def Resource.Lacks (r : Resource) (language : String) : Prop :=
  ∀ f, r.files.get? language = some f → ∃ e, f.parse = .error e

theorem Resource.lacks_iff {r : Resource} {language : String} :
    r.Lacks language ↔ ∀ c, ¬r.Parses language c := by
  constructor
  · rintro h c ⟨f, hf, hc⟩
    obtain ⟨e, he⟩ := h f hf
    cases hc.symm.trans he
  · intro h f hf
    cases hparse : f.parse with
    | error e => exact ⟨e, rfl⟩
    | ok c => exact absurd ⟨f, hf, hparse⟩ (h c)

theorem Options.fallbackTag_of_validate {o : Options} (h : o.validate = .ok ()) :
    ∃ fallbackLanguage, o.fallbackTag = .ok fallbackLanguage := by
  unfold validate at h
  split at h
  · cases h
  · split at h
    · cases h
    · cases htag : o.fallbackTag with
      | ok fallbackLanguage => exact ⟨fallbackLanguage, rfl⟩
      | error e =>
        rw [htag] at h
        cases h

theorem Merged.code_of_warning? {typeName language : String} {fallback entries : List Entry}
    {key : String} {d : Diagnostic} (h : warning? typeName language fallback entries key = some d) :
    d.code = .fallbackSubstituted ∨ d.code = .missingFallbackKey := by
  unfold warning? at h
  split at h
  · cases h
  · split at h
    · cases h
      exact .inl rfl
    · cases h
      exact .inr rfl

theorem code_of_merge {typeName fallbackLanguage : String} {parsed : Dict (List Entry)} {m : Merged}
    {warnings : List Diagnostic} (h : merge typeName parsed fallbackLanguage = .ok (m, warnings)) :
    ∀ d ∈ warnings, d.code = .fallbackSubstituted ∨ d.code = .missingFallbackKey := by
  unfold merge at h
  split at h
  · cases h
  · cases h
    intro d hd
    obtain ⟨p, -, hd⟩ := List.mem_flatMap.1 hd
    obtain ⟨key, -, hkey⟩ := List.mem_filterMap.1 hd
    exact Merged.code_of_warning? hkey

namespace Compile

open Log

variable {σ : Type u} {h : Host σ} {o : Options} {files : List TextFile}
  {fallbackLanguage typeName : String} {r : Resource}

def refusal : Except Error Unit → List Error
  | .ok _ => []
  | .error e => [e]

/-- The block of one type. -/
inductive Account (h : Host σ) (o : Options) (fallbackLanguage typeName : String) (r : Resource) :
    Log → Prop
  | skipped : r.Lacks fallbackLanguage → Account h o fallbackLanguage typeName r
      (reports (r.faults.map Error.diagnostic ++
        [(Error.missingFallback typeName fallbackLanguage).diagnostic]))
  | attempted {m : Merged} {warnings : List Diagnostic} {s : σ} {answer : Except Error Unit} :
      ¬r.Lacks fallbackLanguage →
      merge typeName (entriesOf r) fallbackLanguage = .ok (m, warnings) →
      (∀ d ∈ warnings, d.code = .fallbackSubstituted ∨ d.code = .missingFallbackKey) →
      (h.save (.ofMerged m r o) s).1 = answer → Account h o fallbackLanguage typeName r
        (.unit (.ofMerged m r o) answer :: reports (r.faults.map Error.diagnostic ++ warnings ++
          (refusal answer).map Error.diagnostic))

/-- The blocks mixed into one log in which each keeps its own order. -/
structure Interleaves (blocks : Dict Log) (middle : List (String × Delivery)) : Prop where
  names : ∀ d ∈ middle, d.1 ∈ blocks.keys
  block : ∀ {name block}, blocks.get? name = some block →
    (middle.filter (·.1 = name)).map (·.2) = block

/-- The log of a run that came to its end. -/
structure Transcript (h : Host σ) (o : Options) (files : List TextFile) (fallbackLanguage : String)
    (blocks : Dict Log) (middle : List (String × Delivery)) (last : Diagnostic) (log : Log) :
    Prop where
  keys : blocks.keys = (Catalogue.ofFiles o files).types.keys
  account : ∀ {name r block}, (Catalogue.ofFiles o files).types.get? name = some r →
    blocks.get? name = some block → Account h o fallbackLanguage name r block
  interleaves : Interleaves blocks middle
  log_eq : log = reports ((Catalogue.ofFiles o files).errors.map Error.diagnostic) ++
    middle.map (·.2) ++ [.diagnostic last]
  summarizes :
    last.Summarizes [log.units.length, (Catalogue.ofFiles o files).types.size, files.length]

theorem fileReports_eq (r : Resource) : fileReports r = r.faults.map Error.diagnostic := by
  have hfile (f : TextFile) : fileDiagnostics f.parse = f.faults.map Error.diagnostic := by
    unfold TextFile.faults
    cases f.parse <;> rfl
  simp only [fileReports, Resource.faults, Dict.values, Dict.mapValues, List.map_map,
    List.flatMap_map, List.map_flatMap, Function.comp_apply, hfile]

theorem get?_entriesOf_eq_none (h : r.Lacks fallbackLanguage) :
    (entriesOf r).get? fallbackLanguage = none := by
  apply Option.eq_none_iff_forall_ne_some.2
  intro entries hentries
  obtain ⟨c, hc, -⟩ := get?_entriesOf.1 hentries
  exact Resource.lacks_iff.1 h c hc

theorem account_of_block {block : Log}
    (hblock : Block h (prepare o fallbackLanguage typeName r) block) :
    Account h o fallbackLanguage typeName r block := by
  by_cases hlacks : r.Lacks fallbackLanguage
  · rw [prepare_of_error (merge_eq_error typeName (get?_entriesOf_eq_none hlacks)),
      fileReports_eq] at hblock
    cases hblock with
    | skipped hunit =>
      cases hunit
      exact .skipped hlacks
    | saved hunit _ => cases hunit
    | refused hunit _ => cases hunit
  · obtain ⟨c, hc⟩ := not_forall_not.1 (mt Resource.lacks_iff.2 hlacks)
    obtain ⟨m, warnings, hmerge, -⟩ := merges_of_get? typeName hc
    rw [prepare_of_ok hmerge, fileReports_eq] at hblock
    have hwarnings := code_of_merge hmerge
    cases hblock with
    | skipped hunit => cases hunit
    | saved hunit hanswer =>
      cases hunit
      have hattempted := Account.attempted hlacks hmerge hwarnings hanswer
      rwa [refusal, List.map_nil, List.append_nil] at hattempted
    | refused hunit hanswer =>
      cases hunit
      exact .attempted hlacks hmerge hwarnings hanswer

theorem Account.unique {τ : Type v} {h' : Host τ} {block block' : Log}
    (haccount : Account h o fallbackLanguage typeName r block)
    (haccount' : Account h' o fallbackLanguage typeName r block')
    (hsave : ∀ u s t, u.typeName = r.fullName → (h.save u s).1 = (h'.save u t).1) :
    block = block' := by
  cases haccount with
  | skipped hlacks =>
    cases haccount' with
    | skipped _ => rfl
    | attempted hhas _ _ _ => exact absurd hlacks hhas
  | attempted hhas hmerge _ hanswer =>
    cases haccount' with
    | skipped hlacks => exact absurd hlacks hhas
    | attempted _ hmerge' _ hanswer' =>
      cases hmerge.symm.trans hmerge'
      cases hanswer.symm.trans ((hsave _ _ _ rfl).trans hanswer')
      rfl

structure IsUnitView (view : Delivery → Option SourceUnit) : Prop where
  diagnostic : ∀ d, view (.diagnostic d) = none
  unit : ∀ u answer v, view (.unit u answer) = some v → v = u

theorem isUnitView_attempt? : IsUnitView Delivery.attempt? where
  diagnostic _ := rfl
  unit _ _ _ hv := (Option.some.inj hv).symm

theorem isUnitView_savedUnit? : IsUnitView Delivery.savedUnit? where
  diagnostic _ := rfl
  unit u answer v hv := by
    cases answer with
    | ok _ => exact (Option.some.inj hv).symm
    | error _ => cases hv

theorem Account.typeName_of_mem {block : Log}
    (haccount : Account h o fallbackLanguage typeName r block) {u : SourceUnit}
    {answer : Except Error Unit} (hu : .unit u answer ∈ block) : u.typeName = r.fullName := by
  cases haccount with
  | skipped _ => exact absurd hu unit_not_mem_reports
  | attempted _ _ _ _ =>
    rcases List.mem_cons.1 hu with hu | hu
    · cases hu
      rfl
    · exact absurd hu unit_not_mem_reports

theorem filterMap_tagged_eq {view : Delivery → Option SourceUnit} (hview : IsUnitView view)
    (p : String → Bool) {middle : List (String × Delivery)}
    (hmiddle : ∀ name u answer, (name, .unit u answer) ∈ middle → u.typeName = name) :
    ((middle.map (·.2)).filterMap view).filter (fun u => p u.typeName) =
      ((middle.filter fun d => p d.1).map (·.2)).filterMap view := by
  rw [List.filterMap_map, List.filterMap_map, List.filter_filterMap, List.filterMap_filter]
  apply List.filterMap_congr
  rintro ⟨name, d⟩ hd
  cases hv : view d with
  | none => simp [hv]
  | some v =>
    cases d with
    | diagnostic d => cases (hview.diagnostic d).symm.trans hv
    | unit u answer =>
      obtain rfl := hview.unit u answer v hv
      simp [hv, Option.filter_some, hmiddle name v answer hd]

namespace Interleaves

variable {blocks : Dict Log} {middle : List (String × Delivery)}
  (hmiddle : Interleaves blocks middle)

include hmiddle

theorem exists_block {name : String} {d : Delivery} (hd : (name, d) ∈ middle) :
    ∃ block, blocks.get? name = some block ∧ d ∈ block := by
  obtain ⟨block, hblock⟩ := Dict.mem_keys_iff.1 (hmiddle.names _ hd)
  refine ⟨block, hblock, ?_⟩
  rw [← hmiddle.block hblock]
  exact List.mem_map.2 ⟨(name, d), List.mem_filter.2 ⟨hd, decide_eq_true rfl⟩, rfl⟩

end Interleaves

namespace Transcript

variable {blocks : Dict Log} {middle : List (String × Delivery)} {last : Diagnostic} {log : Log}
  (htranscript : Transcript h o files fallbackLanguage blocks middle last log)

include htranscript

theorem exists_type {name : String} {block : Log} (hblock : blocks.get? name = some block) :
    ∃ r, (Catalogue.ofFiles o files).types.get? name = some r ∧ r.fullName = name ∧
      Account h o fallbackLanguage name r block := by
  obtain ⟨r, hr⟩ := Dict.mem_keys_iff.1 (htranscript.keys ▸ Dict.mem_keys_iff.2 ⟨block, hblock⟩)
  exact ⟨r, hr, (Catalogue.fits_of_mem (Catalogue.sound_ofFiles o files) hr).1,
    htranscript.account hr hblock⟩

theorem typeName_of_mem {name : String} {u : SourceUnit} {answer : Except Error Unit}
    (hu : (name, .unit u answer) ∈ middle) : u.typeName = name := by
  obtain ⟨block, hblock, hmem⟩ := htranscript.interleaves.exists_block hu
  obtain ⟨r, -, hname, haccount⟩ := htranscript.exists_type hblock
  exact (haccount.typeName_of_mem hmem).trans hname

theorem diagnostics_eq : log.diagnostics =
    (Catalogue.ofFiles o files).errors.map Error.diagnostic ++
      Log.diagnostics (middle.map (·.2)) ++ [last] := by
  rw [htranscript.log_eq, diagnostics_append, diagnostics_append, diagnostics_reports]
  rfl

theorem filterMap_eq {view : Delivery → Option SourceUnit} (hview : IsUnitView view) :
    log.filterMap view = (middle.map (·.2)).filterMap view := by
  rw [htranscript.log_eq, List.filterMap_append, List.filterMap_append,
    filterMap_reports hview.diagnostic, List.nil_append, List.filterMap_cons_none
    (hview.diagnostic _), List.filterMap_nil, List.append_nil]

theorem filter_filterMap {view : Delivery → Option SourceUnit} (hview : IsUnitView view)
    (p : String → Bool) : (log.filterMap view).filter (fun u => p u.typeName) =
      ((middle.filter fun d => p d.1).map (·.2)).filterMap view := by
  rw [htranscript.filterMap_eq hview]
  exact filterMap_tagged_eq hview p fun _ _ _ => htranscript.typeName_of_mem

theorem attempts_filter {name : String} {block : Log} (hblock : blocks.get? name = some block) :
    log.attempts.filter (·.typeName = name) = block.attempts := by
  have hfilter := htranscript.filter_filterMap isUnitView_attempt? (· = name)
  rw [htranscript.interleaves.block hblock] at hfilter
  exact hfilter

end Transcript

def blocksOf (steps : Dict (List (Option Delivery))) : Dict Log :=
  steps.mapValues fun _ l => l.reduceOption

theorem values_blocksOf (steps : Dict (List (Option Delivery))) :
    (blocksOf steps).values = steps.toList.map (·.2.reduceOption) := List.map_map

theorem interleaves_woven (schedule : Schedule) (steps : Dict (List (Option Delivery))) :
    Interleaves (blocksOf steps) (woven schedule steps.toList) where
  names d hd := by
    obtain ⟨⟨name, l⟩, hl, rfl, -⟩ := mem_woven.1 hd
    rw [blocksOf, Dict.keys_mapValues]
    exact Dict.mem_keys_iff.2 ⟨l, Dict.mem_toList_iff.1 hl⟩
  block := by
    intro name block hblock
    rw [blocksOf, Dict.get?_mapValues, Option.map_eq_some_iff] at hblock
    obtain ⟨l, hl, rfl⟩ := hblock
    exact filter_woven_name steps.nodup_keys (Dict.mem_toList_iff.2 hl) schedule

theorem woven_inOrder_eq_flatten (steps : Dict (List (Option Delivery))) :
    (woven .inOrder steps.toList).map (·.2) = (blocksOf steps).values.flatten := by
  rw [map_snd_woven_inOrder, values_blocksOf]
  rfl

namespace Conducts

variable {steps : Dict (List (Option Delivery))}
  (hsteps : Conducts h o files fallbackLanguage false steps)

include hsteps

theorem account {name : String} {block : Log}
    (hr : (Catalogue.ofFiles o files).types.get? name = some r)
    (hblock : (blocksOf steps).get? name = some block) :
    Account h o fallbackLanguage name r block := by
  obtain ⟨block, hmem, hget⟩ := hsteps.exists_block hr
  rw [blocksOf, Dict.get?_mapValues, hget, Option.map_some, reduceOption_steps] at hblock
  cases hblock
  exact account_of_block hmem

theorem transcript {schedule : Schedule} {log : Log} {last : Diagnostic}
    (hlog : log = catalogueReports o files ++ (woven schedule steps.toList).map (·.2) ++
      [.diagnostic last])
    (hlast : last = summary log.units.length (Catalogue.ofFiles o files).types.size files.length) :
    Transcript h o files fallbackLanguage (blocksOf steps) (woven schedule steps.toList) last
      log where
  keys := (Dict.keys_mapValues _ _).trans hsteps.keys
  account := hsteps.account
  interleaves := interleaves_woven schedule steps
  log_eq := hlog
  summarizes := hlast ▸ summarizes_summary _ _ _

/-- A type that is the same in two runs does the same in both. -/
theorem get?_congr {τ : Type v} {h' : Host τ} {files' : List TextFile}
    {steps' : Dict (List (Option Delivery))}
    (hsteps' : Conducts h' o files' fallbackLanguage false steps') {name : String}
    (htypes : (Catalogue.ofFiles o files).types.get? name =
      (Catalogue.ofFiles o files').types.get? name)
    (hsave : ∀ u s t, u.typeName = name → (h.save u s).1 = (h'.save u t).1) :
    steps.get? name = steps'.get? name := by
  cases hr : (Catalogue.ofFiles o files).types.get? name with
  | some r =>
    have hname := (Catalogue.fits_of_mem (Catalogue.sound_ofFiles o files) hr).1
    obtain ⟨block, hblock, hget⟩ := hsteps.exists_block hr
    obtain ⟨block', hblock', hget'⟩ := hsteps'.exists_block (htypes.symm.trans hr)
    rw [hget, hget', (account_of_block hblock).unique (account_of_block hblock')
      fun u s t hu => hsave u s t (hu.trans hname)]
  | none =>
    rw [hsteps.get?_eq_none hr, hsteps'.get?_eq_none (htypes.symm.trans hr)]

end Conducts

theorem ne_cancelled_of_ok {result : Except Error Bool} {success : Bool}
    (h : result = .ok success) : result ≠ .error .cancelled := by
  rw [h]
  nofun

section

variable {schedule : Schedule} {result : Except Error Bool} {log : Log}
  (hrun : Run schedule h o files result log)

include hrun

theorem Run.of_refused {e : Error} (hrefused : o.validate = .error e)
    (hresult : result ≠ .error .cancelled) :
    result = .ok false ∧ log = [.diagnostic e.diagnostic] := by
  cases hrun with
  | refusedOptions hfailed =>
    rw [hrefused] at hfailed
    cases hfailed
    exact ⟨rfl, rfl⟩
  | notStarted => exact absurd rfl hresult
  | stopped _ _ _ => exact absurd rfl hresult
  | finished hvalid _ _ _ _ => cases hrefused.symm.trans hvalid

theorem Run.result_eq (hresult : result ≠ .error .cancelled) :
    result = .ok !log.diagnostics.any Diagnostic.isError := by
  cases hrun with
  | @refusedOptions e _ =>
    have hany : [e.diagnostic].any Diagnostic.isError = true := by
      rw [List.any_cons, e.isError_diagnostic, Bool.true_or]
    exact congrArg (fun b => Except.ok !b) hany.symm
  | notStarted => exact absurd rfl hresult
  | stopped _ _ _ => exact absurd rfl hresult
  | @finished _ _ log last _ _ _ _ hlast =>
    have hany : (log.diagnostics ++ [last]).any Diagnostic.isError =
        log.diagnostics.any Diagnostic.isError := by
      rw [List.any_append, hlast, quiet_iff_any.1 (quiet_summary _ _ _), Bool.or_false]
    rw [diagnostics_append]
    exact congrArg (fun b => Except.ok !b) hany.symm

/-- A run that came to its end, with the steps of its types. -/
theorem Run.exists_steps (hvalid : o.validate = .ok ()) (hresult : result ≠ .error .cancelled) :
    ∃ fallbackLanguage steps last, o.fallbackTag = .ok fallbackLanguage ∧
      Conducts h o files fallbackLanguage false steps ∧
      log = catalogueReports o files ++ (woven schedule steps.toList).map (·.2) ++
        [.diagnostic last] ∧
      last = summary log.units.length (Catalogue.ofFiles o files).types.size files.length := by
  cases hrun with
  | refusedOptions hrefused =>
    obtain ⟨fallbackLanguage, htag⟩ := Options.fallbackTag_of_validate hvalid
    rw [hvalid] at hrefused
    cases hrefused.symm.trans htag
  | notStarted => exact absurd rfl hresult
  | stopped _ _ _ => exact absurd rfl hresult
  | @finished fallbackLanguage steps log last _ htag hsteps hlog hlast =>
    have hunits : units (log ++ [.diagnostic last]) = log.units :=
      (units_append ..).trans (List.append_nil _)
    refine ⟨fallbackLanguage, steps, last, htag, hsteps, ?_, ?_⟩
    · rw [hlog]
    · rw [hunits, hlast]

end

end Compile

def TextFile.mixedBatch : List TextFile :=
  [.sample "Menu.fr.csv", .sample "notes.csv", .sample "Greeting.en.csv",
    .sample "Greeting.EN.csv"]

end Phrasebook
