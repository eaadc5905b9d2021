import Phrasebook.Proofs.Lookup
import Phrasebook.Proofs.Repetition
import Phrasebook.Proofs.Spelling

universe u

namespace Phrasebook

theorem Error.isError_diagnostic (e : Error) : e.diagnostic.isError = true := by
  cases e <;> rfl

def Quiet (ds : List Diagnostic) : Prop := ∀ d ∈ ds, d.isError = false

theorem quiet_append {ds es : List Diagnostic} : Quiet (ds ++ es) ↔ Quiet ds ∧ Quiet es :=
  List.forall_mem_append

theorem quiet_errors {es : List Error} : Quiet (es.map Error.diagnostic) ↔ es = [] := by
  constructor
  · intro h
    apply List.eq_nil_iff_forall_not_mem.2
    intro e he
    have hquiet := h e.diagnostic (List.mem_map.2 ⟨e, he, rfl⟩)
    rw [e.isError_diagnostic] at hquiet
    cases hquiet
  · rintro rfl
    exact List.forall_mem_nil _

theorem not_quiet_error {e : Error} : ¬Quiet [e.diagnostic] := fun h =>
  List.cons_ne_nil e [] (quiet_errors.1 h)

theorem quiet_iff_any {ds : List Diagnostic} : Quiet ds ↔ ds.any Diagnostic.isError = false := by
  rw [List.any_eq_false]
  exact forall₂_congr fun d _ => (Bool.not_eq_true _).symm.to_iff

/-- What is right with a type: all its files parse without errors, the fallback language is among
them, and the host takes its unit. -/
structure Resource.IsClean (r : Resource) (fallbackLanguage : String)
    (answer : String → Except Error Unit) : Prop where
  parses : ∀ {language f}, r.files.get? language = some f → ∃ c, f.parse = .ok c ∧ c.errors = []
  fallback : ∃ f, r.files.get? fallbackLanguage = some f
  accepted : answer r.unitName = .ok ()

structure IsClean (o : Options) (files : List TextFile) (answer : String → Except Error Unit) :
    Prop where
  options : o.validate = .ok ()
  catalogue : (Catalogue.ofFiles o files).errors = []
  types : ∃ fallbackLanguage, o.fallbackTag = .ok fallbackLanguage ∧
    ∀ {name r}, (Catalogue.ofFiles o files).types.get? name = some r →
      r.IsClean fallbackLanguage answer

namespace Compile

open Log

variable {σ : Type u} {h : Host σ} {answer : String → Except Error Unit}

def Prepared.Succeeds (q : Prepared) (answer : String → Except Error Unit) : Prop :=
  Quiet q.diagnostics ∧ ∃ u, q.unit = .ok u ∧ answer u.fileName = .ok ()

theorem quiet_fileDiagnostics {parsed : Except Error Contents} :
    Quiet (fileDiagnostics parsed) ↔ ∃ c, parsed = .ok c ∧ c.errors = [] := by
  cases parsed with
  | error e =>
    constructor
    · exact fun h => absurd h not_quiet_error
    · rintro ⟨c, hc, -⟩
      cases hc
  | ok c =>
    rw [fileDiagnostics, quiet_errors]
    constructor
    · exact fun h => ⟨c, rfl, h⟩
    · rintro ⟨_, hc, h⟩
      cases hc
      exact h

theorem quiet_fileReports {r : Resource} : Quiet (fileReports r) ↔
    ∀ {language f}, r.files.get? language = some f → ∃ c, f.parse = .ok c ∧ c.errors = [] := by
  have hflat : Quiet (fileReports r) ↔ ∀ parsed ∈ (r.files.mapValues fun _ f => f.parse).values,
      Quiet (fileDiagnostics parsed) := List.forall_mem_flatMap
  simp only [hflat, Dict.mem_values_iff, Dict.get?_mapValues, Option.map_eq_some_iff,
    quiet_fileDiagnostics]
  constructor
  · intro h language f hf
    exact h _ ⟨language, f, hf, rfl⟩
  · rintro h _ ⟨language, f, hf, rfl⟩
    exact h hf

theorem succeeds_prepare {o : Options} {fallbackLanguage typeName : String} {r : Resource} :
    (prepare o fallbackLanguage typeName r).Succeeds answer ↔
      r.IsClean fallbackLanguage answer := by
  have hprepared := preparation_prepare o fallbackLanguage typeName r
  generalize prepare o fallbackLanguage typeName r = q at hprepared ⊢
  cases hprepared with
  | merged hlanguage hm hwarnings =>
    subst hlanguage
    constructor
    · rintro ⟨hquiet, u, hu, hanswer⟩
      cases hu
      obtain ⟨f, hf, -⟩ := hm.parses
      exact ⟨quiet_fileReports.1 (quiet_append.1 hquiet).1, ⟨f, hf⟩, hanswer⟩
    · intro hclean
      refine ⟨quiet_append.2 ⟨quiet_fileReports.2 hclean.parses, hwarnings⟩, _, rfl, ?_⟩
      exact hclean.accepted
  | missing hnone =>
    constructor
    · rintro ⟨-, u, hu, -⟩
      cases hu
    · intro hclean
      obtain ⟨f, hf⟩ := hclean.fallback
      obtain ⟨c, hc, -⟩ := hclean.parses hf
      exact absurd ⟨f, hf, hc⟩ (hnone c)

section

variable (hsave : ∀ u s, (h.save u s).1 = answer u.fileName)

include hsave

theorem quiet_block {q : Prepared} {block : Log} (hblock : Block h q block) :
    Quiet block.diagnostics ↔ q.Succeeds answer := by
  cases hblock with
  | skipped hunit =>
    rw [diagnostics_reports, quiet_append]
    constructor
    · exact fun h => absurd h.2 not_quiet_error
    · rintro ⟨-, u, hu, -⟩
      cases hunit.symm.trans hu
  | saved hunit hanswer =>
    rw [hsave] at hanswer
    change Quiet (diagnostics (reports q.diagnostics)) ↔ _
    rw [diagnostics_reports]
    constructor
    · exact fun h => ⟨h, _, hunit, hanswer⟩
    · exact fun h => h.1
  | refused hunit hanswer =>
    rw [hsave] at hanswer
    change Quiet (diagnostics (reports _)) ↔ _
    rw [diagnostics_reports, quiet_append]
    constructor
    · exact fun h => absurd h.2 not_quiet_error
    · rintro ⟨-, u, hu, hok⟩
      cases hunit.symm.trans hu
      cases hanswer.symm.trans hok

theorem Conducts.quiet_iff {o : Options} {files : List TextFile} {fallbackLanguage : String}
    {steps : Dict (List (Option Delivery))}
    (hsteps : Conducts h o files fallbackLanguage false steps) (schedule : Schedule) :
    Quiet (diagnostics ((woven schedule steps.toList).map (·.2))) ↔
      ∀ {name r}, (Catalogue.ofFiles o files).types.get? name = some r →
        (prepare o fallbackLanguage name r).Succeeds answer := by
  simp only [Quiet, mem_diagnostics_iff, hsteps.mem_log_iff]
  constructor
  · intro hquiet name r hr
    obtain ⟨block, hblock, hget⟩ := hsteps.exists_block hr
    refine (quiet_block hsave hblock).1 fun d hd => ?_
    exact hquiet d ⟨name, r, block, hr, hget, hblock, mem_diagnostics_iff.1 hd⟩
  · rintro hsucceeds d ⟨name, r, block, hr, -, hblock, hd⟩
    exact (quiet_block hsave hblock).2 (hsucceeds hr) d (mem_diagnostics_iff.2 hd)

end

theorem not_clean_of_refused {o : Options} {files : List TextFile} {e : Error}
    (hrefused : (o.validate.bind fun _ => o.fallbackTag) = .error e) :
    ¬IsClean o files answer := by
  intro hclean
  obtain ⟨fallbackLanguage, htag, -⟩ := hclean.types
  rw [hclean.options] at hrefused
  cases hrefused.symm.trans htag

theorem quiet_catalogueReports {o : Options} {files : List TextFile} :
    Quiet (diagnostics (catalogueReports o files)) ↔ (Catalogue.ofFiles o files).errors = [] := by
  rw [catalogueReports, diagnostics_reports, quiet_errors]

theorem quiet_summary (generated types files : Nat) : Quiet [summary generated types files] :=
  List.forall_mem_singleton.2 rfl

/-- A run that is not stopped succeeds when it reports no error, and this is when all is right. -/
theorem Run.quiet_iff {schedule : Schedule} {o : Options} {files : List TextFile}
    {result : Except Error Bool} {log : Log} (hrun : Run schedule h o files result log)
    (hsave : ∀ u s, (h.save u s).1 = answer u.fileName)
    (hresult : result ≠ .error .cancelled) :
    (result = .ok true ↔ Quiet log.diagnostics) ∧
      (Quiet log.diagnostics ↔ IsClean o files answer) := by
  cases hrun with
  | refusedOptions hrefused =>
    refine ⟨⟨fun h => ?_, fun h => ?_⟩, ⟨fun h => ?_, fun h => ?_⟩⟩
    · cases h
    · exact absurd h not_quiet_error
    · exact absurd h not_quiet_error
    · exact absurd h (not_clean_of_refused hrefused)
  | notStarted => exact absurd rfl hresult
  | stopped _ _ _ => exact absurd rfl hresult
  | @finished fallbackLanguage steps log last hvalid htag hsteps hlog hlast =>
    have hquiet : Quiet (diagnostics (log ++ [.diagnostic last])) ↔ Quiet log.diagnostics := by
      rw [diagnostics_append, quiet_append, and_iff_left]
      exact hlast ▸ quiet_summary _ _ _
    rw [hquiet]
    constructor
    · rw [quiet_iff_any]
      simp
    · rw [hlog, diagnostics_append, quiet_append, quiet_catalogueReports,
        hsteps.quiet_iff hsave schedule]
      simp only [succeeds_prepare]
      constructor
      · exact fun ⟨hcatalogue, htypes⟩ => ⟨hvalid, hcatalogue, fallbackLanguage, htag, htypes⟩
      · intro hclean
        obtain ⟨tag, htag', htypes⟩ := hclean.types
        cases htag.symm.trans htag'
        exact ⟨hclean.catalogue, htypes⟩

theorem saved_of_succeeds (hsave : ∀ u s, (h.save u s).1 = answer u.fileName) {q : Prepared}
    {block : Log} (hblock : Block h q block) (hq : q.Succeeds answer) :
    ∃ u, q.unit = .ok u ∧ .unit u (.ok ()) ∈ block := by
  obtain ⟨-, u, hu, hok⟩ := hq
  refine ⟨u, hu, ?_⟩
  cases hblock with
  | skipped hunit => cases hunit.symm.trans hu
  | saved hunit _ =>
    cases hunit.symm.trans hu
    exact List.mem_cons_self
  | refused hunit hanswer =>
    cases hunit.symm.trans hu
    rw [hsave, hok] at hanswer
    cases hanswer

theorem Run.unit_taken {schedule : Schedule} {o : Options} {files : List TextFile} {log : Log}
    (hrun : Run schedule h o files (.ok true) log)
    (hsave : ∀ u s, (h.save u s).1 = answer u.fileName) (hclean : IsClean o files answer)
    {name : String} {r : Resource} (hr : (Catalogue.ofFiles o files).types.get? name = some r) :
    ∃ fallback m, Merges r fallback m ∧ SourceUnit.ofMerged m r o ∈ log.units := by
  obtain ⟨fallbackLanguage, htag, htypes⟩ := hclean.types
  generalize hresult : Except.ok true = result at hrun
  cases hrun with
  | refusedOptions hrefused => exact absurd hclean (not_clean_of_refused hrefused)
  | notStarted => cases hresult
  | stopped _ _ _ => cases hresult
  | finished _ htag' hsteps hlog _ =>
    cases htag.symm.trans htag'
    obtain ⟨block, hblock, hget⟩ := hsteps.exists_block hr
    obtain ⟨u, hu, hsaved⟩ := saved_of_succeeds hsave hblock (succeeds_prepare.2 (htypes hr))
    have hmem := (hsteps.mem_log_iff schedule).2
      ⟨name, r, block, hr, hget, hblock, hsaved⟩
    have hprepared := preparation_prepare o fallbackLanguage name r
    generalize prepare o fallbackLanguage name r = q at hprepared hu
    cases hprepared with
    | missing _ => cases hu
    | merged _ hm _ =>
      cases hu
      refine ⟨_, _, hm, mem_units_iff.2 (List.mem_append_left _ ?_)⟩
      rw [hlog]
      exact List.mem_append_right _ hmem

end Compile

def Table.Holds (t : Table) (language key value : String) : Prop :=
  ∃ (i j : Nat) (row : List String), t.languages[i]? = some language ∧ t.keys[j]? = some key ∧
    t.values[i]? = some row ∧ row[j]? = some value

/-- Nothing that stands in the text is missing in the row of the language: no pair that the parser
sees, no item that the text shows, and no entry that it spells. -/
structure Table.Keeps (t : Table) (language : String) (format : Format) (text : String) : Prop where
  pairs : ∀ pair ∈ format.pairs text, ∃ key value, pair = (some key, some value) ∧
    t.Holds language key value
  shows : ∃ items, format.Shows text items
  items : ∀ items, format.Shows text items → format.pairs text = items.map Item.pair
  entries : ∀ entries, (∀ e ∈ entries, Text.isBlankText e.key = false) →
    format.Spells entries text → ∀ e ∈ entries, t.Holds language e.key e.value

theorem Merges.holds {r : Resource} {fallback : Contents} {m : Merged} (h : Merges r fallback m)
    {language : String} {c : Contents} (hc : r.Parses language c) {e : Entry} (he : e ∈ c.entries) :
    (Table.ofMerged m r).Holds language e.key e.value := by
  obtain ⟨i, hi⟩ := List.getElem?_of_mem ((h.describes.mem_languages language).2 ⟨c, hc⟩)
  obtain ⟨j, hj⟩ := List.getElem?_of_mem (h.mem_keys hc e he)
  obtain ⟨own, hown, hrow⟩ := h.row_of_language hi
  obtain rfl := hown.unique hc
  have htext : Table.text own fallback e.key = e.value := by
    rw [← Merged.cell_entries h.parses.nodup_keys hc.nodup_keys]
    exact Merged.cell_of_mem hc.nodup_keys he
  refine ⟨i, j, _, hi, hj, hrow, ?_⟩
  rw [List.getElem?_map, hj, Option.map_some, htext]

theorem Merges.keeps {r : Resource} {fallback : Contents} {m : Merged} (h : Merges r fallback m)
    {language : String} {c : Contents} (hc : r.Parses language c) {format : Format} {path : Path}
    {text : String} (hparse : format.parse path text = .ok c) (hclean : c.errors = []) :
    (Table.ofMerged m r).Keeps language format text := by
  have hpairs : ∀ pair ∈ format.pairs text, ∃ key value, pair = (some key, some value) ∧
      (Table.ofMerged m r).Holds language key value := by
    intro pair hpair
    obtain ⟨key, value, hpair, hentry⟩ := Format.mem_entries_of_clean hparse hclean hpair
    exact ⟨key, value, hpair, h.holds hc hentry⟩
  constructor
  case pairs => exact hpairs
  case shows => exact Format.exists_items hparse
  case items => exact fun items hitems => Format.pairs_of_shows hitems
  case entries =>
    intro entries hblank hentries e he
    obtain ⟨_, _, ⟨⟩, hholds⟩ := hpairs (some e.key, some e.value)
      (Format.pairs_of_spells hblank hentries ▸ List.mem_map.2 ⟨e, he, rfl⟩)
    exact hholds

open Compile in
/-- A run that is not stopped succeeds when it reports no error, which is when nothing is wrong, and
then no text is lost: whatever a file shows or spells is in the table of its type. -/
theorem success_iff (schedule : Schedule) {σ : Type u} (h : Host σ)
    (answer : String → Except Error Unit) (hsave : ∀ u s, (h.save u s).1 = answer u.fileName)
    (o : Options) (files : List TextFile) (s : σ)
    (hresult : (compileUnder schedule h.logged o files (s, [])).1 ≠ .error .cancelled) :
    ((compileUnder schedule h.logged o files (s, [])).1 = .ok true ↔
        Quiet (compileUnder schedule h.logged o files (s, [])).2.2.diagnostics) ∧
      ((compileUnder schedule h.logged o files (s, [])).1 = .ok true ↔ IsClean o files answer) ∧
      ((compileUnder schedule h.logged o files (s, [])).1 = .ok true →
        ∀ f ∈ files, ∃ p r u t text, Placement.find o f = .ok p ∧
          (Catalogue.ofFiles o files).types.get? p.fullName = some r ∧
          u ∈ (compileUnder schedule h.logged o files (s, [])).2.2.units ∧
          u.typeName = p.fullName ∧ u.Writes r o t ∧ f.decode = .ok text ∧
          t.Keeps p.language f.format text) := by
  have hrun := run_compile schedule h o files s
  obtain ⟨hquiet, hclean⟩ := hrun.quiet_iff hsave hresult
  refine ⟨hquiet, hquiet.trans hclean, ?_⟩
  intro hok f hf
  have hclean := hclean.1 (hquiet.1 hok)
  rw [hok] at hrun
  have hsound := Catalogue.sound_ofFiles o files
  obtain ⟨p, r, hfind, hr, hfile⟩ := Catalogue.complete_ofFiles o files hclean.catalogue f hf
  obtain ⟨fallback, m, hm, hunit⟩ := hrun.unit_taken hsave hclean hr
  obtain ⟨_, -, htypes⟩ := hclean.types
  obtain ⟨c, hc, hcontents⟩ := (htypes hr).parses hfile
  obtain ⟨text, htext, hparse⟩ := TextFile.parse_eq_ok hc
  refine ⟨p, r, _, _, text, hfind, hr, hunit, (Catalogue.fits_of_mem hsound hr).1,
    hm.writes hsound hr, htext, ?_⟩
  exact hm.keeps ⟨f, hfile, hc⟩ hparse hcontents

open Compile in
theorem success_iff_sample :
    let run := compile Host.accepting.logged .sample [.sample "Greeting.en.csv"] ((), [])
    run.1 = .ok true ∧ Quiet run.2.2.diagnostics ∧
      IsClean .sample [.sample "Greeting.en.csv"] (fun _ => .ok ()) ∧ ∃ p u r t text,
        Placement.find .sample (.sample "Greeting.en.csv") = .ok p ∧ u ∈ run.2.2.units ∧
          u.Writes r .sample t ∧ (TextFile.sample "Greeting.en.csv").decode = .ok text ∧
          t.Keeps p.language .csv text := by
  intro run
  have hok : run.1 = .ok true := by decide +kernel
  have hresult : run.1 ≠ .error .cancelled := by
    rw [hok]
    nofun
  obtain ⟨hquiet, hclean, hkept⟩ := success_iff .inOrder Host.accepting (fun _ => .ok ())
    (fun _ _ => rfl) .sample [.sample "Greeting.en.csv"] () hresult
  obtain ⟨p, r, u, t, text, hfind, -, hu, -, hwrites, htext, hpairs⟩ :=
    hkept hok _ List.mem_cons_self
  exact ⟨hok, hquiet.1 hok, hclean.1 hok, p, u, r, t, text, hfind, hu, hwrites, htext, hpairs⟩

end Phrasebook
