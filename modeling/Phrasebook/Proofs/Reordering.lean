import Phrasebook.Proofs.Filing
import Phrasebook.Proofs.Transcript

universe u v

namespace Phrasebook

/-- The same files, and at each type and language they come in the same order. -/
structure Reordering (o : Options) (a b : List TextFile) : Prop where
  perm : a.Perm b
  kept : ∀ name language,
    a.filter (Placement.isAt o name language) = b.filter (Placement.isAt o name language)

namespace Reordering

variable {o : Options} {a b : List TextFile} (h : Reordering o a b)

include h

theorem find?_isAt (name language : String) :
    a.find? (Placement.isAt o name language) = b.find? (Placement.isAt o name language) := by
  rw [← List.head?_filter, ← List.head?_filter, h.kept]

theorem types_collect (hvalid : o.validate = .ok ()) :
    (Catalogue.collect o a).types = (Catalogue.collect o b).types :=
  Dict.ext_get? fun name => Catalogue.get?_collect_congr hvalid (h.find?_isAt name)

theorem perm_errors_collect :
    (Catalogue.collect o a).errors.Perm (Catalogue.collect o b).errors := by
  rw [List.perm_iff_count]
  intro e
  by_cases he : e ∈ (Catalogue.collect o a).errors ∨ e ∈ (Catalogue.collect o b).errors
  · obtain ⟨path, fault, rfl⟩ | ⟨path, name, language, first, rfl⟩ :=
      he.elim (Catalogue.eq_of_mem_errors_collect a) (Catalogue.eq_of_mem_errors_collect b)
    · rw [Catalogue.count_unrecognized, Catalogue.count_unrecognized, h.perm.countP_eq]
    · rw [Catalogue.count_duplicate, Catalogue.count_duplicate, h.kept]
  · obtain ⟨ha, hb⟩ := not_or.1 he
    rw [List.count_eq_zero_of_not_mem ha, List.count_eq_zero_of_not_mem hb]

theorem types_ofFiles (hvalid : o.validate = .ok ()) :
    (Catalogue.ofFiles o a).types = (Catalogue.ofFiles o b).types := by
  change (Catalogue.collect o a).dropConflicts.types = (Catalogue.collect o b).dropConflicts.types
  simp only [Catalogue.dropConflicts, h.types_collect hvalid]

theorem perm_errors_ofFiles (hvalid : o.validate = .ok ()) :
    (Catalogue.ofFiles o a).errors.Perm (Catalogue.ofFiles o b).errors := by
  change (Catalogue.collect o a).dropConflicts.errors.Perm
    (Catalogue.collect o b).dropConflicts.errors
  simp only [Catalogue.dropConflicts, h.types_collect hvalid]
  exact h.perm_errors_collect.append_right _

end Reordering

def opening (o : Options) (files : List TextFile) : List Diagnostic :=
  match o.validate with
  | .ok _ => (Catalogue.ofFiles o files).errors.map Error.diagnostic
  | .error _ => []

theorem opening_of_valid {o : Options} (hvalid : o.validate = .ok ()) (files : List TextFile) :
    opening o files = (Catalogue.ofFiles o files).errors.map Error.diagnostic := by
  rw [opening, hvalid]

theorem Reordering.perm_opening {o : Options} {a b : List TextFile} (h : Reordering o a b) :
    (opening o a).Perm (opening o b) := by
  cases hvalid : o.validate with
  | error e =>
    rw [opening, opening, hvalid]
  | ok _ =>
    rw [opening_of_valid hvalid, opening_of_valid hvalid]
    exact (h.perm_errors_ofFiles hvalid).map _

namespace Compile

open Log

variable {σ : Type u} {τ : Type v} {h : Host σ} {h' : Host τ} {o : Options} {a b : List TextFile}

theorem Conducts.eq_of_reordering (hab : Reordering o a b) (hvalid : o.validate = .ok ())
    {answer : String → Except Error Unit} (hsave : ∀ u s, (h.save u s).1 = answer u.fileName)
    (hsave' : ∀ u s, (h'.save u s).1 = answer u.fileName) {fallbackLanguage : String}
    {steps steps' : Dict (List (Option Delivery))}
    (hsteps : Conducts h o a fallbackLanguage false steps)
    (hsteps' : Conducts h' o b fallbackLanguage false steps') : steps = steps' :=
  Dict.ext_get? fun _ => hsteps.get?_congr hsteps' (hab.types_ofFiles hvalid ▸ rfl) fun u s t _ =>
    (hsave u s).trans (hsave' u t).symm

theorem Transcript.perm_units {fallbackLanguage : String} {blocks blocks' : Dict Log}
    {middle middle' : List (String × Delivery)} {last last' : Diagnostic} {log log' : Log}
    (htranscript : Transcript h o a fallbackLanguage blocks middle last log)
    (htranscript' : Transcript h' o b fallbackLanguage blocks' middle' last' log')
    (hperm : middle.Perm middle') : log.units.Perm log'.units := by
  rw [Log.units, Log.units, htranscript.filterMap_eq isUnitView_savedUnit?,
    htranscript'.filterMap_eq isUnitView_savedUnit?]
  exact (hperm.map _).filterMap _

/-- Two runs over reordered files have the same blocks and the same summary. -/
theorem Run.exists_transcripts (hab : Reordering o a b) (hvalid : o.validate = .ok ())
    {answer : String → Except Error Unit} (hsave : ∀ u s, (h.save u s).1 = answer u.fileName)
    (hsave' : ∀ u s, (h'.save u s).1 = answer u.fileName) {schedule schedule' : Schedule}
    {result result' : Except Error Bool} {log log' : Log} (hrun : Run schedule h o a result log)
    (hrun' : Run schedule' h' o b result' log') (hresult : result ≠ .error .cancelled)
    (hresult' : result' ≠ .error .cancelled) : ∃ fallbackLanguage blocks middle middle' last,
      o.fallbackTag = .ok fallbackLanguage ∧
      Transcript h o a fallbackLanguage blocks middle last log ∧
      Transcript h' o b fallbackLanguage blocks middle' last log' ∧ middle.Perm middle' ∧
      (schedule = schedule' → middle = middle') ∧
      (schedule = .inOrder → middle.map (·.2) = blocks.values.flatten) := by
  obtain ⟨fallbackLanguage, steps, last, htag, hsteps, hlog, hlast⟩ :=
    hrun.exists_steps hvalid hresult
  obtain ⟨_, steps', last', htag', hsteps', hlog', hlast'⟩ := hrun'.exists_steps hvalid hresult'
  cases htag.symm.trans htag'
  obtain rfl := hsteps.eq_of_reordering hab hvalid hsave hsave' hsteps'
  have htranscript := hsteps.transcript hlog hlast
  have htranscript' := hsteps'.transcript hlog' hlast'
  have hperm := woven_perm_woven schedule schedule' steps.toList
  have hunits := (htranscript.perm_units htranscript' hperm).length_eq
  rw [hab.types_ofFiles hvalid, hunits, hab.perm.length_eq, ← hlast'] at hlast
  subst hlast
  refine ⟨fallbackLanguage, blocksOf steps, woven schedule steps.toList,
    woven schedule' steps.toList, last, htag, htranscript, htranscript', hperm, ?_, ?_⟩
  · rintro rfl
    rfl
  · rintro rfl
    exact woven_inOrder_eq_flatten steps

end Compile

theorem Placement.find_mixedBatch :
    find .sample (.sample "Menu.fr.csv") = .ok ⟨["App"], "Menu", "fr"⟩ ∧
      find .sample (.sample "notes.csv") = .error .noLanguage ∧
      find .sample (.sample "Greeting.en.csv") = .ok ⟨["App"], "Greeting", "en"⟩ ∧
      find .sample (.sample "Greeting.EN.csv") = .ok ⟨["App"], "Greeting", "en"⟩ := by
  decide +kernel

theorem Placement.fullName_mixedBatch :
    Placement.fullName ⟨["App"], "Menu", "fr"⟩ = "App.Menu" ∧
      Placement.fullName ⟨["App"], "Greeting", "en"⟩ = "App.Greeting" := by
  decide +kernel

def TextFile.mixedBatch' : List TextFile :=
  [.sample "Greeting.en.csv", .sample "Menu.fr.csv", .sample "Greeting.EN.csv",
    .sample "notes.csv"]

theorem reordering_mixedBatch : Reordering .sample TextFile.mixedBatch TextFile.mixedBatch' where
  perm := by decide +kernel
  kept name language := by
    obtain ⟨hmenu, hnotes, hfirst, hsecond⟩ := Placement.find_mixedBatch
    obtain ⟨hmenuName, hgreetingName⟩ := Placement.fullName_mixedBatch
    simp only [TextFile.mixedBatch, TextFile.mixedBatch', List.filter_cons, List.filter_nil,
      Placement.isAt_of_ok hmenu, Placement.isAt_of_ok hfirst, Placement.isAt_of_ok hsecond,
      Placement.isAt_of_error hnotes, hmenuName, hgreetingName]
    by_cases hat : "App.Menu" = name ∧ "fr" = language
    · obtain ⟨rfl, rfl⟩ := hat
      simp
    · simp [hat]

end Phrasebook
