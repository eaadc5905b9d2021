import Phrasebook.Proofs.Filing
import Phrasebook.Proofs.Transcript

universe u v

namespace Phrasebook

def isTypeOf (o : Options) (files : List TextFile) (name : String) : Bool :=
  files.any (Placement.isOf o name)

/-- The files of `b` are in no type that has a file of `a`, and in no namespace that has the name of
a type of `a`. -/
structure Apart (o : Options) (a b : List TextFile) : Prop where
  types : ∀ {name}, isTypeOf o a name = true → isTypeOf o b name = false
  namespaces : ∀ {name r}, (Catalogue.ofFiles o a).types.get? name = some r → ∀ f ∈ b, ∀ p,
    Placement.find o f = .ok p → name ∉ Catalogue.enclosing p.nameSpace

namespace Catalogue

variable {o : Options} {a b : List TextFile} {name : String}

theorem isTypeOf_of_get? {r : Resource} (hr : (ofFiles o a).types.get? name = some r) :
    isTypeOf o a name = true :=
  exists_get?_collect.1 ⟨r, (get?_dropConflicts.1 hr).1⟩

section

variable (hab : Apart o a b) (hvalid : o.validate = .ok ()) (hname : isTypeOf o a name = true)

include hab hvalid hname

theorem get?_collect_append :
    (collect o (a ++ b)).types.get? name = (collect o a).types.get? name := by
  apply get?_collect_congr hvalid
  intro language
  have hnone : b.find? (Placement.isAt o name language) = none := by
    rw [List.find?_eq_none]
    intro f hf hat
    have hof : isTypeOf o b name = true :=
      List.any_eq_true.2 ⟨f, hf, Placement.isOf_of_isAt hat⟩
    cases hof.symm.trans (hab.types hname)
  rw [List.find?_append, hnone, Option.or_none]

theorem user?_append_eq_none_iff : user? (collect o (a ++ b)).types name = none ↔
    user? (collect o a).types name = none := by
  rw [user?_eq_none_iff, user?_eq_none_iff]
  constructor
  · intro h other r hr
    have hother : isTypeOf o a other = true := exists_get?_collect.1 ⟨r, hr⟩
    exact h other r ((get?_collect_append hab hvalid hother).trans hr)
  · intro h other r hr
    have hsound := sound_collect (o := o) (a ++ b)
    obtain ⟨language, f, p, hf, hp, hspace, -⟩ := hsound.named hr
    obtain ⟨hmem, q, hq, hother, -⟩ := hsound.placed hr hf
    rcases List.mem_append.1 hmem with hmem | hmem
    · have hother : isTypeOf o a other = true :=
        List.any_eq_true.2 ⟨f, hmem, Placement.isOf_iff.2 ⟨q, hq, hother⟩⟩
      exact h other r ((get?_collect_append hab hvalid hother).symm.trans hr)
    · obtain ⟨s, hs⟩ := exists_get?_collect.2 hname
      exact hspace ▸ hab.namespaces (get?_dropConflicts.2 ⟨hs, user?_eq_none_iff.2 h⟩) f hmem p hp

theorem get?_ofFiles_append :
    (ofFiles o (a ++ b)).types.get? name = (ofFiles o a).types.get? name := by
  apply Option.ext
  intro r
  change (collect o (a ++ b)).dropConflicts.types.get? name = some r ↔
    (collect o a).dropConflicts.types.get? name = some r
  rw [get?_dropConflicts, get?_dropConflicts, get?_collect_append hab hvalid hname,
    user?_append_eq_none_iff hab hvalid hname]

end

end Catalogue

namespace Compile

open Log

variable {σ : Type u} {τ : Type v} {h : Host σ} {h' : Host τ} {o : Options} {a b : List TextFile}
  {fallbackLanguage : String}

/-- Without the other types, those of the batch do what they do alone. -/
theorem Conducts.filter_append {steps steps' : Dict (List (Option Delivery))} (hab : Apart o a b)
    (hvalid : o.validate = .ok ())
    (hsteps : Conducts h o (a ++ b) fallbackLanguage false steps)
    (hsteps' : Conducts h' o a fallbackLanguage false steps')
    (hsave : ∀ u s t, isTypeOf o a u.typeName = true → (h.save u s).1 = (h'.save u t).1) :
    (steps.filter fun name _ => isTypeOf o a name) = steps' := by
  apply Dict.ext_get?
  intro name
  rw [Dict.get?_filter]
  by_cases hname : isTypeOf o a name = true
  · rw [hsteps.get?_congr hsteps' (Catalogue.get?_ofFiles_append hab hvalid hname)
      fun u s t hu => hsave u s t (hu ▸ hname)]
    cases steps'.get? name with
    | none => rfl
    | some l => exact Option.filter_some_pos hname
  · have hnone : steps'.get? name = none := by
      apply Option.eq_none_iff_forall_ne_some.2
      intro l hl
      obtain ⟨r, hr, -⟩ := hsteps'.exists_type hl
      exact hname (Catalogue.isTypeOf_of_get? hr)
    rw [hnone]
    cases steps.get? name with
    | none => rfl
    | some l => exact Option.filter_some_neg (Bool.eq_false_iff.2 hname)

theorem Run.exists_transcripts_append (hab : Apart o a b) (hvalid : o.validate = .ok ())
    (hsave : ∀ u s t, isTypeOf o a u.typeName = true → (h.save u s).1 = (h'.save u t).1)
    {schedule schedule' : Schedule} {result result' : Except Error Bool} {log log' : Log}
    (hrun : Run schedule h o (a ++ b) result log) (hrun' : Run schedule' h' o a result' log')
    (hresult : result ≠ .error .cancelled) (hresult' : result' ≠ .error .cancelled) :
    ∃ fallbackLanguage blocks blocks' middle middle' last last',
      o.fallbackTag = .ok fallbackLanguage ∧
      Transcript h o (a ++ b) fallbackLanguage blocks middle last log ∧
      Transcript h' o a fallbackLanguage blocks' middle' last' log' ∧
      (blocks.filter fun name _ => isTypeOf o a name) = blocks' ∧
      (middle.filter fun d => isTypeOf o a d.1).Perm middle' ∧
      (schedule = schedule' → (middle.filter fun d => isTypeOf o a d.1) = middle') := by
  obtain ⟨fallbackLanguage, steps, last, htag, hsteps, hlog, hlast⟩ :=
    hrun.exists_steps hvalid hresult
  obtain ⟨_, steps', last', htag', hsteps', hlog', hlast'⟩ := hrun'.exists_steps hvalid hresult'
  cases htag.symm.trans htag'
  obtain rfl := hsteps.filter_append hab hvalid hsteps' hsave
  have hwoven : (woven schedule steps.toList).filter (fun d => isTypeOf o a d.1) =
      woven schedule (steps.filter fun name _ => isTypeOf o a name).toList :=
    filter_woven (isTypeOf o a) schedule steps.toList
  refine ⟨fallbackLanguage, _, _, _, _, last, last', htag, hsteps.transcript hlog hlast,
    hsteps'.transcript hlog' hlast', ?_, ?_, ?_⟩
  · exact Dict.filter_mapValues _ (isTypeOf o a) steps
  · rw [hwoven]
    exact woven_perm_woven schedule schedule' _
  · rintro rfl
    exact hwoven

end Compile

open Compile in
/-- In a run over more files a batch gets the units and the blocks that it gets alone. When the
types take turns in the same way, it gets them in the same order too. -/
theorem compile_append_isolated (schedule schedule' : Schedule) {σ : Type u} {τ : Type v}
    (h : Host σ) (h' : Host τ) (o : Options) (a b : List TextFile) (hab : Apart o a b)
    (answer : SourceUnit → Except Error Unit)
    (hsave : ∀ u s, isTypeOf o a u.typeName = true → (h.save u s).1 = answer u)
    (hsave' : ∀ u s, isTypeOf o a u.typeName = true → (h'.save u s).1 = answer u)
    (s : σ) (t : τ)
    (hresult : (compileUnder schedule h.logged o (a ++ b) (s, [])).1 ≠ .error .cancelled)
    (hresult' : (compileUnder schedule' h'.logged o a (t, [])).1 ≠ .error .cancelled) :
    let run := compileUnder schedule h.logged o (a ++ b) (s, [])
    let run' := compileUnder schedule' h'.logged o a (t, [])
    (run.2.2.attempts.filter fun u => isTypeOf o a u.typeName).Perm run'.2.2.attempts ∧
      (run.2.2.units.filter fun u => isTypeOf o a u.typeName).Perm run'.2.2.units ∧
      (schedule = schedule' →
        run.2.2.attempts.filter (fun u => isTypeOf o a u.typeName) = run'.2.2.attempts ∧
        run.2.2.units.filter (fun u => isTypeOf o a u.typeName) = run'.2.2.units) ∧
      ((∃ e, o.validate = .error e ∧ run.2.2 = [.diagnostic e.diagnostic] ∧
          run'.2.2 = [.diagnostic e.diagnostic]) ∨
        ∃ fallbackLanguage blocks blocks' middle middle' last last',
          Transcript h o (a ++ b) fallbackLanguage blocks middle last run.2.2 ∧
          Transcript h' o a fallbackLanguage blocks' middle' last' run'.2.2 ∧
          (blocks.filter fun name _ => isTypeOf o a name) = blocks' ∧
          (middle.filter fun d => isTypeOf o a d.1).Perm middle' ∧
          (schedule = schedule' → (middle.filter fun d => isTypeOf o a d.1) = middle')) := by
  intro run run'
  have hrun := run_compile schedule h o (a ++ b) s
  have hrun' := run_compile schedule' h' o a t
  cases hvalid : o.validate with
  | error e =>
    obtain ⟨-, hlog⟩ := hrun.of_refused hvalid hresult
    obtain ⟨-, hlog'⟩ := hrun'.of_refused hvalid hresult'
    simp only [run, run', hlog, hlog']
    exact ⟨.refl _, .refl _, fun _ => ⟨rfl, rfl⟩, .inl ⟨e, rfl, rfl, rfl⟩⟩
  | ok _ =>
    obtain ⟨fallbackLanguage, blocks, blocks', middle, middle', last, last', -, htranscript,
      htranscript', hblocks, hperm, hsame⟩ := hrun.exists_transcripts_append hab hvalid
        (fun u s t hu => (hsave u s hu).trans (hsave' u t hu).symm) hrun' hresult hresult'
    have hunits {view : Delivery → Option SourceUnit} (hview : IsUnitView view) :
        ((run.2.2.filterMap view).filter fun u => isTypeOf o a u.typeName) =
          ((middle.filter fun d => isTypeOf o a d.1).map (·.2)).filterMap view :=
      htranscript.filter_filterMap hview (isTypeOf o a)
    have hperms {view : Delivery → Option SourceUnit} (hview : IsUnitView view) :
        ((run.2.2.filterMap view).filter fun u => isTypeOf o a u.typeName).Perm
          (run'.2.2.filterMap view) := by
      rw [hunits hview, htranscript'.filterMap_eq hview]
      exact (hperm.map _).filterMap _
    have hunits_eq (hschedule : schedule = schedule') {view : Delivery → Option SourceUnit}
        (hview : IsUnitView view) :
        ((run.2.2.filterMap view).filter fun u => isTypeOf o a u.typeName) =
          run'.2.2.filterMap view := by
      rw [hunits hview, hsame hschedule, htranscript'.filterMap_eq hview]
    exact ⟨hperms isUnitView_attempt?, hperms isUnitView_savedUnit?,
      fun hschedule => ⟨hunits_eq hschedule isUnitView_attempt?,
        hunits_eq hschedule isUnitView_savedUnit?⟩,
      .inr ⟨fallbackLanguage, blocks, blocks', middle, middle', last, last', htranscript,
        htranscript', hblocks, hperm, hsame⟩⟩

def Host.choosing (typeName : String) : Host Unit where
  isCancelled _ := false
  report _ _ := ()
  save u _ :=
    if u.typeName = typeName then (.ok (), ())
    else (.error (.unwritable (.ofString u.fileName) "disk full"), ())

def TextFile.failingBatch : List TextFile :=
  [.sample "Help.en.csv", .sample "Menu.fr.csv", .sample "notes.csv",
    { TextFile.sample "Broken.en.csv" with content := [0xFF] }]

theorem isTypeOf_greeting {name : String} :
    isTypeOf .sample [.sample "Greeting.en.csv"] name = true ↔ name = "App.Greeting" := by
  have hfind : Placement.find .sample (.sample "Greeting.en.csv") =
      .ok ⟨["App"], "Greeting", "en"⟩ := by decide +kernel
  have hname : Placement.fullName ⟨["App"], "Greeting", "en"⟩ = "App.Greeting" := by
    decide +kernel
  simp only [isTypeOf, List.any_cons, List.any_nil, Bool.or_false, Placement.isOf_iff, hfind]
  constructor
  · rintro ⟨_, ⟨⟩, rfl⟩
    exact hname
  · rintro rfl
    exact ⟨_, rfl, hname⟩

theorem apart_failingBatch : Apart .sample [.sample "Greeting.en.csv"] TextFile.failingBatch where
  types h := by
    rw [isTypeOf_greeting.1 h]
    decide +kernel
  namespaces hr f hf p hp := by
    have hspaces : ∀ f ∈ TextFile.failingBatch, ((Placement.find .sample f).toOption.all
        fun p => decide ("App.Greeting" ∉ Catalogue.enclosing p.nameSpace)) = true := by
      decide +kernel
    have hspace := hspaces f hf
    rw [hp] at hspace
    rw [isTypeOf_greeting.1 (Catalogue.isTypeOf_of_get? hr)]
    exact of_decide_eq_true hspace

open Compile in
theorem compile_append_isolated_sample :
    let files := [TextFile.sample "Greeting.en.csv"]
    let schedule := ["App.Menu", "App.Greeting", "App.Help", "App.Menu"]
    let both := compileUnder schedule (Host.choosing "App.Greeting").logged .sample
      (files ++ TextFile.failingBatch) ((), [])
    let alone := compileUnder schedule Host.accepting.logged .sample files ((), [])
    Apart .sample files TextFile.failingBatch ∧ both.1 ≠ .error .cancelled ∧
      alone.1 ≠ .error .cancelled ∧
      both.2.2.units.filter (fun u => isTypeOf .sample files u.typeName) = alone.2.2.units ∧
      alone.2.2.units.length = 1 := by
  intro files schedule both alone
  have hfailed : both.1 = .ok false := by decide +kernel
  have hdone : alone.1 = .ok true := by decide +kernel
  have hresult : both.1 ≠ .error .cancelled := ne_cancelled_of_ok hfailed
  have hresult' : alone.1 ≠ .error .cancelled := ne_cancelled_of_ok hdone
  have hsave (u : SourceUnit) (s : Unit) (hu : isTypeOf .sample files u.typeName = true) :
      ((Host.choosing "App.Greeting").save u s).1 = .ok () := by
    simp [Host.choosing, isTypeOf_greeting.1 hu]
  obtain ⟨-, -, hsame, -⟩ := compile_append_isolated schedule schedule
    (Host.choosing "App.Greeting") Host.accepting .sample files TextFile.failingBatch
    apart_failingBatch (fun _ => .ok ()) hsave (fun _ _ _ => rfl) () () hresult hresult'
  exact ⟨apart_failingBatch, hresult, hresult', (hsame rfl).2, by decide +kernel⟩

end Phrasebook
