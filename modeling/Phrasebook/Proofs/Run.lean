import Mathlib.Data.List.Forall2
import Phrasebook.Compile.Log
import Phrasebook.Proofs.Dict
import Phrasebook.Proofs.Weave

/-!
What a compilation hands to its host. The steps of a type leave one block in the log, and a run
leaves the diagnostics of the catalogue, the steps of the types as its schedule weaves them, and a
summary. The counters that a run carries along are functions of its log.
-/

universe u

namespace Phrasebook

namespace Log

@[simp] theorem diagnostics_append (l₁ l₂ : Log) :
    diagnostics (l₁ ++ l₂) = diagnostics l₁ ++ diagnostics l₂ := List.filterMap_append

@[simp] theorem units_append (l₁ l₂ : Log) : units (l₁ ++ l₂) = units l₁ ++ units l₂ :=
  List.filterMap_append

def reports (ds : List Diagnostic) : Log := ds.map .diagnostic

@[simp] theorem diagnostics_reports (ds : List Diagnostic) : diagnostics (reports ds) = ds := by
  induction ds with
  | nil => rfl
  | cons d ds ih => exact congrArg (d :: ·) ih

@[simp] theorem units_reports (ds : List Diagnostic) : units (reports ds) = [] := by
  induction ds with
  | nil => rfl
  | cons d ds ih => exact ih

theorem unit_not_mem_reports {ds : List Diagnostic} {u : SourceUnit} {a : Except Error Unit} :
    Delivery.unit u a ∉ reports ds := by
  intro h
  obtain ⟨d, -, hd⟩ := List.mem_map.1 h
  cases hd

theorem diagnostic_mem_reports {ds : List Diagnostic} {d : Diagnostic} :
    Delivery.diagnostic d ∈ reports ds ↔ d ∈ ds := by
  constructor
  · intro h
    obtain ⟨_, hd, ⟨⟩⟩ := List.mem_map.1 h
    exact hd
  · exact List.mem_map_of_mem

theorem mem_diagnostics_iff {l : Log} {d : Diagnostic} :
    d ∈ l.diagnostics ↔ .diagnostic d ∈ l := by
  rw [diagnostics, List.mem_filterMap]
  constructor
  · rintro ⟨delivery, hmem, hd⟩
    cases delivery with
    | diagnostic _ =>
      cases hd
      exact hmem
    | unit _ _ => cases hd
  · exact fun h => ⟨_, h, rfl⟩

theorem mem_units_iff {l : Log} {u : SourceUnit} : u ∈ l.units ↔ .unit u (.ok ()) ∈ l := by
  rw [units, List.mem_filterMap]
  constructor
  · rintro ⟨delivery, hmem, hu⟩
    cases delivery with
    | diagnostic d => cases hu
    | unit v answer =>
      cases answer with
      | error e => cases hu
      | ok _ =>
        cases hu
        exact hmem
  · exact fun h => ⟨_, h, rfl⟩

end Log

namespace Compile

open Log

variable {σ : Type u} {h : Host σ}

/-! One task. -/

namespace Task

/-- The steps of a task to its end, each with what it hands over. -/
inductive Steps (h : Host σ) : Task → List (Option Delivery) → Prop
  | done : Steps h done []
  | start {t : Task} {l : List (Option Delivery)} : Steps h t l → Steps h (start t) (none :: l)
  | ask {t : Task} {l : List (Option Delivery)} : Steps h t l → Steps h (ask t) (none :: l)
  | save {u : SourceUnit} {next : Except Error Unit → Task} {l : List (Option Delivery)} (s : σ) :
      Steps h (next (h.save u s).1) l →
        Steps h (save u next) (some (.unit u (h.save u s).1) :: l)
  | report {d : Diagnostic} {t : Task} {l : List (Option Delivery)} :
      Steps h t l → Steps h (report d t) (some (.diagnostic d) :: l)

/-- The same, but some of the steps may be missing at the end. -/
def Follows (h : Host σ) (cut : Bool) (t : Task) (l : List (Option Delivery)) : Prop :=
  ∃ full, Steps h t full ∧ l <+: full ∧ (cut = false → l = full)

theorem follows_false_iff {t : Task} {l : List (Option Delivery)} :
    Follows h false t l ↔ Steps h t l := by
  constructor
  · rintro ⟨full, hfull, -, heq⟩
    exact heq rfl ▸ hfull
  · exact fun hl => ⟨l, hl, List.prefix_rfl, fun _ => rfl⟩

theorem exists_steps (h : Host σ) (s : σ) (t : Task) : ∃ l, Steps h t l := by
  induction t with
  | done => exact ⟨_, .done⟩
  | start t ih => exact ih.imp' _ fun _ => .start
  | ask t ih => exact ih.imp' _ fun _ => .ask
  | save u next ih => exact (ih (h.save u s).1).imp' _ fun _ => .save s
  | report d t ih => exact ih.imp' _ fun _ => .report

theorem Follows.cons {cut : Bool} {t t' : Task} {a : Option Delivery} {l : List (Option Delivery)}
    (hstep : ∀ full, Steps h t full → Steps h t' (a :: full)) (hl : Follows h cut t l) :
    Follows h cut t' (a :: l) := by
  obtain ⟨full, hfull, hprefix, heq⟩ := hl
  exact ⟨a :: full, hstep full hfull, List.cons_prefix_cons.2 ⟨rfl, hprefix⟩,
    fun hcut => congrArg (a :: ·) (heq hcut)⟩

theorem Follows.eq_nil {cut : Bool} {l : List (Option Delivery)} (hl : Follows h cut done l) :
    l = [] := by
  obtain ⟨_, hfull, hprefix, -⟩ := hl
  cases hfull
  exact List.prefix_nil.1 hprefix

theorem Follows.stopped (s : σ) {cut : Bool} (hcut : cut = true) {t t' : Task}
    (hstep : ∀ full, Steps h t full → Steps h t' (none :: full)) : Follows h cut t' [none] := by
  obtain ⟨full, hfull⟩ := exists_steps h s t
  refine ⟨_, hstep full hfull, List.cons_prefix_cons.2 ⟨rfl, List.nil_prefix⟩, ?_⟩
  rw [hcut]
  nofun

theorem log_offer (u : SourceUnit) (p : Progress (σ × Log)) :
    (offer h.logged u p).1 = (h.save u p.host.1).1 ∧
      (offer h.logged u p).2.host.2 = p.host.2 ++ [.unit u (h.save u p.host.1).1] := by
  rw [offer, Host.logged]
  cases hsave : (h.save u p.host.1).1 with
  | ok _ => simp [hsave]
  | error e => simp [hsave]

theorem follows_step {cut : Bool} {t : Task} {p : Progress (σ × Log)}
    (hcut : (t.step h.logged p).2.stopped = true → cut = true) {l : List (Option Delivery)}
    (hl : Follows h cut (t.step h.logged p).1 l) : ∃ l', Follows h cut t l' ∧ l'.drop 1 = l ∧
      (t.step h.logged p).2.host.2 = p.host.2 ++ (l'.take 1).reduceOption := by
  have hsilent : p.host.2 = p.host.2 ++ [none].reduceOption := (List.append_nil _).symm
  cases t with
  | done =>
    obtain rfl := hl.eq_nil
    exact ⟨[], hl, rfl, (List.append_nil _).symm⟩
  | start t =>
    by_cases hstop : (p.stopped || h.logged.isCancelled p.host) = true
    · rw [step, if_pos hstop] at hcut hl ⊢
      obtain rfl := hl.eq_nil
      exact ⟨[none], .stopped p.host.1 (hcut rfl) fun _ => .start, rfl, hsilent⟩
    · rw [step, if_neg hstop] at hl ⊢
      exact ⟨none :: l, hl.cons fun _ => .start, rfl, hsilent⟩
  | ask t =>
    by_cases hstop : h.logged.isCancelled p.host = true
    · rw [step, if_pos hstop] at hcut hl ⊢
      obtain rfl := hl.eq_nil
      exact ⟨[none], .stopped p.host.1 (hcut rfl) fun _ => .ask, rfl, hsilent⟩
    · rw [step, if_neg hstop] at hl ⊢
      exact ⟨none :: l, hl.cons fun _ => .ask, rfl, hsilent⟩
  | save u next =>
    obtain ⟨hanswer, hlog⟩ := log_offer (h := h) u p
    rw [step, hanswer] at hl
    exact ⟨_, hl.cons fun _ => .save p.host.1, rfl, hlog⟩
  | report d t => exact ⟨_, hl.cons fun _ => .report, rfl, rfl⟩

@[elab_as_elim]
theorem step_induction {motive : Task → Progress σ → Prop} (hdone : ∀ p, motive done p)
    (hstep : ∀ t p, motive (t.step h p).1 (t.step h p).2 → motive t p) (t : Task)
    (p : Progress σ) : motive t p := by
  induction t generalizing p with
  | done => exact hdone p
  | start t ih =>
    apply hstep
    rw [step]
    split
    · exact hdone _
    · exact ih p
  | ask t ih =>
    apply hstep
    rw [step]
    split
    · exact hdone _
    · exact ih p
  | save u next ih => exact hstep _ p (ih _ _)
  | report d t ih => exact hstep _ p (ih _)

end Task

/-! All tasks. -/

section

variable {P : Progress σ → Prop} (hstop : ∀ p, P p → P p.stop)
  (hdeliver : ∀ d p, P p → P (deliver h [d] p)) (hoffer : ∀ u p, P p → P (offer h u p).2)

include hstop hdeliver hoffer

theorem Task.step_preserves (t : Task) {p : Progress σ} (hp : P p) : P (t.step h p).2 := by
  cases t with
  | done => exact hp
  | start t =>
    rw [step]
    split
    · exact hstop p hp
    · exact hp
  | ask t =>
    rw [step]
    split
    · exact hstop p hp
    · exact hp
  | save u next => exact hoffer u p hp
  | report d t => exact hdeliver d p hp

theorem Task.complete_preserves (t : Task) {p : Progress σ} (hp : P p) : P (t.complete h p) := by
  induction t, p using step_induction (h := h) with
  | hdone p => exact hp
  | hstep t p ih =>
    rw [← complete_step]
    exact ih (t.step_preserves hstop hdeliver hoffer hp)

theorem turn_preserves (name : String) (ts : List (String × Task)) {p : Progress σ} (hp : P p) :
    P (turn h name ts p).2 := by
  induction ts with
  | nil => exact hp
  | cons x ts ih =>
    rw [turn]
    split
    · exact x.2.step_preserves hstop hdeliver hoffer hp
    · exact ih

/-- Work keeps what its steps keep. -/
theorem work_preserves (schedule : Schedule) (ts : List (String × Task)) {p : Progress σ}
    (hp : P p) : P (work h schedule ts p) := by
  induction schedule generalizing ts p with
  | nil =>
    rw [work]
    induction ts generalizing p with
    | nil => exact hp
    | cons x ts ih => exact ih (x.2.complete_preserves hstop hdeliver hoffer hp)
  | cons name names ih => exact ih _ (turn_preserves hstop hdeliver hoffer name ts hp)

end

theorem stopped_offer (u : SourceUnit) (p : Progress σ) : (offer h u p).2.stopped = p.stopped := by
  rw [offer]
  split <;> rfl

theorem stopped_complete (t : Task) {p : Progress σ} (hp : p.stopped = true) :
    (t.complete h p).stopped = true :=
  t.complete_preserves (P := fun p => p.stopped = true) (fun _ _ => rfl) (fun _ _ hp => hp)
    (fun u p hp => (stopped_offer u p).trans hp) hp

theorem stopped_work (schedule : Schedule) (ts : List (String × Task)) {p : Progress σ}
    (hp : p.stopped = true) : (work h schedule ts p).stopped = true :=
  work_preserves (P := fun p => p.stopped = true) (fun _ _ => rfl) (fun _ _ hp => hp)
    (fun u p hp => (stopped_offer u p).trans hp) schedule ts hp

theorem Task.follows_complete {cut : Bool} {t : Task} {p : Progress (σ × Log)}
    (hcut : (t.complete h.logged p).stopped = true → cut = true) : ∃ l, Follows h cut t l ∧
      (t.complete h.logged p).host.2 = p.host.2 ++ l.reduceOption := by
  induction t, p using step_induction (h := h.logged) with
  | hdone p => exact ⟨[], ⟨[], .done, List.prefix_rfl, fun _ => rfl⟩, (List.append_nil _).symm⟩
  | hstep t p ih =>
    rw [← complete_step] at hcut ⊢
    obtain ⟨_, hrest, hlog⟩ := ih hcut
    obtain ⟨l, hl, rfl, hfirst⟩ :=
      follows_step (fun hp => hcut (stopped_complete _ hp)) hrest
    refine ⟨l, hl, ?_⟩
    rw [hlog, hfirst, List.append_assoc, ← List.reduceOption_append, List.take_append_drop]

def Steers (h : Host σ) (cut : Bool) (x : String × Task) (l : String × List (Option Delivery)) :
    Prop :=
  x.1 = l.1 ∧ x.2.Follows h cut l.2

theorem names_of_steers {cut : Bool} {ts : List (String × Task)}
    {ls : List (String × List (Option Delivery))} (hls : List.Forall₂ (Steers h cut) ts ls) :
    ls.map (·.1) = ts.map (·.1) := by
  induction hls with
  | nil => rfl
  | cons hl _ ih => exact congr (congrArg List.cons hl.1.symm) ih

theorem names_turn (h : Host σ) (name : String) (ts : List (String × Task)) (p : Progress σ) :
    (turn h name ts p).1.map (·.1) = ts.map (·.1) := by
  induction ts with
  | nil => rfl
  | cons x ts ih =>
    rw [turn]
    split
    · rfl
    · exact congrArg (x.1 :: ·) ih

theorem steers_turn {cut : Bool} {name : String} {ts : List (String × Task)}
    (hnodup : (ts.map (·.1)).Nodup) {p : Progress (σ × Log)}
    (hcut : (turn h.logged name ts p).2.stopped = true → cut = true)
    {ls : List (String × List (Option Delivery))}
    (hls : List.Forall₂ (Steers h cut) (turn h.logged name ts p).1 ls) :
    ∃ ls', List.Forall₂ (Steers h cut) ts ls' ∧ ls'.map (hidden name) = ls ∧
      (turn h.logged name ts p).2.host.2 =
        p.host.2 ++ ls'.flatMap fun l => (shown name l).2.reduceOption := by
  induction ts generalizing ls with
  | nil =>
    cases hls
    exact ⟨[], .nil, rfl, (List.append_nil _).symm⟩
  | cons x ts ih =>
    obtain ⟨hnew, hnodup⟩ := List.nodup_cons.1 hnodup
    by_cases hname : x.1 = name
    · rw [turn, if_pos hname] at hcut hls ⊢
      obtain ⟨l, rest, ⟨hl, hfollows⟩, hrest, rfl⟩ := List.forall₂_cons_left_iff.1 hls
      obtain ⟨l', hl', hdrop, hlog⟩ := Task.follows_step hcut hfollows
      have hother : ∀ l ∈ rest, l.1 ≠ name := by
        intro other hother heq
        rw [← names_of_steers hrest] at hnew
        exact hnew (List.mem_map.2 ⟨other, hother, heq.trans hname.symm⟩)
      refine ⟨(x.1, l') :: rest, .cons ⟨rfl, hl'⟩ hrest, ?_, ?_⟩
      · rw [List.map_cons, List.map_congr_left fun l hl => hidden_of_ne (hother l hl), List.map_id']
        refine congrArg (· :: rest) (Prod.ext hl ?_)
        rw [← hdrop, hidden, if_pos hname]
      · rw [hlog, List.flatMap_cons, List.flatMap_eq_nil_iff.2, List.append_nil, shown,
          if_pos hname]
        intro l hl
        rw [shown, if_neg (hother l hl)]
        rfl
    · rw [turn, if_neg hname] at hcut hls ⊢
      obtain ⟨l, rest, ⟨hl, hfollows⟩, hrest, rfl⟩ := List.forall₂_cons_left_iff.1 hls
      obtain ⟨rest, hrest', rfl, hlog⟩ := ih hnodup hcut hrest
      have hother : l.1 ≠ name := hl ▸ hname
      refine ⟨l :: rest, .cons ⟨hl, hfollows⟩ hrest', ?_, ?_⟩
      · rw [List.map_cons, hidden_of_ne hother]
      · rw [hlog, List.flatMap_cons, shown, if_neg hother]
        rfl

theorem steers_work (cut : Bool) (schedule : Schedule) {ts : List (String × Task)}
    (hnodup : (ts.map (·.1)).Nodup) {p : Progress (σ × Log)}
    (hcut : (work h.logged schedule ts p).stopped = true → cut = true) :
    ∃ ls, List.Forall₂ (Steers h cut) ts ls ∧ (work h.logged schedule ts p).host.2 =
      p.host.2 ++ (woven schedule ls).map (·.2) := by
  induction schedule generalizing ts p with
  | nil =>
    suffices hfold : ∃ ls, List.Forall₂ (Steers h cut) ts ls ∧ (work h.logged [] ts p).host.2 =
        p.host.2 ++ ls.flatMap (·.2.reduceOption) by
      obtain ⟨ls, hls, hlog⟩ := hfold
      exact ⟨ls, hls, hlog.trans (congrArg _ (map_snd_woven_inOrder ls).symm)⟩
    clear hnodup
    induction ts generalizing p with
    | nil => exact ⟨[], .nil, (List.append_nil _).symm⟩
    | cons x ts ih =>
      have hfirst : (x.2.complete h.logged p).stopped = true → cut = true :=
        fun hp => hcut (stopped_work [] ts hp)
      obtain ⟨l, hl, hlog⟩ := Task.follows_complete hfirst
      obtain ⟨ls, hls, hlogs⟩ := ih hcut
      refine ⟨(x.1, l) :: ls, .cons ⟨rfl, hl⟩ hls, ?_⟩
      rw [List.flatMap_cons, ← List.append_assoc, ← hlog]
      exact hlogs
  | cons name names ih =>
    have hturn : (turn h.logged name ts p).2.stopped = true → cut = true :=
      fun hp => hcut (stopped_work names _ hp)
    obtain ⟨_, hls, hlog⟩ := ih ((names_turn h.logged name ts p).symm ▸ hnodup) hcut
    obtain ⟨ls, hls', rfl, hfirst⟩ := steers_turn hnodup hturn hls
    refine ⟨ls, hls', ?_⟩
    rw [map_snd_woven_cons, ← List.append_assoc, ← hfirst]
    exact hlog

structure Tracks (p : Progress (σ × Log)) : Prop where
  generated : p.generated = p.host.2.units.length
  failed : p.failed = p.host.2.diagnostics.any Diagnostic.isError

theorem log_deliver (ds : List Diagnostic) (p : Progress (σ × Log)) :
    (deliver h.logged ds p).host.2 = p.host.2 ++ reports ds := by
  simp only [deliver]
  generalize p.host = s
  induction ds generalizing s with
  | nil => exact (List.append_nil _).symm
  | cons d ds ih =>
    rw [List.foldl_cons, ih]
    simp [Host.logged, reports]

theorem tracks_deliver {p : Progress (σ × Log)} (hp : Tracks p) (ds : List Diagnostic) :
    Tracks (deliver h.logged ds p) := by
  constructor
  · rw [log_deliver, units_append, units_reports, List.append_nil]
    exact hp.generated
  · rw [log_deliver, diagnostics_append, diagnostics_reports, List.any_append, ← hp.failed]
    rfl

theorem tracks_offer (u : SourceUnit) {p : Progress (σ × Log)} (hp : Tracks p) :
    Tracks (offer h.logged u p).2 := by
  cases hsave : (h.save u p.host.1).1 with
  | error e =>
    constructor
    · simpa [offer, Host.logged, hsave, units, Delivery.savedUnit?, List.filterMap_cons]
        using hp.generated
    · simpa [offer, Host.logged, hsave, diagnostics, Delivery.diagnostic?] using hp.failed
  | ok _ =>
    constructor
    · simpa [offer, Host.logged, hsave, units, Delivery.savedUnit?] using hp.generated
    · simpa [offer, Host.logged, hsave, diagnostics, Delivery.diagnostic?] using hp.failed

theorem tracks_work (schedule : Schedule) (ts : List (String × Task)) {p : Progress (σ × Log)}
    (hp : Tracks p) : Tracks (work h.logged schedule ts p) :=
  work_preserves (P := Tracks) (fun _ hp => ⟨hp.generated, hp.failed⟩)
    (fun d _ hp => tracks_deliver hp [d]) (fun u _ hp => tracks_offer u hp) schedule ts hp

/-! The task of a type. -/

/-- The part of the log that belongs to one type. -/
inductive Block (h : Host σ) (q : Prepared) : Log → Prop
  | skipped {e : Error} : q.unit = .error e → Block h q (reports (q.diagnostics ++ [e.diagnostic]))
  | saved {u : SourceUnit} {s : σ} : q.unit = .ok u → (h.save u s).1 = .ok () →
      Block h q (.unit u (.ok ()) :: reports q.diagnostics)
  | refused {u : SourceUnit} {s : σ} {e : Error} : q.unit = .ok u → (h.save u s).1 = .error e →
      Block h q (.unit u (.error e) :: reports (q.diagnostics ++ [e.diagnostic]))

def Prepared.questions (q : Prepared) : List (Option Delivery) :=
  none :: q.files.map (fun _ => none) ++ if q.unit.isOk then [none] else []

theorem eq_none_of_mem_questions {q : Prepared} {x : Option Delivery} (hx : x ∈ q.questions) :
    x = none := by
  rcases List.mem_append.1 hx with hx | hx
  · rcases List.mem_cons.1 hx with rfl | hx
    · rfl
    · obtain ⟨_, -, rfl⟩ := List.mem_map.1 hx
      rfl
  · split at hx
    · exact List.mem_singleton.1 hx
    · cases hx

theorem mem_steps {q : Prepared} {block : Log} {d : Delivery} :
    some d ∈ q.questions ++ block.map some ↔ d ∈ block := by
  rw [List.mem_append, or_iff_right, List.mem_map]
  · simp
  · intro hd
    cases eq_none_of_mem_questions hd

theorem reduceOption_steps (q : Prepared) (block : Log) :
    (q.questions ++ block.map some).reduceOption = block := by
  have hnone : q.questions.reduceOption = [] :=
    List.filterMap_eq_nil_iff.2 fun _ hx => eq_none_of_mem_questions hx
  rw [List.reduceOption_append, hnone, List.nil_append, List.reduceOption, List.filterMap_map]
  exact List.filterMap_some

theorem steps_reportAll {ds : List Diagnostic} {l : List (Option Delivery)}
    (hl : (Task.reportAll ds).Steps h l) : l = (reports ds).map some := by
  induction ds generalizing l with
  | nil =>
    cases hl
    rfl
  | cons d ds ih =>
    obtain _ | _ | _ | _ | hl := hl
    exact congrArg (_ :: ·) (ih hl)

theorem steps_asks {files : List TextFile} {t : Task} {l : List (Option Delivery)}
    (hl : Task.Steps h (files.foldr (fun _ => .ask) t) l) :
    ∃ rest, t.Steps h rest ∧ l = files.map (fun _ => none) ++ rest := by
  induction files generalizing l with
  | nil => exact ⟨l, hl, rfl⟩
  | cons f files ih =>
    obtain _ | _ | hl := hl
    obtain ⟨rest, hrest, rfl⟩ := ih hl
    exact ⟨rest, hrest, rfl⟩

theorem block_of_steps {q : Prepared} {l : List (Option Delivery)} (hl : q.task.Steps h l) :
    ∃ block, Block h q block ∧ l = q.questions ++ block.map some := by
  rw [Prepared.task] at hl
  obtain _ | hl := hl
  obtain ⟨rest, hrest, rfl⟩ := steps_asks hl
  rw [Prepared.closing] at hrest
  rw [Prepared.questions]
  cases hunit : q.unit with
  | error e =>
    rw [hunit] at hrest
    refine ⟨_, .skipped hunit, ?_⟩
    rw [steps_reportAll hrest]
    simp [Except.isOk, Except.toBool]
  | ok u =>
    rw [hunit] at hrest
    obtain _ | _ | hrest := hrest
    cases hrest with
    | save s hrest =>
      cases hsave : (h.save u s).1 with
      | ok _ =>
        rw [hsave] at hrest
        refine ⟨_, .saved hunit hsave, ?_⟩
        rw [steps_reportAll hrest]
        simp [Except.isOk, Except.toBool]
      | error e =>
        rw [hsave] at hrest
        refine ⟨_, .refused hunit hsave, ?_⟩
        rw [steps_reportAll hrest]
        simp [Except.isOk, Except.toBool]

/-! A run. -/

def tasks (o : Options) (files : List TextFile) (fallbackLanguage : String) :
    List (String × Task) :=
  (Catalogue.ofFiles o files).types.toList.map fun p =>
    (p.1, (prepare o fallbackLanguage p.1 p.2).task)

def catalogueReports (o : Options) (files : List TextFile) : Log :=
  reports ((Catalogue.ofFiles o files).errors.map Error.diagnostic)

def start (h : Host σ) (o : Options) (files : List TextFile) (s : σ) : Progress σ :=
  deliver h ((Catalogue.ofFiles o files).errors.map Error.diagnostic) ⟨s, 0, false, false⟩

def conclude (h : Host σ) (o : Options) (files : List TextFile) (p : Progress σ) :
    Except Error Bool × σ :=
  if p.stopped || h.isCancelled p.host then (.error .cancelled, p.host)
  else (.ok !p.failed,
    h.report (summary p.generated (Catalogue.ofFiles o files).types.size files.length) p.host)

theorem log_start (h : Host σ) (o : Options) (files : List TextFile) (s : σ) :
    (start h.logged o files (s, [])).host.2 = catalogueReports o files := log_deliver _ _

theorem tracks_start (h : Host σ) (o : Options) (files : List TextFile) (s : σ) :
    Tracks (start h.logged o files (s, [])) := tracks_deliver ⟨rfl, rfl⟩ _

theorem names_tasks (o : Options) (files : List TextFile) (fallbackLanguage : String) :
    (tasks o files fallbackLanguage).map (·.1) = (Catalogue.ofFiles o files).types.keys :=
  List.map_map

theorem nodup_tasks (o : Options) (files : List TextFile) (fallbackLanguage : String) :
    ((tasks o files fallbackLanguage).map (·.1)).Nodup :=
  names_tasks o files fallbackLanguage ▸ Dict.nodup_keys _

theorem compile_of_refused (schedule : Schedule) (h : Host σ) {o : Options} (files : List TextFile)
    (s : σ) {e : Error} (hrefused : (o.validate.bind fun _ => o.fallbackTag) = .error e) :
    compileUnder schedule h o files s = (.ok false, h.report e.diagnostic s) := by
  unfold compileUnder
  rw [hrefused]

theorem compile_eq_conclude (schedule : Schedule) (h : Host σ) {o : Options}
    (files : List TextFile) (s : σ) {fallbackLanguage : String}
    (hok : (o.validate.bind fun _ => o.fallbackTag) = .ok fallbackLanguage) :
    compileUnder schedule h o files s = if h.isCancelled s then (.error .cancelled, s)
      else conclude h o files
        (work h schedule (tasks o files fallbackLanguage) (start h o files s)) := by
  unfold compileUnder
  rw [hok]
  dsimp only
  split
  · rfl
  · have hlength : (tasks o files fallbackLanguage).length =
        (Catalogue.ofFiles o files).types.size := List.length_map _
    unfold conclude
    rw [← hlength]
    rfl

/-- What the types of a batch do, each up to its end or to a stop. -/
structure Conducts (h : Host σ) (o : Options) (files : List TextFile) (fallbackLanguage : String)
    (cut : Bool) (steps : Dict (List (Option Delivery))) : Prop where
  keys : steps.keys = (Catalogue.ofFiles o files).types.keys
  follows : ∀ {name r l}, (Catalogue.ofFiles o files).types.get? name = some r →
    steps.get? name = some l → (prepare o fallbackLanguage name r).task.Follows h cut l

theorem conducts_of_steers {o : Options} {files : List TextFile} {fallbackLanguage : String}
    {cut : Bool} {ls : List (String × List (Option Delivery))}
    (hls : List.Forall₂ (Steers h cut) (tasks o files fallbackLanguage) ls) :
    ∃ steps, Conducts h o files fallbackLanguage cut steps ∧ steps.toList = ls := by
  have hnames := (names_of_steers hls).trans (names_tasks o files fallbackLanguage)
  have hfollows := List.forall₂_map_right_iff.2 ((List.forall₂_map_left_iff.1 hls).imp
    fun _ _ (hl : Steers h cut _ _) => hl.2)
  obtain ⟨steps, hkeys, hvalues, hsteps⟩ := Dict.exists_of_forall₂ hfollows
  refine ⟨steps, ⟨hkeys, hsteps⟩, ?_⟩
  rw [List.zip_of_prod (hkeys.trans hnames.symm) hvalues, ← List.zip_of_prod rfl rfl]

inductive Run (schedule : Schedule) (h : Host σ) (o : Options) (files : List TextFile) :
    Except Error Bool → Log → Prop
  | refusedOptions {e : Error} : (o.validate.bind fun _ => o.fallbackTag) = .error e →
      Run schedule h o files (.ok false) [.diagnostic e.diagnostic]
  | notStarted : Run schedule h o files (.error .cancelled) []
  | stopped {fallbackLanguage : String} {steps : Dict (List (Option Delivery))} :
      o.validate = .ok () → o.fallbackTag = .ok fallbackLanguage →
      Conducts h o files fallbackLanguage true steps →
      Run schedule h o files (.error .cancelled)
        (catalogueReports o files ++ (woven schedule steps.toList).map (·.2))
  | finished {fallbackLanguage : String} {steps : Dict (List (Option Delivery))} {log : Log}
      {last : Diagnostic} :
      o.validate = .ok () → o.fallbackTag = .ok fallbackLanguage →
      Conducts h o files fallbackLanguage false steps →
      log = catalogueReports o files ++ (woven schedule steps.toList).map (·.2) →
      last = summary log.units.length (Catalogue.ofFiles o files).types.size files.length →
      Run schedule h o files (.ok !log.diagnostics.any Diagnostic.isError)
        (log ++ [.diagnostic last])

theorem options_ok {o : Options} {fallbackLanguage : String}
    (hok : (o.validate.bind fun _ => o.fallbackTag) = .ok fallbackLanguage) :
    o.validate = .ok () ∧ o.fallbackTag = .ok fallbackLanguage := by
  cases hvalid : o.validate with
  | error e =>
    rw [hvalid] at hok
    cases hok
  | ok _ =>
    rw [hvalid] at hok
    exact ⟨rfl, hok⟩

theorem run_compile (schedule : Schedule) (h : Host σ) (o : Options) (files : List TextFile)
    (s : σ) : Run schedule h o files (compileUnder schedule h.logged o files (s, [])).1
      (compileUnder schedule h.logged o files (s, [])).2.2 := by
  cases hok : o.validate.bind fun _ => o.fallbackTag with
  | error e =>
    rw [compile_of_refused _ _ _ _ hok]
    exact .refusedOptions hok
  | ok fallbackLanguage =>
    obtain ⟨hvalid, htag⟩ := options_ok hok
    have htracks := tracks_work (h := h) schedule (tasks o files fallbackLanguage)
      (tracks_start h o files s)
    have hsteers (cut : Bool) := steers_work (h := h) cut schedule
      (nodup_tasks o files fallbackLanguage) (p := start h.logged o files (s, []))
    rw [log_start] at hsteers
    rw [compile_eq_conclude _ _ _ _ hok]
    generalize work h.logged schedule (tasks o files fallbackLanguage) _ = p at htracks hsteers
    split
    · exact .notStarted
    · by_cases hstop : (p.stopped || h.logged.isCancelled p.host) = true
      · obtain ⟨ls, hls, hlog⟩ := hsteers true fun _ => rfl
        obtain ⟨steps, hsteps, rfl⟩ := conducts_of_steers hls
        rw [conclude, if_pos hstop, hlog]
        exact .stopped hvalid htag hsteps
      · obtain ⟨ls, hls, hlog⟩ := hsteers false fun hp =>
          absurd (Bool.or_eq_true_iff.2 (.inl hp)) hstop
        obtain ⟨steps, hsteps, rfl⟩ := conducts_of_steers hls
        rw [conclude, if_neg hstop, htracks.failed, htracks.generated]
        exact .finished hvalid htag hsteps hlog rfl

theorem unit_of_mem_block {q : Prepared} {block : Log} (h : Block h q block) {u : SourceUnit}
    {answer : Except Error Unit} (hu : .unit u answer ∈ block) : q.unit = .ok u := by
  cases h with
  | skipped _ => exact absurd hu unit_not_mem_reports
  | saved hunit _ =>
    rcases List.mem_cons.1 hu with hu | hu
    · cases hu
      exact hunit
    · exact absurd hu unit_not_mem_reports
  | refused hunit _ =>
    rcases List.mem_cons.1 hu with hu | hu
    · cases hu
      exact hunit
    · exact absurd hu unit_not_mem_reports

namespace Conducts

variable {o : Options} {files : List TextFile} {fallbackLanguage : String} {cut : Bool}
  {steps : Dict (List (Option Delivery))}

theorem exists_type (hsteps : Conducts h o files fallbackLanguage cut steps) {name : String}
    {l : List (Option Delivery)} (hl : steps.get? name = some l) :
    ∃ r, (Catalogue.ofFiles o files).types.get? name = some r ∧
      (prepare o fallbackLanguage name r).task.Follows h cut l := by
  obtain ⟨r, hr⟩ := Dict.mem_keys_iff.1 (hsteps.keys ▸ Dict.mem_keys_iff.2 ⟨l, hl⟩)
  exact ⟨r, hr, hsteps.follows hr hl⟩

theorem mem_log {schedule : Schedule} {d : Delivery} :
    d ∈ (woven schedule steps.toList).map (·.2) ↔
      ∃ name l, steps.get? name = some l ∧ some d ∈ l := by
  constructor
  · intro hd
    obtain ⟨x, hx, rfl⟩ := List.mem_map.1 hd
    obtain ⟨⟨name, l⟩, hl, -, hmem⟩ := mem_woven.1 hx
    exact ⟨name, l, Dict.mem_toList_iff.1 hl, hmem⟩
  · rintro ⟨name, l, hl, hmem⟩
    exact List.mem_map.2
      ⟨(name, d), mem_woven.2 ⟨(name, l), Dict.mem_toList_iff.2 hl, rfl, hmem⟩, rfl⟩

theorem unit_of_mem (hsteps : Conducts h o files fallbackLanguage cut steps) {schedule : Schedule}
    {u : SourceUnit} {answer : Except Error Unit}
    (hu : .unit u answer ∈ (woven schedule steps.toList).map (·.2)) : ∃ name r,
      (Catalogue.ofFiles o files).types.get? name = some r ∧
        (prepare o fallbackLanguage name r).unit = .ok u := by
  obtain ⟨name, l, hl, hmem⟩ := mem_log.1 hu
  obtain ⟨r, hr, full, hfull, hbegins, -⟩ := hsteps.exists_type hl
  obtain ⟨block, hblock, rfl⟩ := block_of_steps hfull
  exact ⟨name, r, hr, unit_of_mem_block hblock (mem_steps.1 (hbegins.subset hmem))⟩

theorem get?_eq_none (hsteps : Conducts h o files fallbackLanguage cut steps) {name : String}
    (hnone : (Catalogue.ofFiles o files).types.get? name = none) : steps.get? name = none := by
  apply Option.eq_none_iff_forall_ne_some.2
  intro l hl
  obtain ⟨r, hr, -⟩ := hsteps.exists_type hl
  cases hnone.symm.trans hr

theorem exists_block (hsteps : Conducts h o files fallbackLanguage false steps) {name : String}
    {r : Resource} (hr : (Catalogue.ofFiles o files).types.get? name = some r) :
    ∃ block, Block h (prepare o fallbackLanguage name r) block ∧
      steps.get? name = some ((prepare o fallbackLanguage name r).questions ++ block.map some) := by
  obtain ⟨l, hl⟩ := Dict.mem_keys_iff.1 (hsteps.keys.symm ▸ Dict.mem_keys_iff.2 ⟨r, hr⟩)
  obtain ⟨block, hblock, rfl⟩ := block_of_steps (Task.follows_false_iff.1 (hsteps.follows hr hl))
  exact ⟨block, hblock, hl⟩

theorem mem_log_iff (hsteps : Conducts h o files fallbackLanguage false steps)
    (schedule : Schedule) {d : Delivery} : d ∈ (woven schedule steps.toList).map (·.2) ↔
      ∃ name r block, (Catalogue.ofFiles o files).types.get? name = some r ∧
        steps.get? name =
          some ((prepare o fallbackLanguage name r).questions ++ block.map some) ∧
        Block h (prepare o fallbackLanguage name r) block ∧ d ∈ block := by
  rw [mem_log]
  constructor
  · rintro ⟨name, l, hl, hmem⟩
    obtain ⟨r, hr, -⟩ := hsteps.exists_type hl
    obtain ⟨block, hblock, hget⟩ := hsteps.exists_block hr
    cases hl.symm.trans hget
    exact ⟨name, r, block, hr, hget, hblock, mem_steps.1 hmem⟩
  · rintro ⟨name, r, block, -, hget, -, hmem⟩
    exact ⟨name, _, hget, mem_steps.2 hmem⟩

end Conducts

theorem Run.unit_of_mem {schedule : Schedule} {o : Options} {files : List TextFile}
    {result : Except Error Bool} {log : Log} (hrun : Run schedule h o files result log)
    {u : SourceUnit} {answer : Except Error Unit} (hu : .unit u answer ∈ log) :
    ∃ fallbackLanguage name r, o.fallbackTag = .ok fallbackLanguage ∧
      (Catalogue.ofFiles o files).types.get? name = some r ∧
        (prepare o fallbackLanguage name r).unit = .ok u := by
  cases hrun with
  | refusedOptions _ =>
    cases List.mem_singleton.1 hu
  | notStarted => cases hu
  | stopped _ htag hsteps =>
    rcases List.mem_append.1 hu with hu | hu
    · exact absurd hu unit_not_mem_reports
    · obtain ⟨name, r, hr, hunit⟩ := hsteps.unit_of_mem hu
      exact ⟨_, name, r, htag, hr, hunit⟩
  | finished _ htag hsteps hlog _ =>
    rcases List.mem_append.1 hu with hu | hu
    · rcases List.mem_append.1 (hlog ▸ hu) with hu | hu
      · exact absurd hu unit_not_mem_reports
      · obtain ⟨name, r, hr, hunit⟩ := hsteps.unit_of_mem hu
        exact ⟨_, name, r, htag, hr, hunit⟩
    · cases List.mem_singleton.1 hu

end Compile

end Phrasebook
