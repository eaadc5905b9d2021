import Mathlib.Data.List.Infix
import Phrasebook.Proofs.Transcript

/-!
Runs that are stopped. Whenever the host asks for it, what was handed to it is the beginning of what
an unstoppable host gets, cut between the blocks of two types. So a unit that was taken has all
diagnostics of its type with it, and only a run that has closed with its last diagnostic tells the
result.
-/

universe u

namespace Phrasebook

theorem Error.code_ne_information (e : Error) : e.diagnostic.code ≠ .information := by
  cases e <;> nofun

namespace Compile

open Log

variable {σ : Type u} {h : Host σ} {o : Options} {files : List TextFile} {fallbackLanguage : String}

def settle (h : Host σ) (q : Prepared) (p : Progress σ) : Progress σ :=
  match q.unit with
  | .error e => deliver h (q.diagnostics ++ [e.diagnostic]) p
  | .ok u => deliver h (q.diagnostics ++ (refusal (offer h u p).1).map Error.diagnostic)
      (offer h u p).2

theorem complete_reportAll (ds : List Diagnostic) (p : Progress σ) :
    (Task.reportAll ds).complete h p = deliver h ds p := by
  induction ds generalizing p with
  | nil => simp [Task.reportAll, Task.complete, deliver]
  | cons d ds ih =>
    change (Task.reportAll ds).complete h (deliver h [d] p) = _
    rw [ih]
    simp [deliver, Bool.or_assoc]

theorem complete_asks {p : Progress σ} (hgo : ¬h.isCancelled p.host = true) (files : List TextFile)
    (t : Task) : Task.complete h (files.foldr (fun _ => .ask) t) p = t.complete h p := by
  induction files with
  | nil => rfl
  | cons f files ih => exact (if_neg hgo).trans ih

theorem complete_task (h : Host σ) (q : Prepared) (p : Progress σ) :
    q.task.complete h p = if p.stopped || h.isCancelled p.host then p.stop else settle h q p := by
  rw [Prepared.task, Task.complete]
  split
  · rfl
  · next hgo =>
    have hhost : ¬h.isCancelled p.host = true := fun hc => hgo (Bool.or_eq_true_iff.2 (.inr hc))
    rw [complete_asks hhost, Prepared.closing, settle]
    cases q.unit with
    | error e => exact complete_reportAll _ p
    | ok u =>
      dsimp only
      rw [Task.complete, if_neg hhost, Task.complete]
      cases (offer h u p).1 with
      | ok _ =>
        rw [complete_reportAll, refusal, List.map_nil, List.append_nil]
      | error e => exact complete_reportAll _ _

theorem stopped_settle (h : Host σ) (q : Prepared) (p : Progress σ) :
    (settle h q p).stopped = p.stopped := by
  rw [settle]
  split
  · rfl
  · exact stopped_offer _ p

def settleAll (h : Host σ) (p : Progress σ) (qs : List Prepared) : Progress σ :=
  qs.foldl (fun p q => settle h q p) p

theorem complete_all_of_stopped {p : Progress σ} (hp : p.stopped = true) (qs : List Prepared) :
    qs.foldl (fun p q => q.task.complete h p) p = p := by
  induction qs with
  | nil => rfl
  | cons q qs ih =>
    have hstop : (p.stopped || h.isCancelled p.host) = true := Bool.or_eq_true_iff.2 (.inl hp)
    have hsame : p.stop = p := by rw [Progress.stop, ← hp]
    rw [List.foldl_cons, complete_task, if_pos hstop, hsame]
    exact ih

/-- The types are all settled, or those up to a point where the host asks for a stop. -/
theorem complete_all_cases (h : Host σ) {p : Progress σ} (hp : p.stopped = false)
    (qs : List Prepared) :
    qs.foldl (fun p q => q.task.complete h p) p = settleAll h p qs ∨ ∃ done, done <+: qs ∧
      qs.foldl (fun p q => q.task.complete h p) p = (settleAll h p done).stop ∧
      h.isCancelled (settleAll h p done).host = true := by
  induction qs generalizing p with
  | nil => exact .inl rfl
  | cons q qs ih =>
    rw [List.foldl_cons, complete_task, hp, Bool.false_or]
    by_cases hstop : h.isCancelled p.host = true
    · rw [if_pos hstop, complete_all_of_stopped rfl]
      exact .inr ⟨[], List.nil_prefix, rfl, hstop⟩
    · rw [if_neg hstop]
      rcases ih ((stopped_settle h q p).trans hp) with hall | ⟨done, hdone, hsome, hcancelled⟩
      · exact .inl hall
      · exact .inr ⟨q :: done, List.cons_prefix_cons.2 ⟨rfl, hdone⟩, hsome, hcancelled⟩

theorem block_settle (q : Prepared) (p : Progress (σ × Log)) :
    ∃ block, Block h q block ∧ (settle h.logged q p).host.2 = p.host.2 ++ block := by
  rw [settle]
  cases hunit : q.unit with
  | error e => exact ⟨_, .skipped hunit, log_deliver _ p⟩
  | ok u =>
    obtain ⟨hanswer, hlog⟩ := Task.log_offer (h := h) u p
    dsimp only
    rw [hanswer, log_deliver, hlog]
    cases hsave : (h.save u p.host.1).1 with
    | ok _ =>
      refine ⟨_, .saved hunit hsave, ?_⟩
      rw [refusal, List.map_nil, List.append_nil, List.append_assoc]
      rfl
    | error e =>
      refine ⟨_, .refused hunit hsave, ?_⟩
      rw [refusal, List.append_assoc]
      rfl

theorem log_settleAll (h : Host σ) (p : Progress (σ × Log)) (qs : List Prepared) :
    ∃ blocks, List.Forall₂ (Block h) qs blocks ∧ ∀ done, done <+: qs →
      (settleAll h.logged p done).host.2 = p.host.2 ++ (blocks.take done.length).flatten := by
  induction qs generalizing p with
  | nil =>
    refine ⟨[], .nil, ?_⟩
    intro done hdone
    rw [List.prefix_nil.1 hdone]
    exact (List.append_nil _).symm
  | cons q qs ih =>
    obtain ⟨block, hblock, hlog⟩ := block_settle (h := h) q p
    obtain ⟨blocks, hblocks, hlogs⟩ := ih (settle h.logged q p)
    refine ⟨block :: blocks, .cons hblock hblocks, ?_⟩
    intro done hdone
    cases done with
    | nil => exact (List.append_nil _).symm
    | cons q' done =>
      obtain ⟨rfl, hrest⟩ := List.cons_prefix_cons.1 hdone
      rw [List.length_cons, List.take_succ_cons, List.flatten_cons, ← List.append_assoc, ← hlog]
      exact hlogs done hrest

def prepareAll (o : Options) (files : List TextFile) (fallbackLanguage : String) : List Prepared :=
  (Catalogue.ofFiles o files).types.toList.map fun p => prepare o fallbackLanguage p.1 p.2

theorem work_inOrder_tasks (h : Host σ) (o : Options) (files : List TextFile)
    (fallbackLanguage : String) (p : Progress σ) :
    work h .inOrder (tasks o files fallbackLanguage) p =
      (prepareAll o files fallbackLanguage).foldl (fun p q => q.task.complete h p) p := by
  rw [Schedule.inOrder, work, tasks, prepareAll, List.foldl_map, List.foldl_map]

theorem stopped_settleAll (h : Host σ) (p : Progress σ) (qs : List Prepared) :
    (settleAll h p qs).stopped = p.stopped := by
  induction qs generalizing p with
  | nil => rfl
  | cons q qs ih => exact (ih _).trans (stopped_settle h q p)

def settled (h : Host σ) (o : Options) (files : List TextFile) (fallbackLanguage : String) (s : σ) :
    Progress (σ × Log) :=
  settleAll h.logged (start h.logged o files (s, [])) (prepareAll o files fallbackLanguage)

theorem stopped_settled (h : Host σ) (o : Options) (files : List TextFile)
    (fallbackLanguage : String) (s : σ) :
    (settled h o files fallbackLanguage s).stopped = false := stopped_settleAll ..

theorem work_unstoppable (h : Host σ) (o : Options) (files : List TextFile)
    (fallbackLanguage : String) (s : σ) :
    work h.unstoppable.logged .inOrder (tasks o files fallbackLanguage)
      (start h.logged o files (s, [])) = settled h o files fallbackLanguage s := by
  rw [work_inOrder_tasks]
  rcases complete_all_cases h.unstoppable.logged (p := start h.logged o files (s, [])) rfl
    (prepareAll o files fallbackLanguage) with hall | ⟨done, -, -, hcancelled⟩
  · exact hall
  · cases hcancelled

theorem tracks_settled (h : Host σ) (o : Options) (files : List TextFile)
    (fallbackLanguage : String) (s : σ) : Tracks (settled h o files fallbackLanguage s) :=
  work_unstoppable h o files fallbackLanguage s ▸
    tracks_work (h := h.unstoppable) .inOrder _ (tracks_start h o files s)

theorem exists_blocks (h : Host σ) (o : Options) (files : List TextFile)
    (fallbackLanguage : String) (s : σ) :
    ∃ blocks : Dict Log, blocks.keys = (Catalogue.ofFiles o files).types.keys ∧
      (∀ {name r block}, (Catalogue.ofFiles o files).types.get? name = some r →
        blocks.get? name = some block →
          Account h.unstoppable o fallbackLanguage name r block) ∧
      (settled h o files fallbackLanguage s).host.2 =
        catalogueReports o files ++ blocks.values.flatten ∧
      ∀ done, done <+: prepareAll o files fallbackLanguage → ∃ k,
        (settleAll h.logged (start h.logged o files (s, [])) done).host.2 =
          catalogueReports o files ++ (blocks.values.take k).flatten := by
  obtain ⟨blocks, hblocks, hlogs⟩ := log_settleAll h.unstoppable
    (start h.logged o files (s, [])) (prepareAll o files fallbackLanguage)
  have hall := hlogs _ List.prefix_rfl
  rw [log_start] at hlogs hall
  rw [hblocks.length_eq, List.take_length] at hall
  obtain ⟨blocks, hkeys, rfl, hblock⟩ :=
    Dict.exists_of_forall₂ (List.forall₂_map_left_iff.1 hblocks)
  exact ⟨blocks, hkeys, fun hr hget => account_of_block (hblock hr hget), hall,
    fun done hdone => ⟨_, hlogs done hdone⟩⟩

section

variable (h : Host σ) (files : List TextFile) (s : σ)
  (hok : (o.validate.bind fun _ => o.fallbackTag) = .ok fallbackLanguage)

include hok

theorem compile_unstoppable :
    let p := settled h o files fallbackLanguage s
    compile h.unstoppable.logged o files (s, []) = (.ok !p.failed, h.logged.report
      (summary p.generated (Catalogue.ofFiles o files).types.size files.length) p.host) := by
  intro p
  have hwork : work h.unstoppable.logged .inOrder (tasks o files fallbackLanguage)
      (start h.unstoppable.logged o files (s, [])) = p :=
    work_unstoppable h o files fallbackLanguage s
  have hgo : ¬(p.stopped || h.unstoppable.logged.isCancelled p.host) = true := by
    rw [stopped_settled]
    nofun
  rw [compile, compile_eq_conclude _ _ _ _ hok, hwork, conclude, if_neg hgo]
  rfl

theorem log_unstoppable : ∃ last, (compile h.unstoppable.logged o files (s, [])).2.2 =
      (settled h o files fallbackLanguage s).host.2 ++ [.diagnostic last] ∧
    last.Summarizes [(compile h.unstoppable.logged o files (s, [])).2.2.units.length,
      (Catalogue.ofFiles o files).types.size, files.length] := by
  have hunits (log : Log) (d : Diagnostic) : units (log ++ [.diagnostic d]) = log.units :=
    (units_append ..).trans (List.append_nil _)
  rw [compile_unstoppable h files s hok]
  refine ⟨_, rfl, ?_⟩
  change Diagnostic.Summarizes _ [(units (_ ++ [.diagnostic _])).length, _, _]
  rw [hunits, ← (tracks_settled h o files fallbackLanguage s).generated]
  exact summarizes_summary _ _ _

theorem conclude_settled :
    let p := settled h o files fallbackLanguage s
    conclude h.logged o files p = compile h.unstoppable.logged o files (s, []) ∨
      conclude h.logged o files p = (.error .cancelled, p.host) ∧
        h.isCancelled p.host.1 = true := by
  intro p
  rw [compile_unstoppable h files s hok, conclude, stopped_settled, Bool.false_or]
  by_cases hstop : h.logged.isCancelled p.host = true
  · exact .inr ⟨if_pos hstop, hstop⟩
  · exact .inl (if_neg hstop)

end

inductive Interrupted (o : Options) (files : List TextFile) (blocks : Dict Log) : Log → Prop
  | notStarted : Interrupted o files blocks []
  | after (k : Nat) : Interrupted o files blocks
      (catalogueReports o files ++ (blocks.values.take k).flatten)

theorem interleaves_tagged (blocks : Dict Log) :
    Interleaves blocks (blocks.toList.flatMap tagged) := by
  have hone (block : Log) : (block.map some).reduceOption = block :=
    (List.filterMap_map ..).trans List.filterMap_some
  have hblocks : blocksOf (blocks.mapValues fun _ block => block.map some) = blocks := by
    apply Dict.ext_get?
    intro name
    rw [blocksOf, Dict.get?_mapValues, Dict.get?_mapValues]
    cases blocks.get? name with
    | none => rfl
    | some block => exact congrArg some (hone block)
  have hwoven := interleaves_woven .inOrder (blocks.mapValues fun _ block => block.map some)
  rw [hblocks, woven_inOrder, Dict.mapValues, List.flatMap_map] at hwoven
  simpa only [hone] using hwoven

/-- A run comes to the end of an unstoppable one, or it is interrupted. -/
theorem compile_or_interrupted (h : Host σ) (files : List TextFile) (s : σ)
    (hok : (o.validate.bind fun _ => o.fallbackTag) = .ok fallbackLanguage) :
    ∃ blocks middle last, Transcript h.unstoppable o files fallbackLanguage blocks middle last
        (compile h.unstoppable.logged o files (s, [])).2.2 ∧
      middle.map (·.2) = blocks.values.flatten ∧
      (compile h.logged o files (s, []) = compile h.unstoppable.logged o files (s, []) ∨
        (compile h.logged o files (s, [])).1 = .error .cancelled ∧
        h.isCancelled (compile h.logged o files (s, [])).2.1 = true ∧
        Interrupted o files blocks (compile h.logged o files (s, [])).2.2) := by
  obtain ⟨blocks, hkeys, haccount, hall, hlogs⟩ := exists_blocks h o files fallbackLanguage s
  obtain ⟨last, hlog, hlast⟩ := log_unstoppable h files s hok
  have hmiddle : (blocks.toList.flatMap tagged).map (·.2) = blocks.values.flatten := by
    rw [List.map_flatMap, Dict.values, ← List.flatMap_def]
    exact congrArg blocks.toList.flatMap (funext map_snd_tagged)
  rw [hall, ← hmiddle] at hlog
  refine ⟨blocks, blocks.toList.flatMap tagged, last,
    ⟨hkeys, haccount, interleaves_tagged blocks, hlog, hlast⟩, hmiddle, ?_⟩
  rw [compile, compile_eq_conclude .inOrder h.logged files (s, []) hok]
  by_cases hstop : h.logged.isCancelled (s, []) = true
  · rw [if_pos hstop]
    exact .inr ⟨rfl, hstop, .notStarted⟩
  · rw [if_neg hstop, work_inOrder_tasks]
    rcases complete_all_cases h.logged (p := start h.logged o files (s, [])) rfl
      (prepareAll o files fallbackLanguage) with hend | ⟨done, hdone, hend, hcancelled⟩
    · obtain ⟨k, hk⟩ := hlogs _ List.prefix_rfl
      rw [hend]
      rcases conclude_settled h files s hok with hfull | ⟨hpart, hcancelled⟩
      · exact .inl hfull
      · exact .inr (hpart ▸ ⟨rfl, hcancelled, hk ▸ .after k⟩)
    · obtain ⟨k, hk⟩ := hlogs done hdone
      rw [hend]
      exact .inr ⟨rfl, hcancelled, hk ▸ .after k⟩

def IsClosed (o : Options) (log : Log) : Prop :=
  (∃ d saved types files, .diagnostic d ∈ log ∧ d.Summarizes [saved, types, files]) ∨
    ∃ e, o.validate = .error e ∧ log = [.diagnostic e.diagnostic]

theorem Account.code_ne_information {typeName : String} {r : Resource} {block : Log}
    (haccount : Account h o fallbackLanguage typeName r block) {d : Diagnostic}
    (hd : .diagnostic d ∈ block) : d.code ≠ .information := by
  have herrors {es : List Error} (hd : d ∈ es.map Error.diagnostic) : d.code ≠ .information := by
    obtain ⟨e, -, rfl⟩ := List.mem_map.1 hd
    exact e.code_ne_information
  cases haccount with
  | skipped _ =>
    rcases List.mem_append.1 (diagnostic_mem_reports.1 hd) with hd | hd
    · exact herrors hd
    · rw [List.mem_singleton.1 hd]
      exact (Error.missingFallback _ _).code_ne_information
  | attempted _ _ hwarnings _ =>
    obtain ⟨⟨⟩⟩ | hd := List.mem_cons.1 hd
    rcases List.mem_append.1 (diagnostic_mem_reports.1 hd) with hd | hd
    · rcases List.mem_append.1 hd with hd | hd
      · exact herrors hd
      · rcases hwarnings d hd with hcode | hcode
        all_goals
          rw [hcode]
          nofun
    · exact herrors hd

namespace Transcript

variable {blocks : Dict Log} {middle : List (String × Delivery)} {last : Diagnostic} {log : Log}
  (htranscript : Transcript h o files fallbackLanguage blocks middle last log)

include htranscript

theorem isClosed : IsClosed o log := by
  refine .inl ⟨last, _, _, _, ?_, htranscript.summarizes⟩
  rw [htranscript.log_eq]
  exact List.mem_append_right _ List.mem_cons_self

theorem exists_block {bs : List Log} (hbs : bs ⊆ blocks.values) {u : SourceUnit}
    (hu : u ∈ units bs.flatten) : ∃ block ∈ bs,
      blocks.get? u.typeName = some block ∧ .unit u (.ok ()) ∈ block := by
  obtain ⟨block, hblock, hmem⟩ := List.mem_flatten.1 (mem_units_iff.1 hu)
  obtain ⟨name, hname⟩ := Dict.mem_values_iff.1 (hbs hblock)
  obtain ⟨r, -, rfl, haccount⟩ := htranscript.exists_type hname
  exact ⟨block, hblock, (haccount.typeName_of_mem hmem).symm ▸ hname, hmem⟩

theorem isPrefix_of_interrupted (hmiddle : middle.map (·.2) = blocks.values.flatten) {part : Log}
    (hpart : Interrupted o files blocks part) : part <+: log := by
  cases hpart with
  | notStarted => exact List.nil_prefix
  | after k =>
    rw [htranscript.log_eq, hmiddle, List.append_assoc]
    exact (List.prefix_append_right_inj _).2
      ((List.take_prefix k _).flatten.trans (List.prefix_append _ _))

theorem not_isClosed_of_interrupted {part : Log} (hpart : Interrupted o files blocks part)
    (hvalid : o.validate = .ok ()) : ¬IsClosed o part := by
  rintro (⟨d, saved, types, files, hsummary, hd⟩ | ⟨e, hrefused, -⟩)
  · cases hpart with
    | notStarted => cases hsummary
    | after k =>
      rcases List.mem_append.1 hsummary with hsummary | hsummary
      · obtain ⟨e, -, he⟩ := List.mem_map.1 (diagnostic_mem_reports.1 hsummary)
        exact e.code_ne_information (he ▸ hd.code)
      · obtain ⟨block, hblock, hsummary⟩ := List.mem_flatten.1 hsummary
        obtain ⟨name, hname⟩ := Dict.mem_values_iff.1 (List.take_subset _ _ hblock)
        obtain ⟨r, -, -, haccount⟩ := htranscript.exists_type hname
        exact haccount.code_ne_information hsummary hd.code
  · cases hvalid.symm.trans hrefused

theorem exists_block_of_interrupted {part : Log} (hpart : Interrupted o files blocks part)
    {u : SourceUnit} (hu : u ∈ part.units) : ∃ block,
      blocks.get? u.typeName = some block ∧ .unit u (.ok ()) ∈ block ∧ block <:+: part := by
  cases hpart with
  | notStarted => cases hu
  | after k =>
    rw [units_append, catalogueReports, units_reports, List.nil_append] at hu
    obtain ⟨block, hblock, hget, hmem⟩ := htranscript.exists_block (List.take_subset _ _) hu
    exact ⟨block, hget, hmem,
      (List.infix_of_mem_flatten hblock).trans (List.suffix_append _ _).isInfix⟩

theorem exists_block_of_mem (hmiddle : middle.map (·.2) = blocks.values.flatten) {u : SourceUnit}
    (hu : u ∈ log.units) : ∃ block,
      blocks.get? u.typeName = some block ∧ .unit u (.ok ()) ∈ block ∧ block <:+: log := by
  have hunits : log.units = units blocks.values.flatten :=
    hmiddle ▸ htranscript.filterMap_eq isUnitView_savedUnit?
  obtain ⟨block, hblock, hget, hmem⟩ :=
    htranscript.exists_block (List.Subset.refl _) (hunits ▸ hu)
  have hinfix : blocks.values.flatten <:+: log := ⟨_, _, hmiddle ▸ htranscript.log_eq.symm⟩
  exact ⟨block, hget, hmem, (List.infix_of_mem_flatten hblock).trans hinfix⟩

end Transcript

end Compile

open Compile in
/-- A run that is stopped hands over a beginning of what an unstoppable run does, with all
diagnostics of the types whose units were taken. It is cancelled unless it has closed, and then it
is the same as the unstoppable run. -/
theorem compile_stopped {σ : Type u} (h : Host σ) (o : Options) (files : List TextFile) (s : σ) :
    let run := compile h.logged o files (s, [])
    let full := compile h.unstoppable.logged o files (s, [])
    run.2.2 <+: full.2.2 ∧ run.2.2.units <+: full.2.2.units ∧
      run.2.2.diagnostics <+: full.2.2.diagnostics ∧
      (∀ u ∈ run.2.2.units, ∃ fallbackLanguage blocks middle last block,
        Transcript h.unstoppable o files fallbackLanguage blocks middle last full.2.2 ∧
        middle.map (·.2) = blocks.values.flatten ∧ blocks.get? u.typeName = some block ∧
        .unit u (.ok ()) ∈ block ∧ block <:+: run.2.2) ∧
      (∃ success, full.1 = .ok success) ∧
      (run.1 = .error .cancelled ∧ h.isCancelled run.2.1 = true ∧ ¬IsClosed o run.2.2 ∨
        run = full ∧ IsClosed o run.2.2) := by
  intro run full
  cases hvalid : o.validate with
  | error e =>
    have hrefused : (o.validate.bind fun _ => o.fallbackTag) = .error e := by
      rw [hvalid]
      rfl
    have hrun := compile_of_refused .inOrder h.logged files (s, []) hrefused
    have hfull := compile_of_refused .inOrder h.unstoppable.logged files (s, []) hrefused
    simp only [run, full, compile, hrun, hfull]
    refine ⟨List.prefix_rfl, List.prefix_rfl, List.prefix_rfl, ?_, ⟨false, rfl⟩,
      .inr ⟨rfl, .inr ⟨e, hvalid, rfl⟩⟩⟩
    intro u hu
    cases hu
  | ok _ =>
    obtain ⟨fallbackLanguage, htag⟩ := Options.fallbackTag_of_validate hvalid
    have hok : (o.validate.bind fun _ => o.fallbackTag) = .ok fallbackLanguage := by
      rw [hvalid]
      exact htag
    have hresult : ∃ success, full.1 = .ok success :=
      ⟨_, congrArg (·.1) (compile_unstoppable h files s hok)⟩
    obtain ⟨blocks, middle, last, htranscript, hmiddle, hrun | ⟨hcancelled, hhost, hpart⟩⟩ :=
      compile_or_interrupted h files s hok
    · replace hrun : run = full := hrun
      rw [hrun]
      refine ⟨List.prefix_rfl, List.prefix_rfl, List.prefix_rfl, ?_, hresult,
        .inr ⟨rfl, htranscript.isClosed⟩⟩
      intro u hu
      obtain ⟨block, hblock⟩ := htranscript.exists_block_of_mem hmiddle hu
      exact ⟨fallbackLanguage, blocks, middle, last, block, htranscript, hmiddle, hblock⟩
    · have hbegin := htranscript.isPrefix_of_interrupted hmiddle hpart
      refine ⟨hbegin, hbegin.filterMap _, hbegin.filterMap _, ?_, hresult,
        .inl ⟨hcancelled, hhost, htranscript.not_isClosed_of_interrupted hpart hvalid⟩⟩
      intro u hu
      obtain ⟨block, hblock⟩ := htranscript.exists_block_of_interrupted hpart hu
      exact ⟨fallbackLanguage, blocks, middle, last, block, htranscript, hmiddle, hblock⟩

end Phrasebook
