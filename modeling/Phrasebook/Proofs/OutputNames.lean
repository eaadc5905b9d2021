import Mathlib.Data.List.Flatten
import Phrasebook.OutputDir
import Phrasebook.Proofs.FileName
import Phrasebook.Proofs.Items
import Phrasebook.Proofs.Namespace
import Phrasebook.Proofs.Path
import Phrasebook.Proofs.Tag
import Phrasebook.Proofs.TableFiles
import Phrasebook.Proofs.Transcript

universe u

namespace Phrasebook

open Placement

def IsSegment (s : String) : Prop :=
  ∀ c ∈ s.toList, Identifier.isPart c = true ∨ Language.isTagChar c = true

instance (s : String) : Decidable (IsSegment s) := List.decidableBAll _ _

theorem IsSegment.not_mem {s : String} (h : IsSegment s) {c : Char}
    (hc : ¬(Identifier.isPart c = true ∨ Language.isTagChar c = true)) : c ∉ s.toList :=
  fun hmem => hc (h c hmem)

theorem IsSegment.of_isIdentifier {s : String} (h : Identifier.isIdentifier s = true) :
    IsSegment s := fun c hc => .inl (Identifier.isWord_of_isIdentifier h c hc)

theorem not_mem_dotted {segments : List String} (h : ∀ s ∈ segments, IsSegment s) {c : Char}
    (hc : ¬(Identifier.isPart c = true ∨ Language.isTagChar c = true)) (hdot : c ≠ '.') :
    c ∉ (dotted segments).toList := by
  intro hmem
  have htext : (dotted segments).toList = ['.'].intercalate (segments.map String.toList) :=
    String.toList_intercalate
  obtain hsep | ⟨part, hpart, hc'⟩ := mem_of_mem_intercalate (htext ▸ hmem)
  · exact hdot (List.mem_singleton.1 hsep)
  · obtain ⟨s, hs, rfl⟩ := List.mem_map.1 hpart
    exact (h s hs).not_mem hc hc'

theorem dotted_append {xs ys : List String} (hx : xs ≠ []) (hy : ys ≠ []) :
    dotted (xs ++ ys) = dotted xs ++ "." ++ dotted ys :=
  String.intercalate_append_of_ne_nil hx hy

theorem dotted_inj_of_isSegment {xs ys : List String} (hxs : ∀ s ∈ xs, IsSegment s)
    (hys : ∀ s ∈ ys, IsSegment s) (hx : xs ≠ []) (hy : ys ≠ []) (h : dotted xs = dotted ys) :
    xs = ys := by
  have dotless {s : String} (hs : IsSegment s) : '.' ∉ s.toList := hs.not_mem (by decide)
  exact dotted_inj (fun s hs => dotless (hxs s hs)) (fun s hs => dotless (hys s hs)) hx hy h

namespace Resource

def tableName (r : Resource) (language : String) : String := s!"{r.fullName}.{language}.json"

def outputNames (r : Resource) : List String := r.unitName :: r.languages.map r.tableName

def endings (r : Resource) : List (String × String) :=
  ("g", "rs") :: r.languages.map fun language => (language, "json")

def outputSegments (r : Resource) (ending : String × String) : List String :=
  r.nameSpace ++ [r.baseName] ++ [ending.1, ending.2]

structure IsNamed (r : Resource) : Prop where
  nameSpace : r.nameSpace ≠ []
  segments : ∀ s ∈ r.nameSpace ++ [r.baseName], Identifier.isIdentifier s = true
  languages : ∀ language ∈ r.languages, IsSegment language

theorem outputNames_eq (r : Resource) :
    r.outputNames = r.endings.map fun ending => dotted (r.outputSegments ending) := by
  have hname (ending : String × String) : dotted (r.outputSegments ending) =
      r.fullName ++ "." ++ (ending.1 ++ "." ++ ending.2) := by
    have hend : dotted [ending.1, ending.2] = ending.1 ++ "." ++ ending.2 := by
      rw [← List.singleton_append, dotted_append (List.cons_ne_nil _ _) (List.cons_ne_nil _ _)]
      simp only [dotted, String.intercalate_singleton]
    have hfull : r.fullName = dotted (r.nameSpace ++ [r.baseName]) := fullName_eq_dotted _ _
    rw [outputSegments, dotted_append (by simp) (List.cons_ne_nil _ _), hend, ← hfull]
  rw [outputNames, endings, List.map_cons, List.map_map, hname]
  congr 1
  · rw [unitName, String.append_assoc]
    rfl
  · apply List.map_congr_left
    intro language _
    rw [Function.comp_apply, hname]
    simp only [tableName, String.append_assoc]
    rfl

theorem eq_of_outputSegments {r r' : Resource} {ending ending' : String × String}
    (h : r.outputSegments ending = r'.outputSegments ending') :
    r.fullName = r'.fullName ∧ ending = ending' := by
  obtain ⟨hname, hending⟩ := List.append_inj' h rfl
  constructor
  · rw [fullName, fullName, fullName_eq_dotted, fullName_eq_dotted, hname]
  · simpa [Prod.ext_iff] using hending

theorem nodup_endings (r : Resource) : r.endings.Nodup := by
  refine List.nodup_cons.2 ⟨?_, r.files.nodup_keys.map fun _ _ h => congrArg Prod.fst h⟩
  intro h
  have hne : "json" ≠ "rs" := by decide
  obtain ⟨language, -, heq⟩ := List.mem_map.1 h
  exact hne (congrArg Prod.snd heq)

namespace IsNamed

variable {r r' : Resource} (h : r.IsNamed)

include h

theorem isSegment {ending : String × String} (hending : ending ∈ r.endings) :
    ∀ s ∈ r.outputSegments ending, IsSegment s := by
  have closings : ∀ s ∈ ["g", "rs"] ++ ["json"], IsSegment s := by decide
  intro s hs
  rcases List.mem_append.1 hs with hs | hs
  · exact .of_isIdentifier (h.segments s hs)
  · rcases List.mem_cons.1 hending with rfl | hending
    · exact closings s (List.mem_append_left _ hs)
    · obtain ⟨language, hlanguage, rfl⟩ := List.mem_map.1 hending
      rcases List.mem_cons.1 hs with rfl | hs
      · exact h.languages _ hlanguage
      · exact closings s (List.mem_append_right _ hs)

theorem exists_segments {name : String} (hname : name ∈ r.outputNames) :
    ∃ ending ∈ r.endings, name = dotted (r.outputSegments ending) ∧
      (∀ s ∈ r.outputSegments ending, IsSegment s) ∧ 3 < (r.outputSegments ending).length := by
  rw [outputNames_eq] at hname
  obtain ⟨ending, hending, rfl⟩ := List.mem_map.1 hname
  refine ⟨ending, hending, rfl, h.isSegment hending, ?_⟩
  have hlength := List.length_pos_iff.2 h.nameSpace
  simp only [outputSegments, List.length_append, List.length_cons, List.length_nil]
  omega

theorem nodup_outputNames : r.outputNames.Nodup := by
  rw [outputNames_eq]
  refine r.nodup_endings.map_on ?_
  intro ending hending ending' hending' heq
  exact (eq_of_outputSegments (dotted_inj_of_isSegment (h.isSegment hending) (h.isSegment hending')
    (by simp [outputSegments]) (by simp [outputSegments]) heq)).2

theorem fullName_eq (h' : r'.IsNamed) {name : String} (hname : name ∈ r.outputNames)
    (hname' : name ∈ r'.outputNames) : r.fullName = r'.fullName := by
  obtain ⟨ending, -, rfl, hsegments, -⟩ := h.exists_segments hname
  obtain ⟨ending', -, heq, hsegments', -⟩ := h'.exists_segments hname'
  exact (eq_of_outputSegments (dotted_inj_of_isSegment hsegments hsegments'
    (by simp [outputSegments]) (by simp [outputSegments]) heq)).1

end IsNamed

end Resource

/-- The names of the files that the types may have, and of the index. -/
def outputNames (types : Dict Resource) : List String :=
  indexFileName :: types.values.flatMap Resource.outputNames

theorem indexFileName_eq : indexFileName = dotted ["i18ntext", "g", "rs"] := by decide

namespace Catalogue

variable {o : Options} {files : List TextFile} {types : Dict Resource}

theorem isNamed_of_mem (hsound : Sound o files types) (hvalid : o.validate = .ok ())
    {r : Resource} (hr : r ∈ types.values) : r.IsNamed := by
  obtain ⟨name, hget⟩ := Dict.mem_values_iff.1 hr
  obtain ⟨-, p, hfits, hspace, hbase⟩ := fits_of_mem hsound hget
  constructor
  case nameSpace =>
    obtain ⟨added, hadded, -⟩ := hfits.nameSpace
    rw [← hspace, hadded]
    exact List.append_ne_nil_of_left_ne_nil o.rootSegments_ne_nil _
  case segments =>
    rw [← hspace, ← hbase]
    exact hfits.isIdentifier hvalid
  case languages =>
    intro language hlanguage
    obtain ⟨f, hf⟩ := Dict.mem_keys_iff.1 hlanguage
    obtain ⟨tag, htag⟩ := canonical_of_mem hsound hget hf
    exact fun c hc => .inr (Language.isTagChar_canonical? htag c hc)

theorem exists_segments_of_mem (hsound : Sound o files types) (hvalid : o.validate = .ok ())
    {name : String} (hname : name ∈ outputNames types) :
    ∃ segments, name = dotted segments ∧ (∀ s ∈ segments, IsSegment s) ∧
      ∃ s ∈ segments, s ≠ "" := by
  rcases List.mem_cons.1 hname with rfl | hname
  · exact ⟨_, indexFileName_eq, by decide, by decide⟩
  · obtain ⟨r, hr, hname⟩ := List.mem_flatMap.1 hname
    have hnamed := isNamed_of_mem hsound hvalid hr
    obtain ⟨ending, -, rfl, hsegments, -⟩ := hnamed.exists_segments hname
    have hmem : r.baseName ∈ r.nameSpace ++ [r.baseName] :=
      List.mem_append_right _ List.mem_cons_self
    refine ⟨_, rfl, hsegments, r.baseName, List.mem_append_left _ hmem, ?_⟩
    intro hempty
    have hidentifier := hnamed.segments _ hmem
    rw [hempty] at hidentifier
    cases hidentifier

theorem nodup_outputNames (hsound : Sound o files types) (hvalid : o.validate = .ok ()) :
    (outputNames types).Nodup := by
  refine List.nodup_cons.2 ⟨?_, List.nodup_flatMap.2 ⟨?_, ?_⟩⟩
  · intro hindex
    obtain ⟨r, hr, hindex⟩ := List.mem_flatMap.1 hindex
    obtain ⟨ending, -, heq, hsegments, hlength⟩ :=
      (isNamed_of_mem hsound hvalid hr).exists_segments hindex
    rw [indexFileName_eq] at heq
    have hne := List.ne_nil_of_length_pos (Nat.lt_trans (Nat.succ_pos 2) hlength)
    rw [← dotted_inj_of_isSegment (by decide) hsegments (List.cons_ne_nil _ _) hne heq] at hlength
    exact absurd hlength (by decide)
  · exact fun r hr => (isNamed_of_mem hsound hvalid hr).nodup_outputNames
  · refine (List.pairwise_map.1 (nodup_fullNames hsound)).imp_of_mem ?_
    intro r r' hr hr' hne name hname hname'
    exact hne ((isNamed_of_mem hsound hvalid hr).fullName_eq (isNamed_of_mem hsound hvalid hr')
      hname hname')

theorem not_mem_outputName (hsound : Sound o files types) (hvalid : o.validate = .ok ())
    {name : String} (hname : name ∈ outputNames types) :
    '/' ∉ name.toList ∧ '\\' ∉ name.toList := by
  obtain ⟨segments, rfl, hsegments, -⟩ := exists_segments_of_mem hsound hvalid hname
  exact ⟨not_mem_dotted hsegments (by decide) (by decide),
    not_mem_dotted hsegments (by decide) (by decide)⟩

end Catalogue

theorem Path.components_ofString {name : String} (hslash : '/' ∉ name.toList)
    (hne : name ≠ "" ∧ name ≠ "." ∧ name ≠ "..") :
    (Path.ofString name).components = [.name (Text.Utf8.ofString name)] := by
  have hbyte : slash ∉ Text.Utf8.ofString name := fun h =>
    hslash (Text.Utf8.mem_ofString (n := 0x2F) (by decide) h)
  have hpieces : (Path.ofString name).pieces = [Text.Utf8.ofString name] :=
    List.splitOn_eq_singleton hbyte
  have hbytes {other : String} (h : name ≠ other) :
      Text.Utf8.ofString name ≠ Text.Utf8.ofString other := mt Text.Utf8.ofString_inj h
  have hrelative : ¬(Path.ofString name).isAbsolute = true := by
    intro h
    exact hbyte (List.mem_of_head? (isAbsolute_iff.1 h))
  have hempty : Text.Utf8.ofString name ≠ [] := hbytes hne.1
  have hdot : Text.Utf8.ofString name ≠ [dot] := hbytes hne.2.1
  have hdots : Text.Utf8.ofString name ≠ [dot, dot] := hbytes hne.2.2
  simp [components, hrelative, hpieces, Component.ofPiece?, hempty, hdot, hdots]

theorem Catalogue.components_filePath {o : Options} {files : List TextFile} {types : Dict Resource}
    (hsound : Sound o files types) (hvalid : o.validate = .ok ()) (d : OutputDir) {name : String}
    (hname : name ∈ outputNames types) : (d.filePath name).components =
      d.dir.components ++ [.name (Text.Utf8.ofString name)] := by
  obtain ⟨hslash, -⟩ := not_mem_outputName hsound hvalid hname
  obtain ⟨segments, rfl, hsegments, s, hs, hne⟩ := exists_segments_of_mem hsound hvalid hname
  have hdots : ∀ s ∈ segments, '.' ∉ s.toList := fun s hs => (hsegments s hs).not_mem (by decide)
  have hcomponents := Path.components_ofString hslash ⟨dotted_ne hdots hs hne (by decide),
    dotted_ne hdots hs hne (by decide), dotted_ne hdots hs hne (by decide)⟩
  have hnames : (Path.ofString (dotted segments)).components =
      [Text.Utf8.ofString (dotted segments)].map .name := hcomponents
  obtain ⟨hrelative, hlead⟩ := Path.lead_of_names hnames
  rw [OutputDir.filePath, Path.components_join hrelative hlead, hcomponents]

namespace OutputDir

def targets (d : OutputDir) (units : List SourceUnit) : List Path :=
  d.indexPath :: units.flatMap fun u => (d.unitFiles u).map (·.1)

theorem targets_save (d : OutputDir) (u : SourceUnit) (t : FileTree) :
    (d.save u t).2.1.targets = d.targets := by
  unfold save
  split
  · rfl
  · split
    · rfl
    · rfl

end OutputDir

def SourceUnit.fileNames (u : SourceUnit) : List String :=
  u.fileName :: u.tableFiles.map (·.fileName)

theorem OutputDir.targets_eq (d : OutputDir) (units : List SourceUnit) :
    d.targets units = (indexFileName :: units.flatMap SourceUnit.fileNames).map d.filePath := by
  rw [targets, List.map_cons, List.map_flatMap]
  congr 2
  funext u
  simp [unitFiles, SourceUnit.fileNames]

theorem Compile.languages_of_merge {r : Resource} {typeName fallbackLanguage : String} {m : Merged}
    {warnings : List Diagnostic}
    (h : merge typeName (entriesOf r) fallbackLanguage = .ok (m, warnings)) :
    m.languages.Sublist r.languages := by
  have hkeys : m.languages = (entriesOf r).keys := by
    cases hget : (entriesOf r).get? fallbackLanguage with
    | none =>
      rw [merge_eq_error typeName hget] at h
      cases h
    | some fallback =>
      obtain ⟨_, _, hmerge, -, -, hvalues, -⟩ := merge_eq_ok typeName hget
      cases hmerge.symm.trans h
      rw [Merged.languages, hvalues, Dict.keys_mapValues]
  rw [hkeys, entriesOf]
  exact (Dict.keys_filterMap_sublist _ _).trans (Dict.keys_mapValues _ r.files ▸ .refl _)

open Compile in
theorem fileNames_of_prepare {o : Options} {fallbackLanguage typeName : String} {r : Resource}
    {u : SourceUnit} (h : (prepare o fallbackLanguage typeName r).unit = .ok u) :
    u.fileNames.Sublist r.outputNames := by
  cases hmerge : merge typeName (entriesOf r) fallbackLanguage with
  | error e =>
    rw [prepare_of_error hmerge] at h
    cases h
  | ok p =>
    obtain ⟨m, warnings⟩ := p
    rw [prepare_of_ok hmerge] at h
    cases h
    have hnames : (SourceUnit.ofMerged m r o).fileNames =
        r.unitName :: m.languages.map r.tableName := by
      simp only [SourceUnit.fileNames, SourceUnit.ofMerged, Merged.languages, Dict.keys,
        List.map_map]
      rfl
    rw [hnames]
    exact ((languages_of_merge hmerge).map _).cons_cons _

namespace Compile

open Log

variable {σ : Type u} {h : Host σ} {o : Options} {files : List TextFile} {fallbackLanguage : String}

theorem attempts_of_block {q : Prepared} {block : Log} (hblock : Block h q block) :
    block.attempts = q.unit.toOption.toList := by
  cases hblock with
  | skipped hunit =>
    rw [hunit, attempts_reports]
    rfl
  | @saved u _ hunit _ =>
    rw [hunit]
    exact congrArg (u :: ·) (attempts_reports _)
  | @refused u _ _ hunit _ =>
    rw [hunit]
    exact congrArg (u :: ·) (attempts_reports _)

theorem attempts_of_follows {q : Prepared} {cut : Bool} {l : List (Option Delivery)}
    (hl : q.task.Follows h cut l) :
    (attempts l.reduceOption).Sublist q.unit.toOption.toList := by
  obtain ⟨full, hfull, hbegins, -⟩ := hl
  obtain ⟨block, hblock, rfl⟩ := block_of_steps hfull
  rw [← attempts_of_block hblock, ← reduceOption_steps q block]
  exact ((hbegins.filterMap id).filterMap _).sublist

def attemptsOf (steps : Dict (List (Option Delivery))) : List SourceUnit :=
  steps.toList.flatMap fun p => attempts p.2.reduceOption

theorem Conducts.fileNames_sublist {cut : Bool} {steps : Dict (List (Option Delivery))}
    (hsteps : Conducts h o files fallbackLanguage cut steps) :
    ((attemptsOf steps).flatMap SourceUnit.fileNames).Sublist
      ((Catalogue.ofFiles o files).types.values.flatMap Resource.outputNames) := by
  have hfollows : List.Forall₂ (fun p q : String × _ => ((attempts q.2.reduceOption).flatMap
      SourceUnit.fileNames).Sublist (Resource.outputNames p.2))
      (Catalogue.ofFiles o files).types.toList steps.toList := by
    apply Dict.forall₂_of_keys hsteps.keys
    intro name r l hr hl
    refine ((attempts_of_follows (hsteps.follows hr hl)).flatMap _).trans ?_
    cases hunit : (prepare o fallbackLanguage name r).unit with
    | error e => exact List.nil_sublist _
    | ok u => exact List.flatMap_singleton .. ▸ fileNames_of_prepare hunit
  rw [attemptsOf, Dict.values, List.flatMap_map]
  generalize (Catalogue.ofFiles o files).types.toList = types at hfollows
  generalize steps.toList = ls at hfollows
  induction hfollows with
  | nil => exact .slnil
  | cons hnames _ ih =>
    rw [List.flatMap_cons, List.flatMap_append, List.flatMap_cons]
    exact hnames.append ih

theorem attempts_woven (schedule : Schedule) (steps : Dict (List (Option Delivery))) :
    (attempts ((woven schedule steps.toList).map (·.2))).Perm (attemptsOf steps) := by
  have hperm := ((perm_woven schedule steps.toList).map (·.2)).filterMap Delivery.attempt?
  refine hperm.trans (.of_eq ?_)
  rw [← woven_inOrder, map_snd_woven_inOrder, List.filterMap_flatMap]
  rfl

theorem attempts_woven_inOrder (steps : Dict (List (Option Delivery))) :
    attempts ((woven .inOrder steps.toList).map (·.2)) = attemptsOf steps := by
  rw [map_snd_woven_inOrder, attempts, List.filterMap_flatMap]
  rfl

theorem fileNames_of_attempts {schedule : Schedule} {result : Except Error Bool} {log : Log}
    (hrun : Run schedule h o files result log) :
    ∃ units, log.attempts.Perm units ∧ (schedule = .inOrder → log.attempts = units) ∧
      (units.flatMap SourceUnit.fileNames).Sublist
        ((Catalogue.ofFiles o files).types.values.flatMap Resource.outputNames) := by
  have hwoven {steps : Dict (List (Option Delivery))}
      (hlog : log.attempts = attempts (catalogueReports o files ++
        (woven schedule steps.toList).map (·.2))) :
      log.attempts.Perm (attemptsOf steps) ∧
        (schedule = .inOrder → log.attempts = attemptsOf steps) := by
    rw [hlog, attempts_append, catalogueReports, attempts_reports, List.nil_append]
    exact ⟨attempts_woven schedule steps,
      fun hschedule => hschedule ▸ attempts_woven_inOrder steps⟩
  cases hrun with
  | refusedOptions _ => exact ⟨[], .refl _, fun _ => rfl, List.nil_sublist _⟩
  | notStarted => exact ⟨[], .refl _, fun _ => rfl, List.nil_sublist _⟩
  | stopped _ _ hsteps =>
    obtain ⟨hperm, hinOrder⟩ := hwoven rfl
    exact ⟨_, hperm, hinOrder, hsteps.fileNames_sublist⟩
  | finished _ _ hsteps hlog _ =>
    have hlast (log : Log) (d : Diagnostic) : attempts (log ++ [.diagnostic d]) = log.attempts :=
      (attempts_append ..).trans (List.append_nil _)
    obtain ⟨hperm, hinOrder⟩ := hwoven ((hlast _ _).trans (congrArg attempts hlog))
    exact ⟨_, hperm, hinOrder, hsteps.fileNames_sublist⟩

end Compile

open Compile in
/-- No two files of a run, the index among them, have the same name or the same path. Each stands
in the directory itself, also after other units were saved. -/
theorem nodup_targets (schedule : Schedule) {σ : Type u} (h : Host σ) (o : Options)
    (hvalid : o.validate = .ok ()) (files : List TextFile) (s : σ) (d : OutputDir) :
    let names := outputNames (Catalogue.ofFiles o files).types
    let units := (compileUnder schedule h.logged o files (s, [])).2.2.attempts
    names.Nodup ∧ (∀ name ∈ names, '/' ∉ name.toList ∧ '\\' ∉ name.toList) ∧
      (indexFileName :: units.flatMap SourceUnit.fileNames).Subperm names ∧
      (schedule = .inOrder →
        (indexFileName :: units.flatMap SourceUnit.fileNames).Sublist names) ∧
      (∀ name ∈ names, (d.filePath name).components =
        d.dir.components ++ [.name (Text.Utf8.ofString name)]) ∧
      ((d.targets units).map Path.components).Nodup ∧
      ∀ u t, (d.save u t).2.1.targets = d.targets := by
  intro names units
  have hsound := Catalogue.sound_ofFiles o files
  have hnodup := Catalogue.nodup_outputNames hsound hvalid
  obtain ⟨inTurn, hperm, hinOrder, hsublist⟩ :=
    fileNames_of_attempts (run_compile schedule h o files s)
  have hwritten : (indexFileName :: inTurn.flatMap SourceUnit.fileNames).Perm
      (indexFileName :: units.flatMap SourceUnit.fileNames) := (hperm.symm.flatMap_right _).cons _
  have hunits : (indexFileName :: units.flatMap SourceUnit.fileNames).Subperm names :=
    ⟨_, hwritten, hsublist.cons_cons _⟩
  have hpaths : ∀ name ∈ names, (d.filePath name).components =
      d.dir.components ++ [.name (Text.Utf8.ofString name)] :=
    fun name hname => Catalogue.components_filePath hsound hvalid d hname
  refine ⟨hnodup, fun name hname => Catalogue.not_mem_outputName hsound hvalid hname, hunits, ?_,
    hpaths, ?_, d.targets_save⟩
  · intro hschedule
    have hinTurn : units = inTurn := hinOrder hschedule
    rw [hinTurn]
    exact hsublist.cons_cons _
  · rw [d.targets_eq, List.map_map]
    refine (hwritten.nodup (hnodup.sublist (hsublist.cons_cons _))).map_on ?_
    intro name hname other hother heq
    rw [Function.comp_apply, Function.comp_apply, hpaths _ (hunits.subset hname),
      hpaths _ (hunits.subset hother)] at heq
    have hlast := List.append_cancel_left heq
    exact Text.Utf8.ofString_inj (Path.Component.name.inj (List.singleton_inj.1 hlast))

open Compile in
theorem nodup_targets_bilingualBatch :
    let units := (compile Host.accepting.logged .sample TextFile.bilingualBatch
      ((), [])).2.2.attempts
    Options.sample.validate = .ok () ∧ units.flatMap SourceUnit.fileNames =
        ["App.Greeting.g.rs", "App.Greeting.de.json", "App.Greeting.en.json"] ∧
      (((OutputDir.start Options.sample.outputDir).targets units).map Path.components).Nodup := by
  intro units
  have hvalid : Options.sample.validate = .ok () := by decide +kernel
  obtain ⟨-, -, -, -, -, hpaths, -⟩ := nodup_targets .inOrder Host.accepting .sample hvalid
    TextFile.bilingualBatch () (.start Options.sample.outputDir)
  exact ⟨hvalid, by decide +kernel, hpaths⟩

end Phrasebook
