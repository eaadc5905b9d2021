import Phrasebook.Proofs.Catalogue
import Phrasebook.Proofs.Path
import Phrasebook.Proofs.PathIndependence
import Phrasebook.Proofs.Run

namespace Phrasebook

/-- Options that differ in the absolute directory from which the others count. -/
structure Options.Rebased (o o' : Options) : Prop where
  isAbsolute : o.baseDir.isAbsolute = true ∧ o'.baseDir.isAbsolute = true
  isRelative : ¬o.sourceDir.isAbsolute = true
  sourceDir : o.sourceDir = o'.sourceDir
  rootNamespace : o.rootNamespace = o'.rootNamespace
  fallbackLanguage : o.fallbackLanguage = o'.fallbackLanguage
  disableSubNamespace : o.disableSubNamespace = o'.disableSubNamespace

/-- A file of the same content at the same steps from the base directory. -/
structure TextFile.Moved (o o' : Options) (f g : TextFile) : Prop where
  steps : ∃ steps, (o.resolve f.path).components = o.baseDir.components ++ steps ∧
    (o'.resolve g.path).components = o'.baseDir.components ++ steps
  format : f.format = g.format
  language : f.language = g.language
  content : f.content = g.content
  encoding : f.encoding = g.encoding

structure Resource.Moved (o o' : Options) (r r' : Resource) : Prop where
  nameSpace : r.nameSpace = r'.nameSpace
  baseName : r.baseName = r'.baseName
  subNamespace : r.subNamespace = r'.subNamespace
  files : r.files.Related (TextFile.Moved o o') r'.files

structure Catalogue.Moved (o o' : Options) (c c' : Catalogue) : Prop where
  types : c.types.Related (Resource.Moved o o') c'.types
  errors : c.errors.length = c'.errors.length

variable {o o' : Options}

namespace Options.Rebased

variable (ho : o.Rebased o')

include ho

theorem rootSegments : o.rootSegments = o'.rootSegments := congrArg segmentsOf ho.rootNamespace

theorem fallbackTag : o.fallbackTag = o'.fallbackTag := by
  unfold Options.fallbackTag
  rw [ho.fallbackLanguage]

theorem validate : o.validate = o'.validate := by
  unfold Options.validate
  rw [ho.rootNamespace, ho.rootSegments, ho.fallbackTag]

end Options.Rebased

theorem Options.below?_sourceRoot (hbase : o.baseDir.isAbsolute = true)
    (hsource : ¬o.sourceDir.isAbsolute = true) {p : Path} {steps cs : List Path.Component}
    (hp : (o.resolve p).components = o.baseDir.components ++ steps) :
    (o.resolve p).below? o.sourceRoot = some cs ↔ steps = o.sourceDir.steps ++ cs := by
  rw [Path.below?_eq_some_iff, hp, sourceRoot,
    Path.components_join_steps hsource (Path.bytes_ne_nil_of_isAbsolute hbase), List.append_assoc,
    List.append_cancel_left_eq]

namespace TextFile.Moved

variable {f g : TextFile}

theorem below?_eq (ho : o.Rebased o') (h : f.Moved o o' g) :
    (o.resolve f.path).below? o.sourceRoot = (o'.resolve g.path).below? o'.sourceRoot := by
  obtain ⟨steps, hf, hg⟩ := h.steps
  apply Option.ext
  intro cs
  rw [Options.below?_sourceRoot ho.isAbsolute.1 ho.isRelative hf,
    Options.below?_sourceRoot ho.isAbsolute.2 (ho.sourceDir ▸ ho.isRelative) hg, ho.sourceDir]

theorem find_eq (ho : o.Rebased o') (h : f.Moved o o' g) :
    (Placement.find o f).toOption = (Placement.find o' g).toOption := by
  unfold Placement.find
  rw [h.below?_eq ho, h.language, ho.rootSegments, ho.disableSubNamespace]
  cases (o'.resolve g.path).below? o'.sourceRoot with
  | none => rfl
  | some cs => rfl

theorem shownPath_eq (h : f.Moved o o' g) :
    SourceUnit.shownPath o f.path = SourceUnit.shownPath o' g.path := by
  obtain ⟨steps, hf, hg⟩ := h.steps
  have hbelow : (o.resolve f.path).below? o.baseDir = (o'.resolve g.path).below? o'.baseDir := by
    rw [Path.below?_eq_some_iff.2 hf, Path.below?_eq_some_iff.2 hg]
  unfold SourceUnit.shownPath
  dsimp only
  rw [hbelow, Path.below?_eq_some_iff.2 hg]
  rfl

theorem alike_parse (h : f.Moved o o' g) : Contents.Alike f.parse g.parse :=
  TextFile.alike_parse h.format h.content h.encoding

end TextFile.Moved

namespace Catalogue

theorem Moved.report {c c' : Catalogue} (h : c.Moved o o' c') (e e' : Error) :
    (c.report e).Moved o o' (c'.report e') where
  types := h.types
  errors := by simp [Catalogue.report, h.errors]

theorem Moved.enter {c c' : Catalogue} (h : c.Moved o o' c') (p : Placement) {r r' : Resource}
    (hr : r.Moved o o' r') {f g : TextFile} (hf : f.Moved o o' g) :
    (c.enter p r f).Moved o o' (c'.enter p r' g) where
  types := h.types.insert _ { hr with files := hr.files.insert _ hf }
  errors := h.errors

def typeAt (o : Options) (c : Catalogue) (p : Placement) : Resource :=
  (c.types.get? p.fullName).getD (found o p)

theorem addPlaced_eq (o : Options) (c : Catalogue) (f : TextFile) (p : Placement) :
    addPlaced o c f p = match (typeAt o c p).files.get? p.language with
      | some first => c.report (.duplicateLanguage f.path p.fullName p.language first.path)
      | none => c.enter p (typeAt o c p) f := rfl

section

variable {c c' : Catalogue} (ho : o.Rebased o') (h : c.Moved o o' c')

include ho h

theorem Moved.typeAt (p : Placement) : (typeAt o c p).Moved o o' (typeAt o' c' p) := by
  unfold Catalogue.typeAt
  have hget := h.types.get? p.fullName
  generalize c.types.get? p.fullName = r at hget ⊢
  generalize c'.types.get? p.fullName = r' at hget ⊢
  cases hget with
  | none => exact ⟨rfl, rfl, congrArg not ho.disableSubNamespace, .nil⟩
  | some hr => exact hr

theorem Moved.addPlaced (p : Placement) {f g : TextFile} (hf : f.Moved o o' g) :
    (addPlaced o c f p).Moved o o' (addPlaced o' c' g p) := by
  have hr := h.typeAt ho p
  rw [addPlaced_eq, addPlaced_eq]
  generalize Catalogue.typeAt o c p = r at hr ⊢
  generalize Catalogue.typeAt o' c' p = r' at hr ⊢
  have hfirst := hr.files.get? p.language
  generalize r.files.get? p.language = first at hfirst ⊢
  generalize r'.files.get? p.language = first' at hfirst ⊢
  cases hfirst with
  | none => exact h.enter p hr hf
  | some _ => exact h.report _ _

theorem Moved.add {f g : TextFile} (hf : f.Moved o o' g) :
    (add o c f).Moved o o' (add o' c' g) := by
  have hfind := hf.find_eq ho
  unfold Catalogue.add
  cases hplace : Placement.find o f with
  | error fault =>
    cases hplace' : Placement.find o' g with
    | error fault' => exact h.report _ _
    | ok p' =>
      rw [hplace, hplace'] at hfind
      cases hfind
  | ok p =>
    cases hplace' : Placement.find o' g with
    | error fault' =>
      rw [hplace, hplace'] at hfind
      cases hfind
    | ok p' =>
      rw [hplace, hplace'] at hfind
      cases hfind
      exact h.addPlaced ho p hf

end

theorem moved_collect (ho : o.Rebased o') {files files' : List TextFile}
    (hfiles : List.Forall₂ (TextFile.Moved o o') files files') :
    (collect o files).Moved o o' (collect o' files') := by
  refine List.rel_foldl (fun c c' hc f g hf => hc.add ho hf) ?_ hfiles
  exact ⟨.nil, rfl⟩

theorem Moved.user?_eq {c c' : Catalogue} (h : c.Moved o o' c') (name : String) :
    user? c.types name = user? c'.types name := by
  have hspaces : c.types.toList.map (fun p => (p.1, p.2.nameSpace)) =
      c'.types.toList.map fun p => (p.1, p.2.nameSpace) :=
    h.types.map_toList fun name _ _ hr => congrArg (name, ·) hr.nameSpace
  have hfind (types : Dict Resource) : user? types name =
      ((types.toList.map fun p => (p.1, p.2.nameSpace)).find?
        (name ∈ enclosing ·.2)).map (·.1) := by
    rw [List.find?_map, Option.map_map]
    rfl
  rw [hfind, hspaces, ← hfind]

theorem isSome_conflict? (types : Dict Resource) (name : String) (r : Resource) :
    (conflict? types name r).isSome =
      ((user? types name).isSome && decide (r.files.toList.length ≠ 0)) := by
  unfold conflict?
  cases user? types name with
  | none => rfl
  | some user => cases r.files.toList <;> rfl

theorem length_conflicts (types : Dict Resource) :
    (types.toList.filterMap fun p => conflict? types p.1 p.2).length =
      (types.toList.map fun p => (conflict? types p.1 p.2).isSome).countP id := by
  rw [List.length_filterMap_eq_countP, List.countP_map]
  rfl

theorem Moved.dropConflicts {c c' : Catalogue} (h : c.Moved o o' c') :
    c.dropConflicts.Moved o o' c'.dropConflicts := by
  have huser : user? c.types = user? c'.types := funext h.user?_eq
  have hconflicts : c.types.toList.map (fun p => (conflict? c.types p.1 p.2).isSome) =
      c'.types.toList.map fun p => (conflict? c'.types p.1 p.2).isSome := by
    apply h.types.map_toList
    intro name r r' hr
    rw [isSome_conflict?, isSome_conflict?, huser, hr.files.length_eq]
  constructor
  · unfold Catalogue.dropConflicts
    rw [huser]
    exact h.types.filter _
  · change (c.errors ++ _).length = (c'.errors ++ _).length
    rw [List.length_append, List.length_append, h.errors, length_conflicts, hconflicts,
      ← length_conflicts]

theorem moved_ofFiles (ho : o.Rebased o') {files files' : List TextFile}
    (hfiles : List.Forall₂ (TextFile.Moved o o') files files') :
    (ofFiles o files).Moved o o' (ofFiles o' files') := (moved_collect ho hfiles).dropConflicts

end Catalogue

def SourceUnit.sourceLine (o : Options) (p : String × Path) : String :=
  s!"//       {p.1}: {shownPath o p.2}"

namespace Resource.Moved

variable {r r' : Resource} (h : r.Moved o o' r')

include h

theorem fullName_eq : r.fullName = r'.fullName := by
  rw [fullName, h.nameSpace, h.baseName]
  rfl

theorem header_eq : SourceUnit.header r o = SourceUnit.header r' o' := by
  have hsources : r.sources.map (SourceUnit.sourceLine o) =
      r'.sources.map (SourceUnit.sourceLine o') := by
    rw [sources, sources, List.map_map, List.map_map]
    apply h.files.map_toList
    intro language f g hf
    simp only [Function.comp_apply, SourceUnit.sourceLine, hf.shownPath_eq]
  unfold SourceUnit.header
  exact congrArg (fun ls => _ ++ ls ++ _) hsources

theorem ofMerged_eq (m : Merged) : SourceUnit.ofMerged m r o = SourceUnit.ofMerged m r' o' := by
  have hspace : r.dottedNameSpace = r'.dottedNameSpace := congrArg dotted h.nameSpace
  unfold SourceUnit.ofMerged SourceUnit.sourceText SourceUnit.structLines SourceUnit.tableLines
    SourceUnit.tableFile
  simp only [unitName, h.fullName_eq, h.nameSpace, h.baseName, h.header_eq, hspace]

theorem entriesOf_eq : Compile.entriesOf r = Compile.entriesOf r' := by
  apply Dict.ext_get?
  intro language
  have hfile := h.files.get? language
  rw [Compile.entriesOf, Compile.entriesOf, Dict.get?_filterMap, Dict.get?_filterMap,
    Dict.get?_mapValues, Dict.get?_mapValues]
  generalize r.files.get? language = f at hfile ⊢
  generalize r'.files.get? language = g at hfile ⊢
  cases hfile with
  | none => rfl
  | some hf => exact hf.alike_parse.entries?

theorem map_severity_fileReports :
    (Compile.fileReports r).map Diagnostic.severity =
      (Compile.fileReports r').map Diagnostic.severity := by
  have hreports (r : Resource) : (Compile.fileReports r).map Diagnostic.severity =
      (r.files.toList.map fun p =>
        (Compile.fileDiagnostics p.2.parse).map Diagnostic.severity).flatten := by
    rw [Compile.fileReports, Dict.values, Dict.mapValues, List.map_flatMap, List.map_map,
      List.flatMap_def, List.map_map]
    rfl
  rw [hreports, hreports]
  exact congrArg List.flatten (h.files.map_toList fun _ _ _ hf => hf.alike_parse.map_severity)

end Resource.Moved

namespace Compile

def Prepared.view (q : Prepared) : Except Error SourceUnit × List Severity :=
  (q.unit, q.diagnostics.map Diagnostic.severity)

theorem files_prepare (o : Options) (fallbackLanguage typeName : String) (r : Resource) :
    (prepare o fallbackLanguage typeName r).files = r.files.values := by
  unfold prepare
  dsimp only
  split <;> rfl

section

variable {r r' : Resource} (h : r.Moved o o' r') (fallbackLanguage typeName : String)

include h

theorem view_prepare : (prepare o fallbackLanguage typeName r).view =
    (prepare o' fallbackLanguage typeName r').view := by
  cases hmerge : merge typeName (entriesOf r) fallbackLanguage with
  | error e =>
    rw [prepare_of_error hmerge, prepare_of_error (h.entriesOf_eq ▸ hmerge)]
    simp only [Prepared.view, h.map_severity_fileReports]
  | ok p =>
    obtain ⟨m, warnings⟩ := p
    rw [prepare_of_ok hmerge, prepare_of_ok (h.entriesOf_eq ▸ hmerge)]
    simp only [Prepared.view, h.ofMerged_eq, List.map_append, h.map_severity_fileReports]

theorem questions_prepare : (prepare o fallbackLanguage typeName r).questions =
    (prepare o' fallbackLanguage typeName r').questions := by
  have hunit := congrArg Prod.fst (view_prepare h fallbackLanguage typeName)
  have hlength : r.files.values.length = r'.files.values.length := by
    rw [Dict.values, Dict.values, List.length_map, List.length_map, h.files.length_eq]
  simp only [Prepared.view] at hunit
  simp only [Prepared.questions, files_prepare, List.map_const', hlength, hunit]

end

end Compile

inductive TextFile.GivenFrom (base : Path) (f : TextFile) : TextFile → Prop
  | asSuch : GivenFrom base f f
  | joined : GivenFrom base f { f with path := base.join f.path }

theorem TextFile.GivenFrom.components_resolve (hbase : o.baseDir.isAbsolute = true) {f g : TextFile}
    (hrelative : ¬f.path.isAbsolute = true) (h : GivenFrom o.baseDir f g) :
    (o.resolve g.path).components = o.baseDir.components ++ f.path.steps := by
  have hne := Path.bytes_ne_nil_of_isAbsolute hbase
  have hjoin := Path.components_join_steps hrelative hne
  cases h with
  | asSuch => exact hjoin
  | joined =>
    have habsolute : (o.baseDir.join f.path).isAbsolute = true :=
      (Path.isAbsolute_join hrelative hne).trans hbase
    change (o.baseDir.join (o.baseDir.join f.path)).components = _
    rw [Path.join_of_isAbsolute habsolute, hjoin]

theorem TextFile.GivenFrom.moved (ho : o.Rebased o') {f g g' : TextFile}
    (hrelative : ¬f.path.isAbsolute = true) (h : GivenFrom o.baseDir f g)
    (h' : GivenFrom o'.baseDir f g') : g.Moved o o' g' := by
  have hsteps := h.components_resolve ho.isAbsolute.1 hrelative
  have hsteps' := h'.components_resolve ho.isAbsolute.2 hrelative
  cases h with
  | asSuch => cases h' <;> exact ⟨⟨_, hsteps, hsteps'⟩, rfl, rfl, rfl, rfl⟩
  | joined => cases h' <;> exact ⟨⟨_, hsteps, hsteps'⟩, rfl, rfl, rfl, rfl⟩

theorem TextFile.moved_of_given (ho : o.Rebased o') {files given given' : List TextFile}
    (hrelative : ∀ f ∈ files, ¬f.path.isAbsolute = true)
    (hgiven : List.Forall₂ (GivenFrom o.baseDir) files given)
    (hgiven' : List.Forall₂ (GivenFrom o'.baseDir) files given') :
    List.Forall₂ (Moved o o') given given' := by
  induction hgiven generalizing given' with
  | nil =>
    cases hgiven'
    exact .nil
  | cons hf _ ih =>
    obtain ⟨hhead, htail⟩ := List.forall_mem_cons.1 hrelative
    cases hgiven' with
    | cons hf' hrest => exact .cons (hf.moved ho hhead hf') (ih htail hrest)

end Phrasebook
