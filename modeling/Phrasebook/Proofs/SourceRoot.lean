import Phrasebook.Proofs.Catalogue
import Phrasebook.Proofs.FileName
import Phrasebook.Proofs.Path

namespace Phrasebook

namespace Options

open Phrasebook.Path

/-- The base directory may be joined twice: one of the directories is absolute, or the source
directory is met again behind the base directory. -/
def RootAgrees (o : Options) : Prop :=
  o.baseDir.isAbsolute = true ∨ o.sourceDir.isAbsolute = true ∨
    o.sourceDir.steps <+: o.baseDir.steps ++ o.sourceDir.steps

instance (o : Options) : Decidable o.RootAgrees := inferInstanceAs (Decidable (_ ∨ _))

variable {o : Options} {r : Path} {names : List (List UInt8)}

theorem isAbsolute_sourceRoot_iff :
    o.sourceRoot.isAbsolute = true ↔
      o.baseDir.isAbsolute = true ∨ o.sourceDir.isAbsolute = true := by
  unfold sourceRoot
  by_cases hsource : o.sourceDir.isAbsolute = true
  · rw [join_of_isAbsolute hsource]
    exact (or_iff_right_of_imp fun _ => hsource).symm
  · by_cases hbase : o.baseDir.bytes = []
    · rw [join_of_bytes_eq_nil hbase]
      exact (or_iff_right fun h => bytes_ne_nil_of_isAbsolute h hbase).symm
    · rw [isAbsolute_join hsource hbase]
      exact (or_iff_left hsource).symm

theorem resolve_sourceRoot_join (hr : r.components = names.map .name)
    (h : o.sourceRoot.isAbsolute = true ∨ o.baseDir.bytes = []) :
    (o.resolve (o.sourceRoot.join r)).components = o.sourceRoot.components ++ r.components := by
  obtain ⟨hrelative, hlead⟩ := lead_of_names hr
  have hresolve : o.resolve (o.sourceRoot.join r) = o.sourceRoot.join r := by
    rcases h with h | h
    · apply join_of_isAbsolute
      rw [isAbsolute_join hrelative (bytes_ne_nil_of_isAbsolute h)]
      exact h
    · exact join_of_bytes_eq_nil h
  rw [hresolve, components_join hrelative hlead]

/-- Elsewhere the steps of the base directory come twice. -/
theorem resolve_sourceRoot_join_twice (hr : r.components = names.map .name)
    (hroot : ¬o.sourceRoot.isAbsolute = true) (hbase : o.baseDir.bytes ≠ []) :
    o.sourceRoot.components = o.baseDir.lead ++ (o.baseDir.steps ++ o.sourceDir.steps) ∧
      (o.resolve (o.sourceRoot.join r)).components = o.baseDir.lead ++
        (o.baseDir.steps ++ (o.baseDir.steps ++ o.sourceDir.steps ++ r.components)) := by
  obtain ⟨hrelative, hlead⟩ := lead_of_names hr
  have hsource : ¬o.sourceDir.isAbsolute = true := fun h =>
    hroot (isAbsolute_sourceRoot_iff.2 (.inr h))
  have hsteps : o.sourceRoot.steps = o.baseDir.steps ++ o.sourceDir.steps := steps_join hsource
  have hfile : ¬(o.sourceRoot.join r).isAbsolute = true := by
    by_cases hempty : o.sourceRoot.bytes = []
    · rw [join_of_bytes_eq_nil hempty]
      exact hrelative
    · rw [isAbsolute_join hrelative hempty]
      exact hroot
  constructor
  · rw [components_eq, hsteps]
    exact congrArg (· ++ _) (lead_join hsource hbase)
  · rw [components_eq, resolve, lead_join hfile hbase, steps_join hfile, steps_join hrelative,
      hsteps, components_eq (p := r), hlead, List.nil_append]

theorem below?_of_rootAgrees (hr : r.components = names.map .name) (h : o.RootAgrees) :
    ∃ extra, (o.resolve (o.sourceRoot.join r)).below? o.sourceRoot =
      some (extra ++ r.components) := by
  by_cases hroot : o.sourceRoot.isAbsolute = true ∨ o.baseDir.bytes = []
  · exact ⟨[], below?_eq_some_iff.2 (resolve_sourceRoot_join hr hroot)⟩
  · obtain ⟨hrelative, hbase⟩ := not_or.1 hroot
    obtain ⟨hcomponents, hresolved⟩ := resolve_sourceRoot_join_twice hr hrelative hbase
    rw [isAbsolute_sourceRoot_iff] at hrelative
    obtain ⟨extra, hextra⟩ : o.sourceDir.steps <+: o.baseDir.steps ++ o.sourceDir.steps := by
      rcases h with h | h | h
      · exact absurd (.inl h) hrelative
      · exact absurd (.inr h) hrelative
      · exact h
    have hagain : o.baseDir.steps ++ o.sourceDir.steps ++ r.components =
        o.sourceDir.steps ++ (extra ++ r.components) := by
      rw [← hextra, List.append_assoc]
    refine ⟨extra, below?_eq_some_iff.2 ?_⟩
    rw [hresolved, hcomponents, hagain]
    simp only [List.append_assoc]

theorem below?_of_not_rootAgrees (hr : r.components = names.map .name) (h : ¬o.RootAgrees) :
    (o.resolve (o.sourceRoot.join r)).below? o.sourceRoot = none := by
  have hbase : o.baseDir.bytes ≠ [] := by
    intro hnil
    have hsteps : o.baseDir.steps = [] := by
      rw [steps, pieces, hnil]
      rfl
    apply h
    rw [RootAgrees, hsteps]
    exact .inr (.inr List.prefix_rfl)
  have hrelative : ¬o.sourceRoot.isAbsolute = true := fun hroot =>
    h ((isAbsolute_sourceRoot_iff.1 hroot).imp_right .inl)
  obtain ⟨hcomponents, hresolved⟩ := resolve_sourceRoot_join_twice hr hrelative hbase
  rw [below?_eq_none_iff, hcomponents, hresolved, List.prefix_append_right_inj,
    List.prefix_append_right_inj]
  intro hprefix
  apply h
  refine .inr (.inr (List.prefix_of_prefix_length_le hprefix (List.prefix_append _ _) ?_))
  rw [List.length_append]
  exact Nat.le_add_left _ _

end Options

structure TextFile.IsFoundAt (f : TextFile) (o : Options) (r : Path) (n : FileName) : Prop where
  path : f.path = o.sourceRoot.join r
  names : ∃ directories : List (List UInt8), r.components = (directories ++ [n.bytes]).map .name
  language : f.language = none

namespace Placement

variable {o : Options} {f : TextFile} {r : Path} {n : FileName}

theorem find_of_rootAgrees (hf : f.IsFoundAt o r n) (h : o.RootAgrees) : ∃ directories,
    find o f = .ok ⟨o.rootSegments ++ directories ++ n.segments, n.baseName, n.language⟩ := by
  obtain ⟨names, hnames⟩ := hf.names
  obtain ⟨extra, hbelow⟩ := Options.below?_of_rootAgrees hnames h
  rw [← hf.path] at hbelow
  apply find_fileName n hf.language hbelow
  rw [hnames, List.map_append, ← List.append_assoc, Path.fileNameOf?]
  exact congrArg (Option.bind · Path.Component.name?) List.getLast?_concat

theorem find_of_not_rootAgrees (hf : f.IsFoundAt o r n) (h : ¬o.RootAgrees) :
    find o f = .error (.outside o.sourceRoot) := by
  obtain ⟨names, hnames⟩ := hf.names
  rw [find_eq_outside_iff, hf.path]
  exact Options.below?_of_not_rootAgrees hnames h

end Placement

namespace Catalogue

/-- A file that was found below the source directory is placed exactly if the base directory may be
joined twice. Otherwise it is reported as lying outside the source directory. -/
theorem placed_iff_rootAgrees {o : Options} {f : TextFile} {r : Path} {n : FileName}
    (hf : f.IsFoundAt o r n) (files : List TextFile) (hmem : f ∈ files) :
    (o.RootAgrees → (∃ p, Placement.find o f = .ok p ∧ p.baseName = n.baseName ∧
        p.language = n.language ∧ ((ofFiles o files).Taken p ∨
          ∃ path user, .namespaceConflict path p.fullName user ∈ (ofFiles o files).errors)) ∧
      .unrecognizedName f.path (.outside o.sourceRoot) ∉ (ofFiles o files).errors) ∧
    (¬o.RootAgrees → Placement.find o f = .error (.outside o.sourceRoot) ∧
      .unrecognizedName f.path (.outside o.sourceRoot) ∈ (ofFiles o files).errors) := by
  constructor
  · intro h
    obtain ⟨directories, hfind⟩ := Placement.find_of_rootAgrees hf h
    refine ⟨⟨_, hfind, rfl, rfl, taken_ofFiles files hmem hfind⟩, ?_⟩
    rw [mem_unrecognized_iff]
    rintro ⟨g, -, hpath, hg⟩
    rw [Placement.find_eq_outside_iff, hpath, ← Placement.find_eq_outside_iff, hfind] at hg
    cases hg
  · intro h
    have hfind := Placement.find_of_not_rootAgrees hf h
    exact ⟨hfind, (mem_unrecognized_iff files _ _).2 ⟨f, hmem, rfl, hfind⟩⟩

end Catalogue

def FileName.sample : FileName where
  segments := []
  baseName := "Greeting"
  tag := "en"
  extension := "csv"
  language := "en"
  identifiers := by decide
  canonical := by decide +kernel
  dotless := by decide

def Options.relative : Options := { Options.sample with baseDir := .ofString "project" }

def TextFile.relative : TextFile :=
  { TextFile.sample "Greeting.en.csv" with path := .ofString "project/texts/Greeting.en.csv" }

theorem TextFile.isFoundAt_sample :
    (TextFile.sample "Greeting.en.csv").IsFoundAt .sample (.ofString "Greeting.en.csv")
      .sample where
  path := by decide +kernel
  names := ⟨[], by decide +kernel⟩
  language := rfl

theorem TextFile.isFoundAt_relative :
    TextFile.relative.IsFoundAt .relative (.ofString "Greeting.en.csv") .sample where
  path := by decide +kernel
  names := ⟨[], by decide +kernel⟩
  language := rfl

namespace Catalogue

theorem placed_iff_rootAgrees_sample :
    (∃ p, Placement.find .sample (.sample "Greeting.en.csv") = .ok p ∧ p.baseName = "Greeting") ∧
      Error.unrecognizedName TextFile.relative.path (.outside Options.relative.sourceRoot) ∈
        (ofFiles .relative [.relative]).errors := by
  obtain ⟨⟨p, hp, hname, -⟩, -⟩ := (placed_iff_rootAgrees TextFile.isFoundAt_sample
    [.sample "Greeting.en.csv"] List.mem_cons_self).1 (by decide +kernel)
  obtain ⟨-, herror⟩ := (placed_iff_rootAgrees TextFile.isFoundAt_relative
    [.relative] List.mem_cons_self).2 (by decide +kernel)
  exact ⟨⟨p, hp, hname⟩, herror⟩

theorem exists_found_not_placed : ¬∀ (o : Options) (f : TextFile) (r : Path) (n : FileName),
    f.IsFoundAt o r n → ∃ p, Placement.find o f = .ok p := by
  intro h
  obtain ⟨p, hp⟩ := h _ _ _ _ TextFile.isFoundAt_relative
  have hoff := Placement.find_of_not_rootAgrees TextFile.isFoundAt_relative (by decide +kernel)
  cases hoff.symm.trans hp

end Catalogue

end Phrasebook
