import Phrasebook.Proofs.Conflicts
import Phrasebook.Proofs.Items
import Phrasebook.Proofs.Partition

namespace Phrasebook

namespace Catalogue

def textType : String := "str"

/-- An item of the module is called as the type of texts is. -/
def HidesTextType (types : Dict Resource) (path : List String) : Prop :=
  textType ∈ (itemsIn types path).map Identifier.render

/-- Where a unit stands, no generated item is called as the type of its texts. -/
structure KeepsTextType (types : Dict Resource) : Prop where
  structs : ∀ r ∈ types.values, Identifier.render r.baseName ≠ textType
  modules : ∀ path, (indexModule types path).files ≠ [] →
    ∀ name ∈ (indexModule types path).names, Identifier.render name ≠ textType

theorem render_eq_textType_iff {name : String} (h : Identifier.IsWord name) :
    Identifier.render name = textType ↔ name = textType := by
  have hword : Identifier.IsWord textType := Identifier.isWord_of_isIdentifier (by decide)
  have hself : Identifier.render textType = textType := by decide
  have hshadow : ¬Identifier.Shadows textType name := fun h => absurd h.1 (by decide)
  have hshadowed : ¬Identifier.Shadows name textType := by
    have hnone : ∀ w ∈ Identifier.suffixedKeywords, textType ≠ w ++ "_" := by decide
    exact fun h => hnone name h.1 h.2
  rw [← hself, Identifier.render_eq_render_iff h hword, hself]
  exact or_iff_left (not_or.2 ⟨hshadowed, hshadow⟩)

section

variable {o : Options} {files : List TextFile} {types : Dict Resource}
  (hsound : Sound o files types)

include hsound

theorem files_indexModule_ne_nil {path : List String} :
    (indexModule types path).files ≠ [] ↔ ∃ r ∈ types.values, r.nameSpace = path := by
  have hmem {file : String} : file ∈ (indexModule types path).files ↔
      ∃ r ∈ types.values, r.unitName = file ∧ r.nameSpace = path := by
    rw [indexModule, ModuleTree.mem_files_ofUnits, get?_unitSpaces hsound]
  constructor
  · intro hne
    obtain ⟨file, hfile⟩ := List.exists_mem_of_ne_nil _ hne
    obtain ⟨r, hr, -, hspace⟩ := hmem.1 hfile
    exact ⟨r, hr, hspace⟩
  · rintro ⟨r, hr, hspace⟩
    exact List.ne_nil_of_mem (hmem.2 ⟨r, hr, rfl, hspace⟩)

theorem keepsTextType_iff :
    KeepsTextType types ↔ ∀ r ∈ types.values, ¬HidesTextType types r.nameSpace := by
  constructor
  · intro h r hr hhides
    obtain ⟨name, hname, hrender⟩ := List.mem_map.1 hhides
    rcases List.mem_append.1 hname with hname | hname
    · obtain ⟨other, hother, rfl⟩ := List.mem_map.1 hname
      exact h.structs other ((mem_structsIn hsound).1 hother).1 hrender
    · exact h.modules _ ((files_indexModule_ne_nil hsound).2 ⟨r, hr, rfl⟩) name hname hrender
  · intro h
    constructor
    case structs =>
      intro r hr hrender
      have hstruct : r ∈ structsIn types r.nameSpace := (mem_structsIn hsound).2 ⟨hr, rfl⟩
      have hitem := List.mem_append_left (indexModule types r.nameSpace).names
        (List.mem_map_of_mem (f := Resource.baseName) hstruct)
      exact h r hr (List.mem_map.2 ⟨r.baseName, hitem, hrender⟩)
    case modules =>
      intro path hfiles name hname hrender
      obtain ⟨r, hr, rfl⟩ := (files_indexModule_ne_nil hsound).1 hfiles
      exact h r hr (List.mem_map.2 ⟨name, List.mem_append_right _ hname, hrender⟩)

theorem hidesTextType_iff (hvalid : o.validate = .ok ()) {path : List String} :
    HidesTextType types path ↔
      ∃ r ∈ types.values, path ++ [textType] <+: r.nameSpace ++ [r.baseName] := by
  have hitems : HidesTextType types path ↔ textType ∈ itemsIn types path := by
    rw [HidesTextType, List.mem_map]
    constructor
    · rintro ⟨name, hname, hrender⟩
      exact (render_eq_textType_iff (isWord_items hsound hvalid path name hname)).1 hrender ▸ hname
    · exact fun h => ⟨textType, h, by decide⟩
  rw [hitems, mem_itemsIn hsound]
  refine exists_congr fun r => and_congr_right fun _ => ?_
  rw [List.prefix_concat_iff, List.append_singleton_inj]
  exact or_congr_left ⟨fun h => ⟨h.1.symm, h.2.symm⟩, fun h => ⟨h.1.symm, h.2.symm⟩⟩

end

variable {o : Options} {files : List TextFile}

/-- A type that is dropped leaves others in the namespace of its name, so that all files count. -/
theorem hidesTextType_ofFiles_iff (hvalid : o.validate = .ok ()) {path : List String} :
    HidesTextType (ofFiles o files).types path ↔ ∃ f ∈ files, ∃ p, Placement.find o f = .ok p ∧
      path ++ [textType] <+: p.nameSpace ++ [p.baseName] := by
  rw [hidesTextType_iff (sound_ofFiles o files) hvalid]
  constructor
  · rintro ⟨r, hr, hleads⟩
    obtain ⟨name, hr⟩ := Dict.mem_values_iff.1 hr
    obtain ⟨language, f, hf⟩ := (arranged_ofFiles hvalid files).exists_file hr
    obtain ⟨hfind, -⟩ := (arranged_ofFiles hvalid files).find hr hf
    obtain ⟨hmem, -⟩ := (sound_ofFiles o files).placed hr hf
    exact ⟨f, hmem, _, hfind, hleads⟩
  · rintro ⟨f, hf, p, hfind, hleads⟩
    obtain ⟨r, g, hr, -⟩ := taken_collect files hf hfind
    have hsame : p.nameSpace ++ [p.baseName] = r.nameSpace ++ [r.baseName] := by
      obtain ⟨hname, q, hq, hspace, hbase⟩ := fits_of_mem (sound_collect files) hr
      have hfull : p.fullName = q.fullName := by
        rw [← hname, Resource.fullName, ← hspace, ← hbase]
        rfl
      obtain ⟨hspace', hbase'⟩ := (Placement.fits_of_find hfind).eq_of_fullName hq hvalid hfull
      rw [hspace', hbase', hspace, hbase]
    rw [hsame] at hleads
    cases hkept : (ofFiles o files).types.get? p.fullName with
    | some kept =>
      obtain rfl : kept = r := Option.some.inj ((get?_dropConflicts.1 hkept).1.symm.trans hr)
      exact ⟨kept, Dict.mem_values_iff.2 ⟨_, hkept⟩, hleads⟩
    | none =>
      have hsound := sound_collect (o := o) files
      obtain ⟨other, user, huser, hnone, hencloses⟩ :=
        exists_innermost hsound hvalid ((get?_dropConflicts_eq_none hr).1 hkept)
      have hfurther := (encloses_iff_leads hsound hvalid hr huser).1 hencloses
      have hstays : (ofFiles o files).types.get? other = some user :=
        get?_dropConflicts.2 ⟨huser, hnone⟩
      exact ⟨user, Dict.mem_values_iff.2 ⟨other, hstays⟩,
        (hleads.trans hfurther).trans (List.prefix_append _ _)⟩

/-- A batch keeps the type of texts in reach of its units exactly if no file is placed under its
name in the namespace of a unit. -/
theorem keepsTextType_ofFiles_iff (o : Options) (hvalid : o.validate = .ok ())
    (files : List TextFile) : KeepsTextType (ofFiles o files).types ↔
      ∀ r ∈ (ofFiles o files).types.values, ∀ f ∈ files, ∀ p, Placement.find o f = .ok p →
        ¬r.nameSpace ++ [textType] <+: p.nameSpace ++ [p.baseName] := by
  rw [keepsTextType_iff (sound_ofFiles o files)]
  refine forall₂_congr fun r _ => ?_
  rw [hidesTextType_ofFiles_iff hvalid]
  push Not
  rfl

theorem keepsTextType_ofFiles_iff_sample : Options.sample.validate = .ok () ∧
    KeepsTextType (ofFiles .sample [.sample "Menu.en.csv", .sample "admin/str/Help.en.csv"]).types ∧
    ¬KeepsTextType (ofFiles .sample [.sample "Menu.en.csv", .sample "str/Help.en.csv"]).types := by
  have hvalid : Options.sample.validate = .ok () := by decide +kernel
  refine ⟨hvalid, ?_, ?_⟩
  · rw [keepsTextType_ofFiles_iff .sample hvalid]
    intro r hr f hf p hfind
    have hfound : p ∈ (Placement.find .sample f).toOption := by rw [hfind]; rfl
    clear hfind
    revert p f r
    decide +kernel
  · rw [keepsTextType_ofFiles_iff .sample hvalid]
    intro h
    have hfind : Placement.find .sample (.sample "str/Help.en.csv") =
        .ok ⟨["App", "str"], "Help", "en"⟩ := by decide +kernel
    have hbeside : ∃ r ∈ (ofFiles .sample [.sample "Menu.en.csv",
        .sample "str/Help.en.csv"]).types.values, r.nameSpace = ["App"] := by decide +kernel
    obtain ⟨r, hr, hspace⟩ := hbeside
    exact h r hr _ (by simp) _ hfind (by rw [hspace]; decide)

theorem exists_textType_shadowed : ¬∀ (o : Options) (files : List TextFile),
    o.validate = .ok () → KeepsTextType (ofFiles o files).types := by
  intro h
  have hkeeps := h .sample [.sample "str.en.csv"] (by decide +kernel)
  have hall : ∀ r ∈ (ofFiles .sample [.sample "str.en.csv"]).types.values,
      Identifier.render r.baseName ≠ textType := hkeeps.structs
  revert hall
  decide +kernel

end Catalogue

end Phrasebook
