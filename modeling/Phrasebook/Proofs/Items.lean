import Mathlib.Data.List.Nodup
import Phrasebook.Proofs.Filing
import Phrasebook.Proofs.ModuleTree

namespace Phrasebook

theorem Catalogue.mem_enclosing {path space : List String} (hpath : path ≠ [])
    (h : path <+: space) : dotted path ∈ enclosing space := by
  have hpos := List.length_pos_iff.2 hpath
  have hlt : path.length - 1 < space.length :=
    Nat.lt_of_lt_of_le (Nat.sub_lt hpos Nat.one_pos) h.length_le
  refine List.mem_map.2 ⟨path.length - 1, List.mem_range.2 hlt, ?_⟩
  rw [Nat.sub_add_cancel hpos, ← List.prefix_iff_eq_take.1 h]

def unitSpaces (types : Dict Resource) : Dict (List String) :=
  .ofList (types.values.map fun r => (r.unitName, r.nameSpace))

def indexModule (types : Dict Resource) (path : List String) : ModuleTree :=
  (ModuleTree.ofUnits (unitSpaces types)).under path

def structsIn (types : Dict Resource) (path : List String) : List Resource :=
  types.values.filter fun r => r.unitName ∈ (indexModule types path).files

/-- The items that the module declares: the structs of its types, and its child modules. -/
def itemsIn (types : Dict Resource) (path : List String) : List String :=
  (structsIn types path).map (·.baseName) ++ (indexModule types path).names

namespace Catalogue

section

variable {o : Options} {files : List TextFile} {types : Dict Resource}
  (hsound : Sound o files types)

include hsound

theorem nodup_fullNames : (types.values.map Resource.fullName).Nodup := by
  have hkeys : types.values.map Resource.fullName = types.keys := by
    rw [Dict.values, Dict.keys, List.map_map]
    apply List.map_congr_left
    rintro ⟨name, r⟩ hr
    exact (fits_of_mem hsound (Dict.mem_toList_iff.1 hr)).1
  exact hkeys ▸ types.nodup_keys

theorem nodup_unitNames :
    ((types.values.map fun r => (r.unitName, r.nameSpace)).map (·.1)).Nodup := by
  have hmap : (types.values.map fun r => (r.unitName, r.nameSpace)).map (·.1) =
      (types.values.map Resource.fullName).map (· ++ ".g.rs") := by
    rw [List.map_map, List.map_map]
    rfl
  rw [hmap]
  exact (nodup_fullNames hsound).map fun _ _ => (String.append_left_inj _).1

theorem get?_unitSpaces {file : String} {space : List String} :
    (unitSpaces types).get? file = some space ↔
      ∃ r ∈ types.values, r.unitName = file ∧ r.nameSpace = space := by
  rw [unitSpaces, Dict.get?_ofList (nodup_unitNames hsound), List.mem_map]
  simp only [Prod.mk.injEq]

theorem mem_structsIn {path : List String} {r : Resource} :
    r ∈ structsIn types path ↔ r ∈ types.values ∧ r.nameSpace = path := by
  rw [structsIn, List.mem_filter, decide_eq_true_iff, indexModule, ModuleTree.mem_files_ofUnits,
    get?_unitSpaces hsound]
  apply and_congr_right
  intro hr
  constructor
  · rintro ⟨r', hr', hname, rfl⟩
    have hfull : r'.fullName = r.fullName := (String.append_left_inj _).1 hname
    rw [List.inj_on_of_nodup_map (nodup_fullNames hsound) hr' hr hfull]
  · exact fun hspace => ⟨r, hr, rfl, hspace⟩

theorem mem_names_indexModule {path : List String} {s : String} :
    s ∈ (indexModule types path).names ↔ ∃ r ∈ types.values, path ++ [s] <+: r.nameSpace := by
  rw [indexModule, ModuleTree.mem_names_ofUnits]
  constructor
  · rintro ⟨file, space, hget, hprefix⟩
    obtain ⟨r, hr, -, rfl⟩ := (get?_unitSpaces hsound).1 hget
    exact ⟨r, hr, hprefix⟩
  · rintro ⟨r, hr, hprefix⟩
    exact ⟨_, _, (get?_unitSpaces hsound).2 ⟨r, hr, rfl, rfl⟩, hprefix⟩

theorem nodup_structs (path : List String) : ((structsIn types path).map (·.baseName)).Nodup := by
  have hvalues : types.values.Nodup := (nodup_fullNames hsound).of_map
  refine (hvalues.filter _).map_on ?_
  intro r hr r' hr' hbase
  obtain ⟨hr, hspace⟩ := (mem_structsIn hsound).1 hr
  obtain ⟨hr', hspace'⟩ := (mem_structsIn hsound).1 hr'
  apply List.inj_on_of_nodup_map (nodup_fullNames hsound) hr hr'
  rw [Resource.fullName, Resource.fullName, hspace, hspace', hbase]

theorem mem_itemsIn {path : List String} {s : String} : s ∈ itemsIn types path ↔
    ∃ r ∈ types.values, r.nameSpace = path ∧ r.baseName = s ∨ path ++ [s] <+: r.nameSpace := by
  rw [itemsIn, List.mem_append, List.mem_map, mem_names_indexModule hsound]
  constructor
  · rintro (⟨r, hr, hbase⟩ | ⟨r, hr, hprefix⟩)
    · obtain ⟨hr, hspace⟩ := (mem_structsIn hsound).1 hr
      exact ⟨r, hr, .inl ⟨hspace, hbase⟩⟩
    · exact ⟨r, hr, .inr hprefix⟩
  · rintro ⟨r, hr, ⟨hspace, hbase⟩ | hprefix⟩
    · exact .inl ⟨r, (mem_structsIn hsound).2 ⟨hr, hspace⟩, hbase⟩
    · exact .inr ⟨r, hr, hprefix⟩

theorem isWord_items (hvalid : o.validate = .ok ()) (path : List String) :
    ∀ s ∈ itemsIn types path, Identifier.IsWord s := by
  intro s hs
  apply Identifier.isWord_of_isIdentifier
  obtain ⟨r, hr, hs⟩ := (mem_itemsIn hsound).1 hs
  obtain ⟨name, hr⟩ := Dict.mem_values_iff.1 hr
  obtain ⟨-, p, hfits, hspace, hbase⟩ := fits_of_mem hsound hr
  have hall := hfits.isIdentifier hvalid
  rw [hspace, hbase] at hall
  rcases hs with ⟨-, rfl⟩ | hprefix
  · exact hall _ (List.mem_append_right _ List.mem_cons_self)
  · have hmem : s ∈ r.nameSpace := hprefix.subset (List.mem_append_right _ List.mem_cons_self)
    exact hall s (List.mem_append_left _ hmem)

end

theorem nodup_itemsIn (o : Options) (files : List TextFile) (path : List String) :
    (itemsIn (ofFiles o files).types path).Nodup := by
  have hsound := sound_ofFiles o files
  refine (nodup_structs hsound path).append (ModuleTree.ordered_ofUnits _ |>.nodup_names path) ?_
  intro s hstruct hname
  obtain ⟨r, hin, rfl⟩ := List.mem_map.1 hstruct
  obtain ⟨hvalue, rfl⟩ := (mem_structsIn hsound).1 hin
  obtain ⟨name, hr⟩ := Dict.mem_values_iff.1 hvalue
  obtain ⟨user, huser, hprefix⟩ := (mem_names_indexModule hsound).1 hname
  obtain ⟨other, huser⟩ := Dict.mem_values_iff.1 huser
  have hnone := (get?_dropConflicts.1 hr).2
  apply user?_eq_none_iff.1 hnone other user (get?_dropConflicts.1 huser).1
  rw [← (fits_of_mem hsound hr).1, Resource.fullName, fullName_eq_dotted]
  exact mem_enclosing (List.append_ne_nil_of_right_ne_nil _ (List.cons_ne_nil _ _)) hprefix

/-- In each module of generated source the items have distinct names, and they stay distinct in
writing exactly if none is a keyword without a raw form that another one is with an underscore. -/
theorem nodup_written_items_iff (o : Options) (hvalid : o.validate = .ok ())
    (files : List TextFile) (path : List String) :
    (itemsIn (ofFiles o files).types path).Nodup ∧
      (((itemsIn (ofFiles o files).types path).map Identifier.render).Nodup ↔
        ∀ w ∈ Identifier.suffixedKeywords, w ∈ itemsIn (ofFiles o files).types path →
          w ++ "_" ∉ itemsIn (ofFiles o files).types path) :=
  ⟨nodup_itemsIn o files path, Identifier.nodup_map_render_iff (nodup_itemsIn o files path)
    (isWord_items (sound_ofFiles o files) hvalid path)⟩

theorem nodup_written_items_iff_sample :
    let types := (ofFiles .sample [.sample "self.en.csv", .sample "self_.Menu.en.csv"]).types
    (itemsIn types ["App"]).Nodup ∧ ¬((itemsIn types ["App"]).map Identifier.render).Nodup := by
  intro types
  obtain ⟨hnodup, hwritten⟩ := nodup_written_items_iff .sample (by decide +kernel)
    [.sample "self.en.csv", .sample "self_.Menu.en.csv"] ["App"]
  refine ⟨hnodup, fun h => ?_⟩
  have hself : "self" ∈ Identifier.suffixedKeywords := by decide
  have hstruct : "self" ∈ itemsIn types ["App"] := by decide +kernel
  have hsuffixed : "self" ++ "_" ∈ itemsIn types ["App"] := by decide +kernel
  exact hwritten.1 h "self" hself hstruct hsuffixed

theorem exists_items_written_alike : ¬∀ (o : Options) (files : List TextFile) (path : List String),
    o.validate = .ok () →
      ((itemsIn (ofFiles o files).types path).map Identifier.render).Nodup := by
  intro h
  have hnodup := h .sample [.sample "self.en.csv", .sample "self_.Menu.en.csv"] ["App"]
    (by decide +kernel)
  revert hnodup
  decide +kernel

end Catalogue

end Phrasebook
