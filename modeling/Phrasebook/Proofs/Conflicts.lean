import Mathlib.Data.List.Forall2
import Mathlib.Data.Set.Finite.Lemmas
import Phrasebook.Proofs.Items

/-!
Types and the namespaces of others. A type is dropped exactly if another one stands in a namespace
of its name, and each is reported with the first such type. Of the types that bring another one
down, the innermost stay, so something is left below every name that is dropped.
-/

namespace Phrasebook

namespace Catalogue

def Encloses (name : String) (r : Resource) : Prop :=
  ∃ path, path ≠ [] ∧ path <+: r.nameSpace ∧ dotted path = name

theorem encloses_iff_mem {name : String} {r : Resource} :
    Encloses name r ↔ name ∈ enclosing r.nameSpace := by
  constructor
  · rintro ⟨path, hne, hleads, rfl⟩
    exact mem_enclosing hne hleads
  · intro hmem
    obtain ⟨n, hn, rfl⟩ := List.mem_map.1 hmem
    refine ⟨r.nameSpace.take (n + 1), ?_, List.take_prefix _ _, rfl⟩
    intro hnil
    have hlength := congrArg List.length hnil
    rw [List.length_take, List.length_nil] at hlength
    have := List.mem_range.1 hn
    omega

theorem Encloses.mono {name : String} {r s : Resource} (h : Encloses name r)
    (hleads : r.nameSpace <+: s.nameSpace) : Encloses name s := by
  obtain ⟨path, hne, hpath, hname⟩ := h
  exact ⟨path, hne, hpath.trans hleads, hname⟩

def IsFirstUser (types : Dict Resource) (name user : String) : Prop :=
  (∃ r, types.get? user = some r ∧ Encloses name r) ∧
    ∀ other r, types.get? other = some r → Encloses name r → user ≤ other

theorem isFirstUser_of_user? {types : Dict Resource} {name user : String}
    (h : user? types name = some user) : IsFirstUser types name user := by
  obtain ⟨⟨_, r⟩, hfind, rfl⟩ := Option.map_eq_some_iff.1 h
  obtain ⟨hr, hmem, hleast⟩ := Dict.find?_toList hfind
  refine ⟨⟨r, hr, encloses_iff_mem.2 (of_decide_eq_true hmem)⟩, ?_⟩
  intro other s hs hencloses
  exact hleast other s hs (decide_eq_true (encloses_iff_mem.1 hencloses))

theorem user?_ne_none_iff {types : Dict Resource} {name : String} :
    user? types name ≠ none ↔ ∃ other r, types.get? other = some r ∧ Encloses name r := by
  rw [Ne, user?_eq_none_iff]
  push Not
  simp only [encloses_iff_mem]

def Reports (types : Dict Resource) (p : String × Resource) (e : Error) : Prop :=
  ∃ language f user, p.2.files.get? language = some f ∧
    (∀ other g, p.2.files.get? other = some g → language ≤ other) ∧
    IsFirstUser types p.1 user ∧ e = .namespaceConflict f.path p.1 user

theorem reports_of_conflict? {types : Dict Resource} {name : String} {r : Resource} {e : Error}
    (h : conflict? types name r = some e) : Reports types (name, r) e := by
  unfold conflict? at h
  split at h
  · next user language f rest huser hfiles =>
    cases h
    have hfirst : r.files.toList.find? (fun _ => true) = some (language, f) := by rw [hfiles]; rfl
    obtain ⟨hf, -, hleast⟩ := Dict.find?_toList hfirst
    exact ⟨language, f, user, hf, fun other g hg => hleast other g hg rfl,
      isFirstUser_of_user? huser, rfl⟩
  · cases h

def dropped (before after : Catalogue) : List (String × Resource) :=
  before.types.toList.filter fun p => !after.types.contains p.1

/-- How conflicts are resolved. A type may be called by a namespace only if no type stands in it. -/
structure Resolves (before after : Catalogue) : Prop where
  kept : ∀ {name r}, after.types.get? name = some r → before.types.get? name = some r
  dropped_iff : ∀ {name r}, before.types.get? name = some r → (after.types.get? name = none ↔
    ∃ other s, other ≠ name ∧ before.types.get? other = some s ∧ Encloses name s)
  /-- A dotted name encloses a type as its segments do. -/
  encloses_iff : ∀ {name r other s}, before.types.get? name = some r →
    before.types.get? other = some s →
      (Encloses name s ↔ r.nameSpace ++ [r.baseName] <+: s.nameSpace)
  exists_kept : ∀ {name r}, before.types.get? name = some r → after.types.get? name = none →
    ∃ other s, after.types.get? other = some s ∧ Encloses name s
  apart : ∀ {name r other s}, after.types.get? name = some r → after.types.get? other = some s →
    ¬Encloses name s
  errors : ∃ conflicts, after.errors = before.errors ++ conflicts ∧
    (∀ e ∈ before.errors, e.code ≠ .namespaceConflict) ∧
    (dropped before after).Pairwise (fun p q => p.1 < q.1) ∧
    List.Forall₂ (Reports before.types) (dropped before after) conflicts

section

variable {o : Options} {files : List TextFile} {types : Dict Resource}
  (hsound : Sound o files types) (hvalid : o.validate = .ok ())

include hsound hvalid

theorem isIdentifier_of_get? {name : String} {r : Resource} (hr : types.get? name = some r) :
    ∀ s ∈ r.nameSpace ++ [r.baseName], Identifier.isIdentifier s = true := by
  obtain ⟨-, p, hp, hspace, hbase⟩ := fits_of_mem hsound hr
  exact hspace ▸ hbase ▸ hp.isIdentifier hvalid

theorem encloses_iff_leads {name other : String} {r s : Resource}
    (hr : types.get? name = some r) (hs : types.get? other = some s) :
    Encloses name s ↔ r.nameSpace ++ [r.baseName] <+: s.nameSpace := by
  have hname : dotted (r.nameSpace ++ [r.baseName]) = name := by
    rw [← fullName_eq_dotted]
    exact (fits_of_mem hsound hr).1
  have hne : r.nameSpace ++ [r.baseName] ≠ [] := List.append_ne_nil_of_right_ne_nil _ (by simp)
  constructor
  · rintro ⟨path, hpath, hleads, hdotted⟩
    have hdots : ∀ part ∈ path, '.' ∉ part.toList := fun part hpart => Identifier.dot_not_mem
      (isIdentifier_of_get? hsound hvalid hs part
        (List.mem_append_left _ (hleads.subset hpart)))
    have hdots' : ∀ part ∈ r.nameSpace ++ [r.baseName], '.' ∉ part.toList := fun part hpart =>
      Identifier.dot_not_mem (isIdentifier_of_get? hsound hvalid hr part hpart)
    rw [← dotted_inj hdots hdots' hpath hne (hdotted.trans hname.symm)]
    exact hleads
  · exact fun hleads => ⟨_, hne, hleads, hname⟩

theorem not_encloses_self {name : String} {r : Resource} (hr : types.get? name = some r) :
    ¬Encloses name r := by
  rw [encloses_iff_leads hsound hvalid hr hr]
  intro hleads
  have hlength := hleads.length_le
  rw [List.length_append, List.length_singleton] at hlength
  omega

theorem exists_innermost {name : String} (h : user? types name ≠ none) :
    ∃ other s, types.get? other = some s ∧ user? types other = none ∧ Encloses name s := by
  obtain ⟨other, s, hs, hencloses⟩ := user?_ne_none_iff.1 h
  have hfinite : {p ∈ types.toList | Encloses name p.2}.Finite :=
    types.toList.finite_toSet.subset fun p hp => hp.1
  obtain ⟨⟨other, s⟩, ⟨hmem, hencloses⟩, hmax⟩ := Set.exists_max_image _
    (fun p => p.2.nameSpace.length) hfinite ⟨(other, s), Dict.mem_toList_iff.2 hs, hencloses⟩
  have hs := Dict.mem_toList_iff.1 hmem
  refine ⟨other, s, hs, ?_, hencloses⟩
  by_contra huser
  obtain ⟨further, t, ht, hbelow⟩ := user?_ne_none_iff.1 huser
  have hleads := (encloses_iff_leads hsound hvalid hs ht).1 hbelow
  have hle : t.nameSpace.length ≤ s.nameSpace.length := hmax (further, t)
    ⟨Dict.mem_toList_iff.2 ht, hencloses.mono ((List.prefix_append _ _).trans hleads)⟩
  have hlt := hleads.length_le
  rw [List.length_append, List.length_singleton] at hlt
  omega

end

theorem get?_dropConflicts_eq_none {c : Catalogue} {name : String} {r : Resource}
    (hr : c.types.get? name = some r) :
    c.dropConflicts.types.get? name = none ↔ user? c.types name ≠ none := by
  rw [← Option.not_isSome_iff_eq_none, Option.isSome_iff_exists, not_iff_not]
  constructor
  · rintro ⟨s, hs⟩
    exact (get?_dropConflicts.1 hs).2
  · exact fun hnone => ⟨r, get?_dropConflicts.2 ⟨hr, hnone⟩⟩

theorem forall₂_conflicts {c : Catalogue} (hfiles : ∀ {name r}, c.types.get? name = some r →
    ∃ language f, r.files.get? language = some f) :
    List.Forall₂ (Reports c.types) (dropped c c.dropConflicts)
      (c.types.toList.filterMap fun p => conflict? c.types p.1 p.2) := by
  have hget : ∀ p ∈ c.types.toList, c.types.get? p.1 = some p.2 :=
    fun p hp => Dict.mem_toList_iff.1 hp
  unfold dropped
  generalize c.types.toList = l at hget
  induction l with
  | nil => exact .nil
  | cons p l ih =>
    obtain ⟨hp, hl⟩ := List.forall_mem_cons.1 hget
    have hdropped := get?_dropConflicts_eq_none hp
    cases huser : user? c.types p.1 with
    | none =>
      have hconflict : conflict? c.types p.1 p.2 = none := by
        unfold conflict?
        rw [huser]
      have hstays : (!c.dropConflicts.types.contains p.1) = false := by
        rw [Dict.contains, get?_dropConflicts.2 ⟨hp, huser⟩]
        rfl
      rw [List.filter_cons, if_neg (ne_true_of_eq_false hstays), List.filterMap_cons, hconflict]
      exact ih hl
    | some user =>
      obtain ⟨language, f, hf⟩ := hfiles hp
      obtain ⟨path, hconflict⟩ := conflict_of_user huser hf
      have hgone : (!c.dropConflicts.types.contains p.1) = true := by
        rw [Dict.contains, hdropped.2 (by simp [huser])]
        rfl
      rw [List.filter_cons, if_pos hgone, List.filterMap_cons, hconflict]
      exact .cons (reports_of_conflict? hconflict) (ih hl)

/-- With valid options, the types of a batch that enclose others are dropped, and no more. -/
theorem resolves_ofFiles {o : Options} (hvalid : o.validate = .ok ()) (files : List TextFile) :
    Resolves (collect o files) (ofFiles o files) := by
  have hsound := sound_collect (o := o) files
  have hsurvives {name : String} {r : Resource}
      (hr : (ofFiles o files).types.get? name = some r) :
      (collect o files).types.get? name = some r ∧ user? (collect o files).types name = none :=
    get?_dropConflicts.1 hr
  constructor
  case kept => exact fun hr => (hsurvives hr).1
  case dropped_iff =>
    intro name r hr
    refine (get?_dropConflicts_eq_none hr).trans (user?_ne_none_iff.trans ?_)
    constructor
    · rintro ⟨other, s, hs, hencloses⟩
      refine ⟨other, s, ?_, hs, hencloses⟩
      rintro rfl
      exact not_encloses_self hsound hvalid hs hencloses
    · rintro ⟨other, s, -, hs, hencloses⟩
      exact ⟨other, s, hs, hencloses⟩
  case encloses_iff => exact fun hr hs => encloses_iff_leads hsound hvalid hr hs
  case exists_kept =>
    intro name r hr hnone
    obtain ⟨other, s, hs, huser, hencloses⟩ :=
      exists_innermost hsound hvalid ((get?_dropConflicts_eq_none hr).1 hnone)
    exact ⟨other, s, get?_dropConflicts.2 ⟨hs, huser⟩, hencloses⟩
  case apart =>
    intro name r other s hr hs hencloses
    exact user?_eq_none_iff.1 (hsurvives hr).2 other s (hsurvives hs).1
      (encloses_iff_mem.1 hencloses)
  case errors =>
    refine ⟨_, rfl, ?_, (collect o files).types.ascending.filter _, forall₂_conflicts ?_⟩
    · intro e he
      rcases eq_of_mem_errors_collect files he with ⟨_, _, rfl⟩ | ⟨_, _, _, _, rfl⟩ <;>
        exact nofun
    · intro name r hr
      obtain ⟨language, f, -, hf, -⟩ := hsound.named hr
      exact ⟨language, f, hf⟩

def nestedBatch : List TextFile :=
  [.sample "Help.fr.csv", .sample "Help.Index.en.csv", .sample "Help.Index.Page.en.csv",
    .sample "Helper.en.csv", .sample "Help.en.csv"]

theorem resolves_ofFiles_nestedBatch : Options.sample.validate = .ok () ∧
    (collect .sample nestedBatch).types.keys =
      ["App.Help", "App.Help.Index", "App.Help.Index.Page", "App.Helper"] ∧
    (ofFiles .sample nestedBatch).types.keys = ["App.Help.Index.Page", "App.Helper"] ∧
    (ofFiles .sample nestedBatch).errors =
      [.namespaceConflict (.ofString "/project/texts/Help.en.csv") "App.Help" "App.Help.Index",
        .namespaceConflict (.ofString "/project/texts/Help.Index.en.csv") "App.Help.Index"
          "App.Help.Index.Page"] ∧
    Resolves (collect .sample nestedBatch) (ofFiles .sample nestedBatch) := by
  have hvalid : Options.sample.validate = .ok () := by decide +kernel
  exact ⟨hvalid, by decide +kernel, by decide +kernel, by decide +kernel,
    resolves_ofFiles hvalid nestedBatch⟩

end Catalogue

end Phrasebook
