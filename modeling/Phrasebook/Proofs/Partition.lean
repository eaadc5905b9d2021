import Phrasebook.Proofs.Filing

/-!
What becomes of each file of a batch. It is unrecognized, behind another file at its type and
language, the first one there, or the first one there in a type that is dropped; just one of these
holds, the first two with an error for this very file. The types that are left consist of first
files only.
-/

namespace Phrasebook

inductive Fate
  | unrecognized (fault : NameFault)
  | duplicate (name language : String) (first : Path)
  | stored (name language : String)
  | dropped (name language : String)
  deriving DecidableEq

def Fate.error? (path : Path) : Fate → Option Error
  | unrecognized fault => some (.unrecognizedName path fault)
  | duplicate name language first => some (.duplicateLanguage path name language first)
  | stored _ _ => none
  | dropped _ _ => none

namespace Catalogue

open Placement

/-- The file at a place of the batch is the one in use at a type and a language. -/
def Stores (c : Catalogue) (o : Options) (files : List TextFile) (i : Nat)
    (name language : String) : Prop :=
  ∃ r f, c.types.get? name = some r ∧ r.files.get? language = some f ∧ files[i]? = some f ∧
    files.findIdx? (isAt o name language) = some i

/-- What becomes of a file at a place of the batch, given the conflicts by the names of the types
that they drop. -/
inductive Meets (o : Options) (files : List TextFile) (c : Catalogue) (conflicts : Dict Error)
    (i : Nat) (f : TextFile) : Fate → Prop
  | unrecognized {fault : NameFault} : find o f = .error fault →
      Meets o files c conflicts i f (.unrecognized fault)
  | duplicate {p : Placement} {j : Nat} {first : TextFile} : find o f = .ok p →
      files.findIdx? (isAt o p.fullName p.language) = some j → j < i → files[j]? = some first →
      Meets o files c conflicts i f (.duplicate p.fullName p.language first.path)
  | stored {p : Placement} : find o f = .ok p → c.Stores o files i p.fullName p.language →
      Meets o files c conflicts i f (.stored p.fullName p.language)
  | dropped {p : Placement} {path : Path} {user : String} : find o f = .ok p →
      files.findIdx? (isAt o p.fullName p.language) = some i → c.types.get? p.fullName = none →
      conflicts.get? p.fullName = some (.namespaceConflict path p.fullName user) →
      Meets o files c conflicts i f (.dropped p.fullName p.language)

/-- Each file of a batch meets one fate, and each error comes from one file or from one of the types
that are dropped. -/
structure Accounts (o : Options) (files : List TextFile) (c : Catalogue) (fates : List Fate)
    (conflicts : Dict Error) : Prop where
  length : fates.length = files.length
  meets : ∀ {i f fate}, files[i]? = some f →
    (Meets o files c conflicts i f fate ↔ fates[i]? = some fate)
  stores : ∀ {i name language},
    c.Stores o files i name language ↔ fates[i]? = some (.stored name language)
  errors : c.errors = (files.zip fates).filterMap (fun p => p.2.error? p.1.path) ++ conflicts.values
  conflict : ∀ {name e}, conflicts.get? name = some e →
    c.types.get? name = none ∧ ∃ path user, e = .namespaceConflict path name user

/-- Types with proper names, no two of them in the same place, that consist of the first files at
their languages. -/
structure Arranged (o : Options) (files : List TextFile) (types : Dict Resource) : Prop where
  fullName : ∀ {name r}, types.get? name = some r → r.fullName = name
  isIdentifier : ∀ {name r}, types.get? name = some r →
    ∀ s ∈ r.nameSpace ++ [r.baseName], Identifier.isIdentifier s = true
  exists_file : ∀ {name r}, types.get? name = some r → ∃ language f, r.files.get? language = some f
  find : ∀ {name r language f}, types.get? name = some r → r.files.get? language = some f →
    Placement.find o f = .ok ⟨r.nameSpace, r.baseName, language⟩ ∧
      (∃ tag, Language.canonical? tag = some language) ∧
        files.find? (isAt o name language) = some f
  inj : ∀ {name other r s}, types.get? name = some r → types.get? other = some s →
    r.nameSpace = s.nameSpace → r.baseName = s.baseName → name = other

variable {o : Options}

theorem arranged_ofFiles (hvalid : o.validate = .ok ()) (files : List TextFile) :
    Arranged o files (ofFiles o files).types := by
  have hsound := sound_ofFiles o files
  have hname {name : String} {r : Resource} (hr : (ofFiles o files).types.get? name = some r) :
      r.fullName = name := (fits_of_mem hsound hr).1
  constructor
  case fullName => exact hname
  case isIdentifier =>
    intro name r hr
    obtain ⟨-, p, hp, hspace, hbase⟩ := fits_of_mem hsound hr
    exact hspace ▸ hbase ▸ hp.isIdentifier hvalid
  case exists_file =>
    intro name r hr
    obtain ⟨language, f, -, hf, -⟩ := hsound.named hr
    exact ⟨language, f, hf⟩
  case find =>
    intro name r language f hr hf
    obtain ⟨-, p, hp, rfl, rfl⟩ := hsound.placed hr hf
    obtain ⟨hfull, q, hq, hqspace, hqbase⟩ := fits_of_mem hsound hr
    have hfits := fits_of_find hp
    have hsame : p.fullName = q.fullName := by
      rw [← hfull, Resource.fullName, ← hqspace, ← hqbase]
      rfl
    obtain ⟨hspace, hbase⟩ := hfits.eq_of_fullName hq hvalid hsame
    refine ⟨?_, hfits.language, ?_⟩
    · rw [← hqspace, ← hqbase, ← hspace, ← hbase, hp]
    · have hcollect : (collect o files).types.get? p.fullName = some r :=
        (get?_dropConflicts.1 hr).1
      rw [← file?_collect, file?_of_get? hcollect, hf]
  case inj =>
    intro name other r s hr hs hspace hbase
    rw [← hname hr, ← hname hs, Resource.fullName, Resource.fullName, hspace, hbase]

def fate (o : Options) (types : Dict Resource) (earlier : List TextFile) (f : TextFile) : Fate :=
  match Placement.find o f with
  | .error fault => .unrecognized fault
  | .ok p =>
    match earlier.find? (isAt o p.fullName p.language) with
    | some first => .duplicate p.fullName p.language first.path
    | none =>
      if types.contains p.fullName then .stored p.fullName p.language
      else .dropped p.fullName p.language

def fates (o : Options) (types : Dict Resource) (earlier : List TextFile) :
    List TextFile → List Fate
  | [] => []
  | f :: fs => fate o types earlier f :: fates o types (earlier ++ [f]) fs

theorem length_fates (types : Dict Resource) (earlier files : List TextFile) :
    (fates o types earlier files).length = files.length := by
  induction files generalizing earlier with
  | nil => rfl
  | cons f fs ih => exact congrArg Nat.succ (ih _)

theorem getElem?_fates (types : Dict Resource) (earlier files : List TextFile) (i : Nat) :
    (fates o types earlier files)[i]? =
      files[i]?.map (fate o types (earlier ++ files.take i)) := by
  induction files generalizing earlier i with
  | nil => rfl
  | cons f fs ih =>
    cases i with
    | zero => simp [fates]
    | succ i => simp [fates, ih]

theorem errors_step (types : Dict Resource) (done : List TextFile) (f : TextFile) :
    (collect o (done ++ [f])).errors =
      (collect o done).errors ++ ((fate o types done f).error? f.path).toList := by
  have hstep := step_collect o done f
  have hfile := file?_collect (o := o) done
  generalize collect o (done ++ [f]) = c' at hstep ⊢
  generalize collect o done = c at hstep hfile ⊢
  cases hstep with
  | unrecognized hfind =>
    simp only [fate, hfind]
    rfl
  | duplicate hfind hr hfirst =>
    simp only [fate, hfind, ← hfile, file?_of_get? hr, hfirst]
    rfl
  | @entered p r hfind hr hfresh =>
    simp only [fate, hfind, ← hfile, file?_eq_none hr hfresh]
    split <;> exact (List.append_nil _).symm

theorem errors_collect_append (types : Dict Resource) (done files : List TextFile) :
    (collect o (done ++ files)).errors = (collect o done).errors ++
      (files.zip (fates o types done files)).filterMap fun p => p.2.error? p.1.path := by
  induction files generalizing done with
  | nil => simp [fates]
  | cons f fs ih =>
    rw [List.append_cons, ih, errors_step types, List.append_assoc]
    congr 1
    simp only [fates, List.zip_cons_cons]
    rw [List.filterMap_cons]
    split <;> simp_all

def conflicts (types : Dict Resource) : Dict Error := types.filterMap (conflict? types)

theorem values_conflicts (types : Dict Resource) :
    (conflicts types).values = types.toList.filterMap fun p => conflict? types p.1 p.2 := by
  change (types.toList.filterMap _).map _ = _
  rw [List.map_filterMap]
  refine List.filterMap_congr fun p _ => ?_
  rw [Option.map_map]
  exact Option.map_id'

theorem conflict?_eq_some {types : Dict Resource} {name : String} {r : Resource} {e : Error}
    (h : conflict? types name r = some e) : ∃ path user, user? types name = some user ∧
      e = .namespaceConflict path name user := by
  unfold conflict? at h
  split at h
  · next huser _ =>
    cases h
    exact ⟨_, _, huser, rfl⟩
  · cases h

theorem errors_ofFiles (files : List TextFile) : (ofFiles o files).errors =
    (files.zip (fates o (ofFiles o files).types [] files)).filterMap
      (fun p => p.2.error? p.1.path) ++ (conflicts (collect o files).types).values := by
  rw [values_conflicts]
  exact congrArg (· ++ _) (errors_collect_append _ [] files)

theorem get?_conflicts {files : List TextFile} {name : String} {e : Error}
    (h : (conflicts (collect o files).types).get? name = some e) :
    (ofFiles o files).types.get? name = none ∧
      ∃ path user, e = .namespaceConflict path name user := by
  rw [conflicts, Dict.get?_filterMap, Option.bind_eq_some_iff] at h
  obtain ⟨r, -, hconflict⟩ := h
  obtain ⟨path, user, huser, rfl⟩ := conflict?_eq_some hconflict
  refine ⟨?_, path, user, rfl⟩
  apply Option.eq_none_iff_forall_ne_some.2
  intro s hs
  cases huser.symm.trans (get?_dropConflicts.1 hs).2

section

variable {α : Type} {p : α → Bool} {l : List α} {i : Nat} {a : α}

theorem find?_of_findIdx? (h : l.findIdx? p = some i) : l.find? p = l[i]? := by
  rw [List.find?_eq_bind_findIdx?_getElem?, h, Option.bind_some]

theorem findIdx?_of_find?_take (h : (l.take i).find? p = some a) :
    ∃ j, l.findIdx? p = some j ∧ j < i ∧ l[j]? = some a := by
  rw [List.find?_eq_bind_findIdx?_getElem?, List.findIdx?_take, Option.bind_eq_some_iff] at h
  obtain ⟨j, hj, ha⟩ := h
  obtain ⟨k, hk, hguard⟩ := Option.bind_eq_some_iff.1 hj
  obtain ⟨rfl, hlt⟩ := Option.guard_eq_some_iff.1 hguard
  have hlt : k < i := of_decide_eq_true hlt
  rw [List.getElem?_take_of_lt hlt] at ha
  exact ⟨k, hk, hlt, ha⟩

theorem findIdx?_of_find?_take_eq_none (h : (l.take i).find? p = none) (hi : l[i]? = some a)
    (ha : p a = true) : l.findIdx? p = some i := by
  obtain ⟨hlt, rfl⟩ := List.getElem?_eq_some_iff.1 hi
  refine List.findIdx?_eq_some_iff_getElem.2 ⟨hlt, ha, fun j hj => ?_⟩
  exact List.find?_eq_none.1 h _ (List.mem_take_iff_getElem.2 ⟨j, by omega, rfl⟩)

end

theorem stores_iff {files : List TextFile} {i : Nat} {name language : String} :
    (ofFiles o files).Stores o files i name language ↔
      files.findIdx? (isAt o name language) = some i ∧
        ∃ r, (ofFiles o files).types.get? name = some r := by
  constructor
  · rintro ⟨r, f, hr, -, -, hindex⟩
    exact ⟨hindex, r, hr⟩
  · rintro ⟨hindex, r, hr⟩
    obtain ⟨hlt, -⟩ := List.findIdx?_eq_some_iff_getElem.1 hindex
    have hi : files[i]? = some files[i] := List.getElem?_eq_getElem hlt
    have hcollect : (collect o files).types.get? name = some r := (get?_dropConflicts.1 hr).1
    refine ⟨r, files[i], hr, ?_, hi, hindex⟩
    rw [← file?_of_get? hcollect, file?_collect, find?_of_findIdx? hindex, hi]

theorem meets_fate {files : List TextFile} {i : Nat} {f : TextFile} (hf : files[i]? = some f) :
    Meets o files (ofFiles o files) (conflicts (collect o files).types) i f
      (fate o (ofFiles o files).types (files.take i) f) := by
  unfold fate
  cases hfind : Placement.find o f with
  | error fault => exact .unrecognized hfind
  | ok p =>
    have hat : isAt o p.fullName p.language f = true := isAt_iff.2 ⟨p, hfind, rfl, rfl⟩
    dsimp only
    cases hearlier : (files.take i).find? (isAt o p.fullName p.language) with
    | some first =>
      obtain ⟨j, hj, hlt, hfirst⟩ := findIdx?_of_find?_take hearlier
      exact .duplicate hfind hj hlt hfirst
    | none =>
      have hindex := findIdx?_of_find?_take_eq_none hearlier hf hat
      dsimp only
      cases hr : (ofFiles o files).types.get? p.fullName with
      | some r =>
        rw [if_pos (by rw [Dict.contains, hr]; rfl)]
        exact .stored hfind (stores_iff.2 ⟨hindex, r, hr⟩)
      | none =>
        rw [if_neg (by rw [Dict.contains, hr]; exact Bool.false_ne_true)]
        obtain ⟨r, g, hcollect, hg⟩ := taken_collect files (List.mem_of_getElem? hf) hfind
        obtain ⟨user, huser⟩ : ∃ user, user? (collect o files).types p.fullName = some user := by
          apply Option.ne_none_iff_exists'.1
          intro hnone
          cases hr.symm.trans (get?_dropConflicts.2 ⟨hcollect, hnone⟩)
        obtain ⟨path, hconflict⟩ := conflict_of_user huser hg
        have hreported : (conflicts (collect o files).types).get? p.fullName =
            some (.namespaceConflict path p.fullName user) := by
          rw [conflicts, Dict.get?_filterMap, hcollect, Option.bind_some, hconflict]
        exact .dropped hfind hindex hr hreported

theorem Meets.unique {files : List TextFile} {c : Catalogue} {conflicts : Dict Error} {i : Nat}
    {f : TextFile} {a b : Fate} (ha : Meets o files c conflicts i f a)
    (hb : Meets o files c conflicts i f b) : a = b := by
  -- Both have the same placement, and the first file there is this one, or not.
  cases ha <;> cases hb <;> grind [Stores]

theorem accounts_ofFiles (files : List TextFile) : ∃ fates conflicts,
    Accounts o files (ofFiles o files) fates conflicts := by
  have hget {i : Nat} {f : TextFile} (hf : files[i]? = some f) :
      (fates o (ofFiles o files).types [] files)[i]? =
        some (fate o (ofFiles o files).types (files.take i) f) := by
    rw [getElem?_fates, hf, Option.map_some, List.nil_append]
  have hmeets {i : Nat} {f : TextFile} {fate : Fate} (hf : files[i]? = some f) :
      Meets o files (ofFiles o files) (conflicts (collect o files).types) i f fate ↔
        (fates o (ofFiles o files).types [] files)[i]? = some fate := by
    rw [hget hf, Option.some.injEq]
    constructor
    · exact (meets_fate hf).unique
    · rintro rfl
      exact meets_fate hf
  refine ⟨fates o (ofFiles o files).types [] files, conflicts (collect o files).types, ?_⟩
  constructor
  case length => exact length_fates _ _ _
  case meets => exact hmeets
  case errors => exact errors_ofFiles files
  case conflict => exact get?_conflicts
  case stores =>
    intro i name language
    constructor
    · rintro h
      obtain ⟨r, f, hr, hg, hf, hindex⟩ := id h
      obtain ⟨-, p, hp, rfl, rfl⟩ := (sound_ofFiles o files).placed hr hg
      exact (hmeets hf).1 (.stored hp h)
    · intro h
      have hlt : i < files.length := length_fates (o := o) _ [] files ▸
        (List.getElem?_eq_some_iff.1 h).1
      cases (hmeets (List.getElem?_eq_getElem hlt)).2 h with
      | stored _ hstores => exact hstores

/-- A batch is divided into the files of its types and those that are reported. -/
theorem partition_ofFiles (hvalid : o.validate = .ok ()) (files : List TextFile) :
    Arranged o files (ofFiles o files).types ∧
      ∃ fates conflicts, Accounts o files (ofFiles o files) fates conflicts :=
  ⟨arranged_ofFiles hvalid files, accounts_ofFiles files⟩

def sampleBatch : List TextFile :=
  [.sample "Menu.en.csv", .sample "Menu.EN.csv", .sample "notes.csv", .sample "Help.en.csv",
    .sample "Help/Index.en.csv"]

theorem partition_ofFiles_sampleBatch : Options.sample.validate = .ok () ∧
    (ofFiles .sample sampleBatch).types.keys = ["App.Help.Index", "App.Menu"] ∧
    (ofFiles .sample sampleBatch).errors =
      [.duplicateLanguage (.ofString "/project/texts/Menu.EN.csv") "App.Menu" "en"
          (.ofString "/project/texts/Menu.en.csv"),
        .unrecognizedName (.ofString "/project/texts/notes.csv") .noLanguage,
        .namespaceConflict (.ofString "/project/texts/Help.en.csv") "App.Help"
          "App.Help.Index"] ∧
    Arranged .sample sampleBatch (ofFiles .sample sampleBatch).types ∧ ∃ fates conflicts,
      Accounts .sample sampleBatch (ofFiles .sample sampleBatch) fates conflicts := by
  have hvalid : Options.sample.validate = .ok () := by decide +kernel
  exact ⟨hvalid, by decide +kernel, by decide +kernel, partition_ofFiles hvalid sampleBatch⟩

end Catalogue

end Phrasebook
