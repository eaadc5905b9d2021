import Mathlib.Data.List.Induction
import Phrasebook.Proofs.Catalogue

namespace Phrasebook

namespace Placement

variable {o : Options} {name language : String} {f : TextFile}

def isOf (o : Options) (name : String) (f : TextFile) : Bool :=
  match find o f with
  | .ok p => p.fullName = name
  | .error _ => false

def isAt (o : Options) (name language : String) (f : TextFile) : Bool :=
  match find o f with
  | .ok p => p.fullName = name ∧ p.language = language
  | .error _ => false

theorem isOf_iff : isOf o name f = true ↔ ∃ p, find o f = .ok p ∧ p.fullName = name := by
  unfold isOf
  cases find o f <;> simp

theorem isAt_iff : isAt o name language f = true ↔
    ∃ p, find o f = .ok p ∧ p.fullName = name ∧ p.language = language := by
  unfold isAt
  cases find o f <;> simp

theorem isOf_of_isAt (h : isAt o name language f = true) : isOf o name f = true := by
  obtain ⟨p, hp, hname, -⟩ := isAt_iff.1 h
  exact isOf_iff.2 ⟨p, hp, hname⟩

theorem isAt_of_error {fault : NameFault} (h : find o f = .error fault) :
    isAt o name language f = false := by
  unfold isAt
  rw [h]

theorem isAt_of_ok {p : Placement} (h : find o f = .ok p) :
    isAt o name language f = decide (p.fullName = name ∧ p.language = language) := by
  unfold isAt
  rw [h]

theorem Fits.isIdentifier {p : Placement} (h : Fits o p) (hvalid : o.validate = .ok ()) :
    ∀ s ∈ p.nameSpace ++ [p.baseName], Identifier.isIdentifier s = true := by
  obtain ⟨added, hspace, hadded⟩ := h.nameSpace
  intro s hs
  rcases List.mem_append.1 hs with hs | hs
  · rcases List.mem_append.1 (hspace ▸ hs) with hs | hs
    · exact Options.isIdentifier_rootSegments hvalid s hs
    · exact hadded s hs
  · exact List.mem_singleton.1 hs ▸ h.baseName

/-- A full name tells the namespace from the base name. -/
theorem Fits.eq_of_fullName {p q : Placement} (hp : Fits o p) (hq : Fits o q)
    (hvalid : o.validate = .ok ()) (h : p.fullName = q.fullName) :
    p.nameSpace = q.nameSpace ∧ p.baseName = q.baseName := by
  have hdotted : dotted (p.nameSpace ++ [p.baseName]) = dotted (q.nameSpace ++ [q.baseName]) := by
    rw [← fullName_eq_dotted, ← fullName_eq_dotted]
    exact h
  have hlist := dotted_inj (fun s hs => Identifier.dot_not_mem (hp.isIdentifier hvalid s hs))
    (fun s hs => Identifier.dot_not_mem (hq.isIdentifier hvalid s hs))
    (List.append_ne_nil_of_right_ne_nil _ (List.cons_ne_nil _ _))
    (List.append_ne_nil_of_right_ne_nil _ (List.cons_ne_nil _ _)) hdotted
  obtain ⟨hspace, hbase⟩ := List.append_inj' hlist rfl
  exact ⟨hspace, List.singleton_inj.1 hbase⟩

end Placement

namespace Catalogue

open Placement

variable {o : Options}

def file? (c : Catalogue) (name language : String) : Option TextFile :=
  (c.types.get? name).bind (·.files.get? language)

theorem file?_of_get? {c : Catalogue} {name : String} {r : Resource}
    (h : c.types.get? name = some r) (language : String) :
    c.file? name language = r.files.get? language := by
  rw [file?, h, Option.bind_some]

theorem file?_eq_none {c : Catalogue} {p : Placement} {r : Resource}
    (hr : c.types.get? p.fullName = some r ∨ c.types.get? p.fullName = none ∧ r = found o p)
    (hfresh : r.files.get? p.language = none) : c.file? p.fullName p.language = none := by
  rcases hr with hr | ⟨hnone, -⟩
  · exact (file?_of_get? hr _).trans hfresh
  · rw [file?, hnone, Option.bind_none]

theorem file?_enter {c : Catalogue} {p : Placement} {r : Resource}
    (hr : c.types.get? p.fullName = some r ∨ c.types.get? p.fullName = none ∧ r = found o p)
    (f : TextFile) (name language : String) : (c.enter p r f).file? name language =
      if p.fullName = name ∧ p.language = language then some f else c.file? name language := by
  simp only [file?, Catalogue.enter, Dict.get?_insert]
  by_cases hname : name = p.fullName
  · subst hname
    rw [if_pos rfl, Option.bind_some, Dict.get?_insert]
    by_cases hlanguage : language = p.language
    · rw [if_pos hlanguage, if_pos ⟨rfl, hlanguage.symm⟩]
    · rw [if_neg hlanguage, if_neg fun h => hlanguage h.2.symm]
      rcases hr with hr | ⟨hnone, rfl⟩
      · rw [hr, Option.bind_some]
      · rw [hnone]
        rfl
  · rw [if_neg hname, if_neg fun h => hname h.1.symm]

theorem file?_collect (files : List TextFile) (name language : String) :
    (collect o files).file? name language = files.find? (isAt o name language) := by
  refine collect_induction (P := fun done c => c.file? name language =
    done.find? (isAt o name language)) rfl ?_ files
  intro done c f c' h hstep
  rw [List.find?_append, ← h]
  cases hstep with
  | unrecognized hfind =>
    rw [List.find?_cons_of_neg (by simp [isAt_of_error hfind]), List.find?_nil, Option.or_none]
    rfl
  | @duplicate p r first hfind hr hfirst =>
    by_cases hat : p.fullName = name ∧ p.language = language
    · obtain ⟨rfl, rfl⟩ := hat
      have htaken : c.file? p.fullName p.language = some first := file?_of_get? hr _ ▸ hfirst
      rw [htaken, Option.some_or]
      exact htaken
    · rw [List.find?_cons_of_neg (by simpa [isAt_of_ok hfind] using hat), List.find?_nil,
        Option.or_none]
      rfl
  | @entered p r hfind hr hfresh =>
    rw [file?_enter hr]
    by_cases hat : p.fullName = name ∧ p.language = language
    · have hnone : c.file? name language = none := hat.1 ▸ hat.2 ▸ file?_eq_none hr hfresh
      rw [if_pos hat, hnone, List.find?_cons_of_pos (by simpa [isAt_of_ok hfind] using hat)]
      rfl
    · rw [if_neg hat, List.find?_cons_of_neg (by simpa [isAt_of_ok hfind] using hat),
        List.find?_nil, Option.or_none]

theorem subNamespace_of_get? (files : List TextFile) {name : String} {r : Resource}
    (h : (collect o files).types.get? name = some r) : r.subNamespace = !o.disableSubNamespace := by
  refine collect_induction (P := fun _ c => ∀ name r, c.types.get? name = some r →
    r.subNamespace = !o.disableSubNamespace) ?_ ?_ files name r h
  · exact fun _ _ hr => by cases hr
  · intro done c f c' h hstep name s hs
    cases hstep with
    | unrecognized _ => exact h name s hs
    | duplicate _ _ _ => exact h name s hs
    | entered _ hr _ =>
      simp only [Catalogue.enter, Dict.get?_insert] at hs
      split at hs
      · cases hs
        rcases hr with hr | ⟨-, rfl⟩
        · exact (h _ _ hr :)
        · rfl
      · exact h name s hs

theorem exists_get?_collect {files : List TextFile} {name : String} :
    (∃ r, (collect o files).types.get? name = some r) ↔ files.any (isOf o name) = true := by
  rw [List.any_eq_true]
  constructor
  · rintro ⟨r, hr⟩
    obtain ⟨language, f, -, hf, -⟩ := (sound_collect files).named hr
    obtain ⟨hmem, p, hp, hname, -⟩ := (sound_collect files).placed hr hf
    exact ⟨f, hmem, isOf_iff.2 ⟨p, hp, hname⟩⟩
  · rintro ⟨f, hf, hof⟩
    obtain ⟨p, hp, rfl⟩ := isOf_iff.1 hof
    obtain ⟨r, -, hr, -⟩ := taken_collect files hf hp
    exact ⟨r, hr⟩

section

variable {a b : List TextFile} (hvalid : o.validate = .ok ()) {name : String}
  (h : ∀ language, a.find? (isAt o name language) = b.find? (isAt o name language))

include hvalid h

theorem get?_collect_of_find? {r : Resource} (hr : (collect o a).types.get? name = some r) :
    (collect o b).types.get? name = some r := by
  have hfiles (language : String) :
      (collect o b).file? name language = r.files.get? language := by
    rw [file?_collect, ← h, ← file?_collect, file?_of_get? hr]
  obtain ⟨s, hs⟩ : ∃ s, (collect o b).types.get? name = some s := by
    obtain ⟨language, f, -, hf, -⟩ := (sound_collect a).named hr
    obtain ⟨s, hs, -⟩ := Option.bind_eq_some_iff.1 ((hfiles language).trans hf)
    exact ⟨s, hs⟩
  obtain ⟨hrname, p, hp, hpspace, hpbase⟩ := fits_of_mem (sound_collect a) hr
  obtain ⟨hsname, q, hq, hqspace, hqbase⟩ := fits_of_mem (sound_collect b) hs
  have hfull : q.fullName = p.fullName := by
    unfold Placement.fullName
    rw [hpspace, hpbase, hqspace, hqbase]
    exact hsname.trans hrname.symm
  obtain ⟨hspace, hbase⟩ := hq.eq_of_fullName hp hvalid hfull
  have hdict : s.files = r.files :=
    Dict.ext_get? fun language => (file?_of_get? hs language).symm.trans (hfiles language)
  have heq : s = r := by
    cases s
    cases r
    congr 1
    · exact hqspace.symm.trans (hspace.trans hpspace)
    · exact hqbase.symm.trans (hbase.trans hpbase)
    · exact (subNamespace_of_get? b hs).trans (subNamespace_of_get? a hr).symm
  rw [hs, heq]

theorem get?_collect_congr : (collect o a).types.get? name = (collect o b).types.get? name := by
  apply Option.ext
  intro r
  exact ⟨get?_collect_of_find? hvalid h, get?_collect_of_find? hvalid fun l => (h l).symm⟩

end

def duplicates (path first : Path) : List TextFile → Nat
  | [] => 0
  | f :: fs => if f.path = first then fs.countP (·.path = path) else 0

theorem duplicates_concat (path first : Path) (g : TextFile) (fs : List TextFile) (f : TextFile) :
    duplicates path first (g :: fs ++ [f]) = duplicates path first (g :: fs) +
      if g.path = first ∧ f.path = path then 1 else 0 := by
  by_cases hfirst : g.path = first <;> by_cases hpath : f.path = path <;>
    simp [duplicates, hfirst, hpath]

theorem count_unrecognized (files : List TextFile) (path : Path) (fault : NameFault) :
    (collect o files).errors.count (.unrecognizedName path fault) =
      files.countP fun f => f.path = path ∧ find o f = .error fault := by
  refine collect_induction (P := fun done c => c.errors.count (.unrecognizedName path fault) =
    done.countP fun f => f.path = path ∧ find o f = .error fault) rfl ?_ files
  intro done c f c' h hstep
  rw [List.countP_append, ← h]
  cases hstep with
  | @unrecognized other hfind =>
    by_cases heq : f.path = path ∧ other = fault <;>
      simp [report, hfind, heq]
  | duplicate hfind _ _ => simp [report, hfind]
  | entered hfind _ _ => simp [Catalogue.enter, hfind]

theorem count_duplicate (files : List TextFile) (path first : Path) (name language : String) :
    (collect o files).errors.count (.duplicateLanguage path name language first) =
      duplicates path first (files.filter (isAt o name language)) := by
  induction files using List.reverseRecOn with
  | nil => rfl
  | append_singleton done f ih =>
    have hfile := file?_collect (o := o) done name language
    have hstep := step_collect o done f
    generalize collect o (done ++ [f]) = c' at hstep ⊢
    generalize collect o done = c at hstep hfile ih
    rw [List.filter_append]
    cases hstep with
    | unrecognized hfind =>
      rw [List.filter_cons_of_neg (by simp [isAt_of_error hfind]), List.filter_nil,
        List.append_nil, ← ih]
      simp [report]
    | @duplicate p r g hfind hr hg =>
      by_cases hat : p.fullName = name ∧ p.language = language
      · obtain ⟨rfl, rfl⟩ := hat
        rw [file?_of_get? hr, hg, ← List.head?_filter] at hfile
        obtain ⟨rest, hrest⟩ := List.head?_eq_some_iff.1 hfile.symm
        rw [hrest] at ih ⊢
        rw [List.filter_cons_of_pos (by simp [isAt_of_ok hfind]), List.filter_nil,
          duplicates_concat, ← ih]
        simp [report, List.count_singleton, and_comm]
      · rw [List.filter_cons_of_neg (by simpa [isAt_of_ok hfind] using hat), List.filter_nil,
          List.append_nil, ← ih]
        have hne : ∀ path', Error.duplicateLanguage path' p.fullName p.language g.path ≠
            .duplicateLanguage path name language first := by
          rintro _ ⟨⟩
          exact hat ⟨rfl, rfl⟩
        simp [report, hne]
    | @entered p r hfind hr hfresh =>
      by_cases hat : p.fullName = name ∧ p.language = language
      · obtain ⟨rfl, rfl⟩ := hat
        rw [file?_eq_none hr hfresh, ← List.head?_filter] at hfile
        rw [List.head?_eq_none_iff.1 hfile.symm] at ih ⊢
        rw [List.filter_cons_of_pos (by simp [isAt_of_ok hfind])]
        refine ih.trans ?_
        simp [duplicates]
      · rw [List.filter_cons_of_neg (by simpa [isAt_of_ok hfind] using hat), List.filter_nil,
          List.append_nil, ← ih]
        rfl

theorem eq_of_mem_errors_collect (files : List TextFile) {e : Error}
    (he : e ∈ (collect o files).errors) : (∃ path fault, e = .unrecognizedName path fault) ∨
      ∃ path name language first, e = .duplicateLanguage path name language first := by
  refine collect_induction (P := fun _ c => e ∈ c.errors →
    (∃ path fault, e = .unrecognizedName path fault) ∨
      ∃ path name language first, e = .duplicateLanguage path name language first) ?_ ?_ files he
  · exact fun he => by cases he
  · intro done c f c' h hstep he
    cases hstep with
    | unrecognized _ =>
      rcases List.mem_append.1 he with he | he
      · exact h he
      · exact .inl ⟨_, _, List.mem_singleton.1 he⟩
    | duplicate _ _ _ =>
      rcases List.mem_append.1 he with he | he
      · exact h he
      · exact .inr ⟨_, _, _, _, List.mem_singleton.1 he⟩
    | entered _ _ _ => exact h he

end Catalogue

end Phrasebook
