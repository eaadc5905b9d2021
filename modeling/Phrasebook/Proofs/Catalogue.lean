import Phrasebook.Catalogue
import Phrasebook.Proofs.Dict
import Phrasebook.Proofs.Placement

namespace Phrasebook.Catalogue

variable {o : Options}

def collect (o : Options) (files : List TextFile) : Catalogue := files.foldl (add o) empty

def found (o : Options) (p : Placement) : Resource :=
  ⟨p.nameSpace, p.baseName, ∅, !o.disableSubNamespace⟩

def enter (c : Catalogue) (p : Placement) (r : Resource) (f : TextFile) : Catalogue where
  types := c.types.insert p.fullName { r with files := r.files.insert p.language f }
  errors := c.errors

inductive Step (o : Options) (c : Catalogue) (f : TextFile) : Catalogue → Prop
  | unrecognized {fault : NameFault} : Placement.find o f = .error fault →
      Step o c f (c.report (.unrecognizedName f.path fault))
  | duplicate {p : Placement} {r : Resource} {first : TextFile} : Placement.find o f = .ok p →
      c.types.get? p.fullName = some r → r.files.get? p.language = some first →
      Step o c f (c.report (.duplicateLanguage f.path p.fullName p.language first.path))
  | entered {p : Placement} {r : Resource} : Placement.find o f = .ok p →
      c.types.get? p.fullName = some r ∨ c.types.get? p.fullName = none ∧ r = found o p →
      r.files.get? p.language = none → Step o c f (c.enter p r f)

theorem step_add (o : Options) (c : Catalogue) (f : TextFile) : Step o c f (add o c f) := by
  unfold add
  cases hfind : Placement.find o f with
  | error fault => exact .unrecognized hfind
  | ok p =>
    simp only [addPlaced]
    cases hr : c.types.get? p.fullName with
    | none => exact .entered hfind (.inr ⟨hr, rfl⟩) rfl
    | some r =>
      simp only [Option.getD_some]
      cases hfirst : r.files.get? p.language with
      | some first => exact .duplicate hfind hr hfirst
      | none => exact .entered hfind (.inl hr) hfirst

theorem step_collect (o : Options) (done : List TextFile) (f : TextFile) :
    Step o (collect o done) f (collect o (done ++ [f])) := by
  have hlast : collect o (done ++ [f]) = add o (collect o done) f := List.foldl_concat ..
  exact hlast ▸ step_add o _ f

theorem collect_induction {P : List TextFile → Catalogue → Prop} (hempty : P [] empty)
    (hstep : ∀ done c f c', P done c → Step o c f c' → P (done ++ [f]) c')
    (files : List TextFile) : P files (collect o files) := by
  suffices h : ∀ rest done c, P done c → P (done ++ rest) (rest.foldl (add o) c) from
    h files [] empty hempty
  intro rest
  induction rest with
  | nil =>
    intro done c h
    rw [List.append_nil]
    exact h
  | cons f rest ih =>
    intro done c h
    rw [List.append_cons]
    exact ih (done ++ [f]) (add o c f) (hstep done c f _ h (step_add o c f))

structure Sound (o : Options) (files : List TextFile) (types : Dict Resource) : Prop where
  placed : ∀ {name r language f}, types.get? name = some r → r.files.get? language = some f →
    f ∈ files ∧ ∃ p, Placement.find o f = .ok p ∧ p.fullName = name ∧ p.language = language
  named : ∀ {name r}, types.get? name = some r → ∃ language f p, r.files.get? language = some f ∧
    Placement.find o f = .ok p ∧ p.nameSpace = r.nameSpace ∧ p.baseName = r.baseName

theorem Sound.weaken {files : List TextFile} {types : Dict Resource} (h : Sound o files types)
    (f : TextFile) : Sound o (files ++ [f]) types where
  placed hr hf :=
    let ⟨hmem, hp⟩ := h.placed hr hf
    ⟨List.mem_append_left _ hmem, hp⟩
  named := h.named

theorem Sound.enter {files : List TextFile} {c : Catalogue} (h : Sound o files c.types)
    {f : TextFile} {p : Placement} {r : Resource} (hfind : Placement.find o f = .ok p)
    (hr : c.types.get? p.fullName = some r ∨ c.types.get? p.fullName = none ∧ r = found o p)
    (hfresh : r.files.get? p.language = none) : Sound o (files ++ [f]) (c.enter p r f).types where
  placed {name s language g} hs hg := by
    simp only [Catalogue.enter, Dict.get?_insert] at hs
    split at hs
    · next hname =>
      cases hs
      rw [Dict.get?_insert] at hg
      split at hg
      · next hlanguage =>
        cases hg
        exact ⟨List.mem_append_right _ (List.mem_singleton.2 rfl), p, hfind, hname.symm,
          hlanguage.symm⟩
      · rcases hr with hr | ⟨-, rfl⟩
        · rw [hname]
          exact (h.weaken f).placed hr hg
        · cases hg
    · exact (h.weaken f).placed hs hg
  named {name s} hs := by
    simp only [Catalogue.enter, Dict.get?_insert] at hs
    split at hs
    · cases hs
      rcases hr with hr | ⟨-, rfl⟩
      · obtain ⟨language, g, q, hg, hq⟩ := h.named hr
        refine ⟨language, g, q, ?_, hq⟩
        rw [Dict.get?_insert, if_neg]
        · exact hg
        · rintro rfl
          cases hfresh.symm.trans hg
      · exact ⟨p.language, f, p, Dict.get?_insert_self _ _ _, hfind, rfl, rfl⟩
    · exact h.named hs

theorem sound_collect (files : List TextFile) : Sound o files (collect o files).types := by
  refine collect_induction (P := fun done c => Sound o done c.types) ?_ ?_ files
  · constructor
    · intro name r language f hr
      cases hr
    · intro name r hr
      cases hr
  · intro done c f c' h hstep
    cases hstep with
    | unrecognized => exact h.weaken f
    | duplicate => exact h.weaken f
    | entered hfind hr hfresh => exact h.enter hfind hr hfresh

def Complete (o : Options) (files : List TextFile) (c : Catalogue) : Prop :=
  c.errors = [] → ∀ f ∈ files, ∃ p r, Placement.find o f = .ok p ∧
    c.types.get? p.fullName = some r ∧ r.files.get? p.language = some f

theorem Complete.enter {files : List TextFile} {c : Catalogue} (h : Complete o files c)
    {f : TextFile} {p : Placement} {r : Resource} (hfind : Placement.find o f = .ok p)
    (hr : c.types.get? p.fullName = some r ∨ c.types.get? p.fullName = none ∧ r = found o p)
    (hfresh : r.files.get? p.language = none) : Complete o (files ++ [f]) (c.enter p r f) := by
  intro herrors g hg
  simp only [Catalogue.enter, Dict.get?_insert]
  rcases List.mem_append.1 hg with hg | hg
  · obtain ⟨q, s, hq, hs, hgs⟩ := h herrors g hg
    by_cases hname : q.fullName = p.fullName
    · rw [hname] at hs
      rcases hr with hr | ⟨hnone, -⟩
      · cases hr.symm.trans hs
        refine ⟨q, _, hq, if_pos hname, ?_⟩
        rw [Dict.get?_insert, if_neg]
        · exact hgs
        · intro hlanguage
          rw [hlanguage, hfresh] at hgs
          cases hgs
      · cases hnone.symm.trans hs
    · exact ⟨q, s, hq, (if_neg hname).trans hs, hgs⟩
  · obtain rfl := List.mem_singleton.1 hg
    exact ⟨p, _, hfind, if_pos rfl, Dict.get?_insert_self _ _ _⟩

theorem complete_collect (files : List TextFile) : Complete o files (collect o files) := by
  have reported {done : List TextFile} {c : Catalogue} {e : Error} :
      Complete o done (c.report e) := by
    intro herrors
    simp [report] at herrors
  refine collect_induction (P := Complete o) ?_ ?_ files
  · intro _ f hf
    cases hf
  · intro done c f c' h hstep
    cases hstep with
    | unrecognized => exact reported
    | duplicate => exact reported
    | entered hfind hr hfresh => exact h.enter hfind hr hfresh

theorem mem_unrecognized_collect (files : List TextFile) (path : Path) (fault : NameFault) :
    .unrecognizedName path fault ∈ (collect o files).errors ↔
      ∃ f ∈ files, f.path = path ∧ Placement.find o f = .error fault := by
  refine collect_induction (P := fun done c => .unrecognizedName path fault ∈ c.errors ↔
    ∃ f ∈ done, f.path = path ∧ Placement.find o f = .error fault) ?_ ?_ files
  · exact ⟨nofun, nofun⟩
  · intro done c f c' h hstep
    have hmem : (∃ g ∈ done ++ [f], g.path = path ∧ Placement.find o g = .error fault) ↔
        .unrecognizedName path fault ∈ c.errors ∨ f.path = path ∧
          Placement.find o f = .error fault := by
      simp only [h, List.mem_append, List.mem_singleton, or_and_right, exists_or, exists_eq_left]
    rw [hmem]
    cases hstep with
    | unrecognized hfind => simp [report, hfind, eq_comm]
    | duplicate hfind _ _ => simp [report, hfind]
    | entered hfind _ _ => simp [Catalogue.enter, hfind]

def Taken (c : Catalogue) (p : Placement) : Prop :=
  ∃ r f, c.types.get? p.fullName = some r ∧ r.files.get? p.language = some f

theorem Taken.enter {c : Catalogue} {q : Placement} (h : c.Taken q) {p : Placement} {r : Resource}
    (hr : c.types.get? p.fullName = some r ∨ c.types.get? p.fullName = none ∧ r = found o p)
    (f : TextFile) : (c.enter p r f).Taken q := by
  obtain ⟨s, g, hs, hg⟩ := h
  simp only [Taken, Catalogue.enter, Dict.get?_insert]
  by_cases hname : q.fullName = p.fullName
  · rw [hname] at hs
    rcases hr with hr | ⟨hnone, -⟩
    · cases hr.symm.trans hs
      rw [if_pos hname]
      by_cases hlanguage : q.language = p.language
      · exact ⟨_, f, rfl, by rw [Dict.get?_insert, if_pos hlanguage]⟩
      · exact ⟨_, g, rfl, by rw [Dict.get?_insert, if_neg hlanguage, hg]⟩
    · cases hnone.symm.trans hs
  · exact ⟨s, g, (if_neg hname).trans hs, hg⟩

theorem taken_collect (files : List TextFile) {f : TextFile} (hf : f ∈ files) {p : Placement}
    (hp : Placement.find o f = .ok p) : (collect o files).Taken p := by
  refine collect_induction (P := fun done c => ∀ f ∈ done, ∀ p, Placement.find o f = .ok p →
    c.Taken p) ?_ ?_ files f hf p hp
  · intro f hf
    cases hf
  · intro done c f c' h hstep g hg q hq
    rcases List.mem_append.1 hg with hg | hg
    · have htaken := h g hg q hq
      cases hstep with
      | unrecognized _ => exact htaken
      | duplicate _ _ _ => exact htaken
      | entered _ hr _ => exact htaken.enter hr f
    · rw [List.mem_singleton.1 hg] at hq
      cases hstep with
      | unrecognized hfind => cases hfind.symm.trans hq
      | duplicate hfind hr hfirst =>
        cases hfind.symm.trans hq
        exact ⟨_, _, hr, hfirst⟩
      | entered hfind _ _ =>
        cases hfind.symm.trans hq
        exact ⟨_, f, Dict.get?_insert_self _ _ _, Dict.get?_insert_self _ _ _⟩

theorem user?_eq_none_iff {types : Dict Resource} {name : String} :
    user? types name = none ↔
      ∀ other r, types.get? other = some r → name ∉ enclosing r.nameSpace := by
  rw [user?, Option.map_eq_none_iff, List.find?_eq_none]
  constructor
  · intro h other r hr
    simpa using h (other, r) (Dict.mem_toList_iff.2 hr)
  · rintro h ⟨other, r⟩ hr
    simpa using h other r (Dict.mem_toList_iff.1 hr)

theorem conflict_of_user {types : Dict Resource} {name user language : String} {r : Resource}
    {f : TextFile} (huser : user? types name = some user)
    (hf : r.files.get? language = some f) :
    ∃ path, conflict? types name r = some (.namespaceConflict path name user) := by
  have hne : r.files.toList ≠ [] := List.ne_nil_of_mem (Dict.mem_toList_iff.2 hf)
  obtain ⟨first, rest, hcons⟩ := List.exists_cons_of_ne_nil hne
  refine ⟨first.2.path, ?_⟩
  unfold conflict?
  rw [huser, hcons]

theorem get?_dropConflicts {c : Catalogue} {name : String} {r : Resource} :
    c.dropConflicts.types.get? name = some r ↔
      c.types.get? name = some r ∧ user? c.types name = none := by
  rw [dropConflicts, Dict.get?_filter, Option.filter_eq_some_iff, Option.isNone_iff_eq_none]

theorem sound_ofFiles (o : Options) (files : List TextFile) :
    Sound o files (ofFiles o files).types where
  placed hr hf := (sound_collect files).placed (get?_dropConflicts.1 hr).1 hf
  named hr := (sound_collect files).named (get?_dropConflicts.1 hr).1

theorem complete_ofFiles (o : Options) (files : List TextFile) :
    Complete o files (ofFiles o files) := by
  intro herrors f hf
  obtain ⟨hcollect, hconflicts⟩ := List.append_eq_nil_iff.1 herrors
  obtain ⟨p, r, hfind, hr, hfiles⟩ := complete_collect files hcollect f hf
  refine ⟨p, r, hfind, get?_dropConflicts.2 ⟨hr, ?_⟩, hfiles⟩
  have hnone := List.filterMap_eq_nil_iff.1 hconflicts _ (Dict.mem_toList_iff.2 hr)
  change user? (collect o files).types p.fullName = none
  cases huser : user? (collect o files).types p.fullName with
  | none => rfl
  | some user =>
    obtain ⟨path, hconflict⟩ := conflict_of_user huser hfiles
    cases hnone.symm.trans hconflict

theorem mem_unrecognized_iff (files : List TextFile) (path : Path) (fault : NameFault) :
    .unrecognizedName path fault ∈ (ofFiles o files).errors ↔
      ∃ f ∈ files, f.path = path ∧ Placement.find o f = .error fault := by
  rw [← mem_unrecognized_collect]
  change _ ∈ (collect o files).errors ++ _ ↔ _
  rw [List.mem_append, or_iff_left]
  intro hconflict
  obtain ⟨⟨name, r⟩, -, hconflict⟩ := List.mem_filterMap.1 hconflict
  unfold conflict? at hconflict
  split at hconflict <;> cases hconflict

theorem taken_ofFiles (files : List TextFile) {f : TextFile} (hf : f ∈ files) {p : Placement}
    (hp : Placement.find o f = .ok p) : (ofFiles o files).Taken p ∨
      ∃ path user, .namespaceConflict path p.fullName user ∈ (ofFiles o files).errors := by
  obtain ⟨r, g, hr, hg⟩ := taken_collect files hf hp
  cases huser : user? (collect o files).types p.fullName with
  | none => exact .inl ⟨r, g, get?_dropConflicts.2 ⟨hr, huser⟩, hg⟩
  | some user =>
    obtain ⟨path, hconflict⟩ := conflict_of_user huser hg
    refine .inr ⟨path, user, List.mem_append_right _ (List.mem_filterMap.2 ?_)⟩
    exact ⟨(p.fullName, r), Dict.mem_toList_iff.2 hr, hconflict⟩

theorem fits_of_mem {files : List TextFile} {types : Dict Resource} (h : Sound o files types)
    {name : String} {r : Resource} (hr : types.get? name = some r) :
    r.fullName = name ∧ ∃ p, Placement.Fits o p ∧ p.nameSpace = r.nameSpace ∧
      p.baseName = r.baseName := by
  obtain ⟨language, f, p, hf, hp, hspace, hbase⟩ := h.named hr
  obtain ⟨-, q, hq, hname, -⟩ := h.placed hr hf
  cases hp.symm.trans hq
  refine ⟨?_, p, Placement.fits_of_find hp, hspace, hbase⟩
  rw [Resource.fullName, ← hspace, ← hbase]
  exact hname

theorem canonical_of_mem {files : List TextFile} {types : Dict Resource} (h : Sound o files types)
    {name language : String} {r : Resource} {f : TextFile} (hr : types.get? name = some r)
    (hf : r.files.get? language = some f) : ∃ tag, Language.canonical? tag = some language := by
  obtain ⟨-, p, hp, -, rfl⟩ := h.placed hr hf
  exact (Placement.fits_of_find hp).language

end Phrasebook.Catalogue
