import Mathlib.Data.List.Nodup
import Phrasebook.ModuleIndex
import Phrasebook.Proofs.Dict

namespace Phrasebook.ModuleTree

def files : ModuleTree → List String
  | node files _ => files

def children : ModuleTree → List (String × ModuleTree)
  | node _ children => children

def names (t : ModuleTree) : List String := t.children.map (·.1)

def child (name : String) (t : ModuleTree) : ModuleTree := (t.children.lookup name).getD empty

def under (path : List String) (t : ModuleTree) : ModuleTree :=
  path.foldl (fun t name => t.child name) t

@[simp] theorem under_nil (t : ModuleTree) : under [] t = t := rfl

@[simp] theorem under_cons (name : String) (path : List String) (t : ModuleTree) :
    under (name :: path) t = under path (t.child name) := rfl

def Ordered (t : ModuleTree) : Prop :=
  ∀ path, (under path t).children.Pairwise fun p q => p.1 < q.1

theorem Ordered.children {t : ModuleTree} (h : Ordered t) :
    t.children.Pairwise fun p q => p.1 < q.1 := h []

theorem Ordered.child {t : ModuleTree} (h : Ordered t) (name : String) : Ordered (t.child name) :=
  fun path => h (name :: path)

theorem Ordered.nodup_names {t : ModuleTree} (h : Ordered t) (path : List String) :
    (under path t).names.Nodup :=
  List.pairwise_map.2 ((h path).imp fun hlt => String.ne_of_lt hlt)

theorem under_empty (path : List String) : under path empty = empty := by
  induction path with
  | nil => rfl
  | cons name path ih => exact ih

theorem ordered_empty : Ordered empty := by
  intro path
  rw [under_empty]
  exact .nil

theorem get?_eq_none_of_lt {d : Dict ModuleTree} {name : String} (h : ∀ p ∈ d.toList, name < p.1) :
    d.get? name = none := by
  apply Option.eq_none_iff_forall_ne_some.2
  intro t ht
  exact String.lt_irrefl name (h _ (Dict.mem_toList_iff.2 ht))

theorem update_toList (name : String) (f : ModuleTree → ModuleTree) (d : Dict ModuleTree) :
    update name f d.toList = (d.insert name (f ((d.get? name).getD empty))).toList := by
  obtain ⟨ps, hps⟩ := d
  change update name f ps = Dict.place name (f ((ps.lookup name).getD empty)) ps
  induction ps with
  | nil => rfl
  | cons p ps ih =>
    obtain ⟨hp, hrest⟩ := List.pairwise_cons.1 hps
    simp only [update, Dict.place]
    split
    · next hlt =>
      have hnone : (p :: ps).lookup name = none := by
        refine get?_eq_none_of_lt (d := ⟨p :: ps, hps⟩) fun q hq => ?_
        rcases List.mem_cons.1 hq with rfl | hq
        · exact hlt
        · exact String.lt_trans hlt (hp q hq)
      rw [hnone]
      rfl
    · split
      · next heq =>
        rw [Dict.lookup_cons_eq_ite, if_pos heq]
        rfl
      · next hne => rw [ih hrest, Dict.lookup_cons_eq_ite, if_neg hne]

theorem insert_nil (file : String) (t : ModuleTree) :
    insert file [] t = node (t.files ++ [file]) t.children := by
  cases t
  rfl

theorem insert_cons (file name : String) (path : List String) (t : ModuleTree) :
    insert file (name :: path) t = node t.files (update name (insert file path) t.children) := by
  cases t
  rfl

def Ordered.childMap {t : ModuleTree} (h : Ordered t) : Dict ModuleTree := ⟨t.children, h.children⟩

section

variable {t : ModuleTree} (h : Ordered t) (file name : String) (path : List String)

include h

theorem children_insert_cons : (insert file (name :: path) t).children =
    (h.childMap.insert name (insert file path (t.child name))).toList := by
  rw [insert_cons]
  exact update_toList name (insert file path) h.childMap

theorem child_insert_cons (s : String) : (insert file (name :: path) t).child s =
    if s = name then insert file path (t.child name) else t.child s := by
  rw [child, children_insert_cons h]
  change ((h.childMap.insert name _).get? s).getD empty = _
  rw [Dict.get?_insert]
  split
  · rfl
  · rfl

theorem mem_names_insert_cons (s : String) :
    s ∈ (insert file (name :: path) t).names ↔ s = name ∨ s ∈ t.names := by
  rw [names, children_insert_cons h]
  exact Dict.mem_keys_insert

end

theorem ordered_insert (file : String) (path : List String) {t : ModuleTree} (h : Ordered t) :
    Ordered (insert file path t) := by
  induction path generalizing t with
  | nil =>
    intro below
    rw [insert_nil]
    cases below with
    | nil => exact h []
    | cons s below => exact h (s :: below)
  | cons name path ih =>
    intro below
    cases below with
    | nil =>
      rw [under_nil, children_insert_cons h]
      exact (h.childMap.insert name _).ascending
    | cons s below =>
      rw [under_cons, child_insert_cons h]
      split
      · exact ih (h.child name) below
      · exact h (s :: below)

theorem files_insert (file : String) (path : List String) {t : ModuleTree} (h : Ordered t)
    (here : List String) : (under here (insert file path t)).files =
      (under here t).files ++ if path = here then [file] else [] := by
  induction path generalizing t here with
  | nil =>
    rw [insert_nil]
    cases here with
    | nil => rfl
    | cons s here =>
      rw [if_neg (List.cons_ne_nil s here).symm, List.append_nil]
      rfl
  | cons name path ih =>
    cases here with
    | nil =>
      rw [if_neg (List.cons_ne_nil name path), List.append_nil, under_nil, insert_cons]
      rfl
    | cons s here =>
      rw [under_cons, child_insert_cons h, under_cons]
      by_cases hs : s = name
      · subst hs
        rw [if_pos rfl, ih (h.child s)]
        simp
      · rw [if_neg hs, if_neg, List.append_nil]
        intro heq
        exact hs (List.cons.inj heq).1.symm

theorem mem_names_insert (file : String) (path : List String) {t : ModuleTree} (h : Ordered t)
    (here : List String) (s : String) : s ∈ (under here (insert file path t)).names ↔
      here ++ [s] <+: path ∨ s ∈ (under here t).names := by
  induction path generalizing t here with
  | nil =>
    rw [insert_nil, List.prefix_nil]
    have hne : here ++ [s] ≠ [] := by simp
    cases here with
    | nil => exact (or_iff_right hne).symm
    | cons s' here => exact (or_iff_right hne).symm
  | cons name path ih =>
    cases here with
    | nil =>
      rw [under_nil, mem_names_insert_cons h, List.nil_append, List.cons_prefix_cons]
      simp
    | cons s' here =>
      rw [under_cons, child_insert_cons h, under_cons, List.cons_append, List.cons_prefix_cons]
      by_cases hs : s' = name
      · rw [if_pos hs, ih (h.child name), hs]
        simp
      · rw [if_neg hs]
        simp [hs]

theorem ordered_foldl (l : List (String × List String)) {t : ModuleTree} (h : Ordered t) :
    Ordered (l.foldl (fun tree p => insert p.1 p.2 tree) t) := by
  induction l generalizing t with
  | nil => exact h
  | cons p l ih => exact ih (ordered_insert p.1 p.2 h)

theorem mem_files_foldl (l : List (String × List String)) {t : ModuleTree} (h : Ordered t)
    (path : List String) (file : String) :
    file ∈ (under path (l.foldl (fun tree p => insert p.1 p.2 tree) t)).files ↔
      file ∈ (under path t).files ∨ (file, path) ∈ l := by
  induction l generalizing t with
  | nil => simp
  | cons p l ih =>
    obtain ⟨name, space⟩ := p
    rw [List.foldl_cons, ih (ordered_insert name space h), files_insert name space h,
      List.mem_append, List.mem_cons, or_assoc]
    by_cases hspace : space = path
    · simp [hspace]
    · simp [hspace, Ne.symm hspace]

theorem mem_names_foldl (l : List (String × List String)) {t : ModuleTree} (h : Ordered t)
    (path : List String) (s : String) :
    s ∈ (under path (l.foldl (fun tree p => insert p.1 p.2 tree) t)).names ↔
      s ∈ (under path t).names ∨ ∃ p ∈ l, path ++ [s] <+: p.2 := by
  induction l generalizing t with
  | nil => simp
  | cons p l ih =>
    have hcons : (∃ q ∈ p :: l, path ++ [s] <+: q.2) ↔
        path ++ [s] <+: p.2 ∨ ∃ q ∈ l, path ++ [s] <+: q.2 := by
      simp only [List.mem_cons, exists_eq_or_imp]
    rw [List.foldl_cons, ih (ordered_insert p.1 p.2 h), mem_names_insert p.1 p.2 h, hcons, or_assoc,
      or_left_comm]

theorem ordered_ofUnits (units : Dict (List String)) : Ordered (ofUnits units) :=
  ordered_foldl units.toList ordered_empty

theorem mem_files_ofUnits {units : Dict (List String)} {path : List String} {file : String} :
    file ∈ (under path (ofUnits units)).files ↔ units.get? file = some path := by
  rw [ofUnits, mem_files_foldl _ ordered_empty, under_empty, Dict.mem_toList_iff]
  exact or_iff_right List.not_mem_nil

theorem mem_names_ofUnits {units : Dict (List String)} {path : List String} {s : String} :
    s ∈ (under path (ofUnits units)).names ↔
      ∃ file space, units.get? file = some space ∧ path ++ [s] <+: space := by
  have hempty : s ∉ empty.names := List.not_mem_nil
  rw [ofUnits, mem_names_foldl _ ordered_empty, under_empty, or_iff_right hempty]
  simp only [Prod.exists, Dict.mem_toList_iff]

mutual

def sites : ModuleTree → List (List String × String)
  | node files children => files.map (([], ·)) ++ childSites children

def childSites : List (String × ModuleTree) → List (List String × String)
  | [] => []
  | (name, child) :: rest => (sites child).map (Prod.map (name :: ·) id) ++ childSites rest

end

mutual

/-- The paths of the modules below, each before those inside it. -/
def openings : ModuleTree → List (List String)
  | node _ children => childOpenings children

def childOpenings : List (String × ModuleTree) → List (List String)
  | [] => []
  | (name, child) :: rest => [name] :: (openings child).map (name :: ·) ++ childOpenings rest

end

theorem perm_childSites_update {f : ModuleTree → ModuleTree} {path : List String} {file : String}
    (hf : ∀ t, (sites (f t)).Perm ((path, file) :: sites t)) (name : String)
    (children : List (String × ModuleTree)) :
    (childSites (update name f children)).Perm ((name :: path, file) :: childSites children) := by
  have hmap (t : ModuleTree) : ((sites (f t)).map (Prod.map (name :: ·) id)).Perm
      ((name :: path, file) :: (sites t).map (Prod.map (name :: ·) id)) := (hf t).map _
  induction children with
  | nil => exact (hmap empty).append_right []
  | cons p rest ih =>
    obtain ⟨other, child⟩ := p
    rw [update]
    split
    · exact (hmap empty).append_right _
    · split
      · next h =>
        cases h
        exact (hmap child).append_right _
      · exact (ih.append_left _).trans List.perm_middle

theorem perm_sites_insert (file : String) (path : List String) (t : ModuleTree) :
    (sites (insert file path t)).Perm ((path, file) :: sites t) := by
  induction path generalizing t with
  | nil =>
    obtain ⟨files, children⟩ := t
    rw [insert, sites, sites, List.map_append, List.append_assoc]
    exact List.perm_middle
  | cons name path ih =>
    obtain ⟨files, children⟩ := t
    rw [insert, sites, sites]
    exact ((perm_childSites_update ih name children).append_left _).trans List.perm_middle

theorem perm_sites_foldl (l : List (String × List String)) (t : ModuleTree) :
    (sites (l.foldl (fun tree p => insert p.1 p.2 tree) t)).Perm (l.map Prod.swap ++ sites t) := by
  induction l generalizing t with
  | nil => exact .rfl
  | cons p l ih =>
    refine (ih _).trans ?_
    exact ((perm_sites_insert p.1 p.2 t).append_left _).trans List.perm_middle

theorem perm_sites_ofUnits (units : Dict (List String)) :
    (sites (ofUnits units)).Perm (units.toList.map Prod.swap) := by
  have h := perm_sites_foldl units.toList empty
  rwa [show sites empty = [] from rfl, List.append_nil] at h

theorem mem_sites_ofUnits {units : Dict (List String)} {path : List String} {file : String} :
    (path, file) ∈ sites (ofUnits units) ↔ units.get? file = some path := by
  rw [(perm_sites_ofUnits units).mem_iff, List.mem_map, ← Dict.mem_toList_iff]
  constructor
  · rintro ⟨⟨_, _⟩, hunit, hswap⟩
    cases hswap
    exact hunit
  · exact fun hunit => ⟨(file, path), hunit, rfl⟩

theorem mem_childOpenings {children : List (String × ModuleTree)} {path : List String} :
    path ∈ childOpenings children ↔ ∃ name child, (name, child) ∈ children ∧
      (path = [name] ∨ ∃ rest ∈ openings child, name :: rest = path) := by
  induction children with
  | nil => simp [childOpenings]
  | cons p children ih =>
    obtain ⟨name, child⟩ := p
    rw [childOpenings, List.mem_append, ih, List.mem_cons, List.mem_map]
    constructor
    · rintro (h | ⟨name, child, hmem, h⟩)
      · exact ⟨name, child, List.mem_cons_self, h⟩
      · exact ⟨name, child, List.mem_cons_of_mem _ hmem, h⟩
    · rintro ⟨name, child, hmem, h⟩
      rcases List.mem_cons.1 hmem with heq | hmem
      · cases heq
        exact .inl h
      · exact .inr ⟨name, child, hmem, h⟩

theorem child_eq {t : ModuleTree} (h : Ordered t) {name : String} {c : ModuleTree}
    (hmem : (name, c) ∈ t.children) : t.child name = c := by
  rw [child, (Dict.mem_iff_lookup h.children).1 hmem]
  rfl

theorem child_eq_empty {t : ModuleTree} {name : String} (h : name ∉ t.names) :
    t.child name = empty := by
  have hnone : t.children.lookup name = none := by
    rw [List.lookup_eq_none_iff]
    intro p hp
    rw [bne_iff_ne]
    exact fun heq => h (List.mem_map.2 ⟨p, hp, heq.symm⟩)
  rw [child, hnone]
  rfl

theorem nil_not_mem_openings (t : ModuleTree) : [] ∉ openings t := by
  obtain ⟨files, children⟩ := t
  rw [openings, mem_childOpenings]
  rintro ⟨name, child, -, h | ⟨rest, -, h⟩⟩ <;> cases h

theorem cons_mem_openings {t : ModuleTree} (h : Ordered t) {name : String} {rest : List String} :
    name :: rest ∈ openings t ↔
      name ∈ t.names ∧ (rest = [] ∨ rest ∈ openings (t.child name)) := by
  have hopenings : openings t = childOpenings t.children := by
    obtain ⟨files, children⟩ := t
    rw [openings, ModuleTree.children]
  rw [hopenings, mem_childOpenings, names, List.mem_map]
  constructor
  · rintro ⟨name', child, hmem, h' | ⟨rest', hrest, h'⟩⟩
    · cases h'
      exact ⟨⟨_, hmem, rfl⟩, .inl rfl⟩
    · cases h'
      exact ⟨⟨_, hmem, rfl⟩, .inr (child_eq h hmem ▸ hrest)⟩
  · rintro ⟨⟨⟨_, child⟩, hmem, rfl⟩, rfl | hrest⟩
    · exact ⟨_, child, hmem, .inl rfl⟩
    · exact ⟨_, child, hmem, .inr ⟨rest, child_eq h hmem ▸ hrest, rfl⟩⟩

theorem mem_openings {t : ModuleTree} (h : Ordered t) (path : List String) (name : String) :
    path ++ [name] ∈ openings t ↔ name ∈ (under path t).names := by
  induction path generalizing t with
  | nil => simp [cons_mem_openings h]
  | cons first path ih =>
    have habove (hname : name ∈ (under path (t.child first)).names) : first ∈ t.names := by
      by_contra hfirst
      rw [child_eq_empty hfirst, under_empty] at hname
      exact List.not_mem_nil hname
    rw [List.cons_append, cons_mem_openings h, ih (h.child first), under_cons]
    simp only [List.append_eq_nil_iff, List.cons_ne_self, and_false, false_or]
    exact and_iff_right_of_imp habove

mutual

theorem nodup_openings {t : ModuleTree} (h : Ordered t) : (openings t).Nodup := by
  match t with
  | node files children =>
    rw [openings]
    refine nodup_childOpenings h.children fun p hp => ?_
    rw [← child_eq h hp]
    exact h.child p.1

theorem nodup_childOpenings {children : List (String × ModuleTree)}
    (hnames : children.Pairwise fun p q => p.1 < q.1) (hchildren : ∀ p ∈ children, Ordered p.2) :
    (childOpenings children).Nodup := by
  match children with
  | [] => exact .nil
  | (name, child) :: rest =>
    obtain ⟨hname, hrest⟩ := List.pairwise_cons.1 hnames
    obtain ⟨hchild, hchildren⟩ := List.forall_mem_cons.1 hchildren
    have hbelow : ((openings child).map (name :: ·)).Nodup :=
      (nodup_openings hchild).map fun _ _ h => (List.cons.inj h).2
    have hfirst : [name] ∉ (openings child).map (name :: ·) := by
      intro h
      obtain ⟨path, hpath, heq⟩ := List.mem_map.1 h
      cases heq
      exact nil_not_mem_openings child hpath
    rw [childOpenings]
    refine (List.nodup_cons.2 ⟨hfirst, hbelow⟩).append (nodup_childOpenings hrest hchildren) ?_
    intro path hpath hother
    obtain ⟨below, rfl⟩ : ∃ below, path = name :: below := by
      rcases List.mem_cons.1 hpath with rfl | hpath
      · exact ⟨[], rfl⟩
      · obtain ⟨below, -, rfl⟩ := List.mem_map.1 hpath
        exact ⟨below, rfl⟩
    obtain ⟨_, _, hmem, heq | ⟨_, -, heq⟩⟩ := mem_childOpenings.1 hother <;>
      · cases heq
        exact String.lt_irrefl name (hname (name, _) hmem)

end

/-- The modules are the namespaces of the units and those that enclose them. -/
theorem mem_openings_ofUnits {units : Dict (List String)} {path : List String} :
    path ∈ openings (ofUnits units) ↔
      path ≠ [] ∧ ∃ file space, units.get? file = some space ∧ path <+: space := by
  rcases List.eq_nil_or_concat path with rfl | ⟨above, name, rfl⟩
  · simp [nil_not_mem_openings]
  · rw [List.concat_eq_append, mem_openings (ordered_ofUnits units), mem_names_ofUnits]
    simp

end Phrasebook.ModuleTree
