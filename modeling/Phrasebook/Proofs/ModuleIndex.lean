import Phrasebook.OutputDir
import Phrasebook.Proofs.FileTree
import Phrasebook.Proofs.Identifier
import Phrasebook.Proofs.Lines
import Phrasebook.Proofs.ModuleTree

namespace Phrasebook

namespace IndexLine

def indentation (line : List Char) : Nat := (line.takeWhile (· = ' ')).length

def readLine (line : List Char) : Option (Nat × IndexLine) := (read? line).map (indentation line, ·)

def readAll (index : String) : List (Nat × IndexLine) :=
  (index.toList.splitOn '\n').filterMap readLine

/-- The modules that are opened, each with those around it, or nothing where a module is not closed
at the indentation at which it was opened. `around` are the modules that are open. -/
def modules? (around : List (Nat × String)) : List (Nat × IndexLine) → Option (List (List String))
  | [] => if around = [] then some [] else none
  | (_, file _) :: ls => modules? around ls
  | (n, opening name) :: ls =>
    (modules? (around ++ [(n, name)]) ls).map ((around ++ [(n, name)]).map (·.2) :: ·)
  | (n, closing) :: ls =>
    if around.getLast?.map (·.1) = some n then modules? around.dropLast ls else none

def indented : Nat → List IndexLine → List (Nat × IndexLine)
  | _, [] => []
  | depth, file name :: ls => (4 * depth, file name) :: indented depth ls
  | depth, opening name :: ls => (4 * depth, opening name) :: indented (depth + 1) ls
  | depth, closing :: ls => (4 * (depth - 1), closing) :: indented (depth - 1) ls

theorem map_snd_indented (depth : Nat) (ls : List IndexLine) :
    (indented depth ls).map (·.2) = ls := by
  fun_induction indented depth ls with
  | case1 => rfl
  | case2 _ _ _ ih => rw [List.map_cons, ih]
  | case3 _ _ _ ih => rw [List.map_cons, ih]
  | case4 _ _ ih => rw [List.map_cons, ih]

structure IsName (name : String) : Prop where
  no_blank : ' ' ∉ name.toList
  oneLine : SourceUnit.OneLine name

theorem toList_indent (depth : Nat) (s : String) :
    (indent depth s).toList = List.replicate (4 * depth) ' ' ++ s.toList := by
  rw [indent, String.toList_append, String.toList_ofList]

theorem indentation_indent (depth : Nat) {s : String} (h : s.toList.head? ≠ some ' ') :
    indentation (indent depth s).toList = 4 * depth := by
  rw [indentation, toList_indent, List.takeWhile_append_of_pos (by simp)]
  cases hs : s.toList with
  | nil => simp
  | cons c cs =>
    have hc : c ≠ ' ' := fun hc => h (by rw [hs, hc]; rfl)
    simp [hc]

theorem read?_indent (depth : Nat) (s : String) :
    read? (indent depth s).toList = read? s.toList := by
  simp only [read?, toList_indent]
  rw [List.dropWhile_append_of_pos (by simp)]

theorem toList_file (name : String) : s!"include!({Text.quote name});".toList =
    "include!(".toList ++ ((Text.quote name).toList ++ [')', ';']) := by
  change ("include!(" ++ Text.quote name ++ ");").toList = _
  simp only [String.toList_append, List.append_assoc]
  rfl

theorem toList_opening (name : String) : s!"pub mod {name} \x7b".toList =
    "pub mod ".toList ++ (name.toList ++ ' ' :: ['\x7b']) := by
  change ("pub mod " ++ name ++ " \x7b").toList = _
  simp only [String.toList_append, List.append_assoc]
  rfl

theorem read?_file (name : String) :
    read? s!"include!({Text.quote name});".toList = some (file name) := by
  have hblank (r : List Char) :
      ("include!(".toList ++ r).dropWhile (· = ' ') = "include!(".toList ++ r := rfl
  have hopens (r : List Char) : "include!(".toList.isPrefixOf? ("include!(".toList ++ r) = some r :=
    List.isPrefixOf?_eq_some_iff_append_eq.2 rfl
  simp only [toList_file, read?, hblank, hopens, Text.readQuoted_quote]

theorem read?_opening {name : String} (h : ' ' ∉ name.toList) :
    read? s!"pub mod {name} \x7b".toList = some (opening name) := by
  have hblank (r : List Char) :
      ("pub mod ".toList ++ r).dropWhile (· = ' ') = "pub mod ".toList ++ r := rfl
  have hother (r : List Char) :
      "include!(".toList.isPrefixOf? ("pub mod ".toList ++ r) = none := rfl
  have hopens (r : List Char) : "pub mod ".toList.isPrefixOf? ("pub mod ".toList ++ r) = some r :=
    List.isPrefixOf?_eq_some_iff_append_eq.2 rfl
  simp only [toList_opening, read?, hblank, hother, hopens, SourceUnit.takeWhile_append_mark h,
    SourceUnit.dropWhile_append_mark h, if_pos, String.ofList_toList]

theorem readLine_indent (depth : Nat) {s : String} (h : s.toList.head? ≠ some ' ') :
    readLine (indent depth s).toList = (read? s.toList).map (4 * depth, ·) := by
  rw [readLine, read?_indent, indentation_indent depth h]

theorem readLine_file (depth : Nat) (name : String) :
    readLine (indent depth s!"include!({Text.quote name});").toList =
      some (4 * depth, file name) := by
  rw [readLine_indent depth (by rw [toList_file]; simp), read?_file]
  rfl

theorem readLine_attribute (depth : Nat) :
    readLine (indent depth "#[allow(non_snake_case)]").toList = none := by
  rw [readLine_indent depth (by simp)]
  rfl

theorem readLine_opening (depth : Nat) {name : String} (h : IsName name) :
    readLine (indent depth s!"pub mod {name} \x7b").toList =
      some (4 * depth, opening name) := by
  rw [readLine_indent depth (by rw [toList_opening]; simp), read?_opening h.no_blank]
  rfl

theorem readLine_closing (depth : Nat) :
    readLine (indent depth "\x7d").toList = some (4 * depth, closing) := by
  rw [readLine_indent depth (by simp)]
  rfl

theorem filterMap_render (depth : Nat) {ls : List IndexLine}
    (h : ∀ name, opening name ∈ ls → IsName name) :
    ((render depth ls).map String.toList).filterMap readLine = indented depth ls := by
  induction ls generalizing depth with
  | nil => rfl
  | cons l ls ih =>
    have hrest (depth : Nat) :
        ((render depth ls).map String.toList).filterMap readLine = indented depth ls :=
      ih depth fun name hname => h name (List.mem_cons_of_mem l hname)
    cases l with
    | file name =>
      rw [render, indented, List.map_cons, List.filterMap_cons_some (readLine_file ..), hrest]
    | opening name =>
      have hopening := readLine_opening depth (h name List.mem_cons_self)
      rw [render, indented, List.map_cons, List.filterMap_cons_none (readLine_attribute depth),
        List.map_cons, List.filterMap_cons_some hopening, hrest]
    | closing =>
      rw [render, indented, List.map_cons, List.filterMap_cons_some (readLine_closing ..), hrest]

theorem oneLine_indent (depth : Nat) {s : String} (h : SourceUnit.OneLine s) :
    SourceUnit.OneLine (indent depth s) := by
  refine SourceUnit.oneLine_append ?_ h
  rw [SourceUnit.OneLine, String.toList_ofList, List.mem_replicate]
  rintro ⟨-, heq⟩
  cases heq

theorem forall_render {p : String → Prop}
    (hfile : ∀ depth name, p (indent depth s!"include!({Text.quote name});"))
    (hattribute : ∀ depth, p (indent depth "#[allow(non_snake_case)]"))
    (hopening : ∀ depth name, IsName name → p (indent depth s!"pub mod {name} \x7b"))
    (hclosing : ∀ depth, p (indent depth "\x7d")) (depth : Nat) {ls : List IndexLine}
    (h : ∀ name, opening name ∈ ls → IsName name) : ∀ line ∈ render depth ls, p line := by
  induction ls generalizing depth with
  | nil => exact fun line hline => absurd hline List.not_mem_nil
  | cons l ls ih =>
    have hrest (depth : Nat) : ∀ line ∈ render depth ls, p line :=
      ih depth fun name hname => h name (List.mem_cons_of_mem l hname)
    cases l with
    | file name => exact List.forall_mem_cons.2 ⟨hfile depth name, hrest depth⟩
    | opening name =>
      have hname := hopening depth name (h name List.mem_cons_self)
      exact List.forall_mem_cons.2 ⟨hattribute depth, List.forall_mem_cons.2 ⟨hname, hrest _⟩⟩
    | closing => exact List.forall_mem_cons.2 ⟨hclosing (depth - 1), hrest (depth - 1)⟩

theorem oneLine_render (depth : Nat) {ls : List IndexLine}
    (h : ∀ name, opening name ∈ ls → IsName name) :
    ∀ line ∈ render depth ls, SourceUnit.OneLine line := by
  refine forall_render ?_ ?_ ?_ ?_ depth h
  · exact fun depth name => oneLine_indent depth (SourceUnit.oneLine_append
      (SourceUnit.oneLine_append (by decide) (SourceUnit.oneLine_quote name)) (by decide))
  · exact fun depth => oneLine_indent depth (by decide)
  · exact fun depth name hname => oneLine_indent depth (SourceUnit.oneLine_append
      (SourceUnit.oneLine_append (by decide) hname.oneLine) (by decide))
  · exact fun depth => oneLine_indent depth (by decide)

def IsIdle (line : List Char) : Prop :=
  line = [] ∨ "//".toList <+: line ∨ "#[".toList <+: line.dropWhile (· = ' ')

instance (line : List Char) : Decidable (IsIdle line) := inferInstanceAs (Decidable (_ ∨ _ ∨ _))

theorem isIdle_render (depth : Nat) {ls : List IndexLine}
    (h : ∀ name, opening name ∈ ls → IsName name) :
    ∀ line ∈ render depth ls, read? line.toList = none → IsIdle line.toList := by
  refine forall_render ?_ ?_ ?_ ?_ depth h
  · intro depth name hnone
    rw [read?_indent, read?_file] at hnone
    cases hnone
  · intro depth _
    refine .inr (.inr ?_)
    rw [toList_indent, List.dropWhile_append_of_pos (by simp)]
    decide
  · intro depth name hname hnone
    rw [read?_indent, read?_opening hname.no_blank] at hnone
    cases hnone
  · intro depth hnone
    rw [read?_indent] at hnone
    cases hnone

end IndexLine

def indexHeader : List String :=
  ["// <auto-generated>", "//     Generated by i18ntext.", "// </auto-generated>", ""]

theorem moduleIndex_eq (units : Dict (List String)) : moduleIndex units =
    SourceUnit.lines (indexHeader ++ IndexLine.render 0 (ModuleTree.ofUnits units).lines) := by
  rw [SourceUnit.lines_append]
  rfl

section

variable {units : Dict (List String)}
  (h : ∀ name, .opening name ∈ (ModuleTree.ofUnits units).lines → IndexLine.IsName name)

include h

theorem splitOn_moduleIndex : (moduleIndex units).toList.splitOn '\n' =
    (indexHeader ++ IndexLine.render 0 (ModuleTree.ofUnits units).lines).map String.toList ++
      [[]] := by
  rw [moduleIndex_eq]
  apply SourceUnit.splitOn_lines
  intro line hline
  rcases List.mem_append.1 hline with hline | hline
  · exact (by decide : ∀ line ∈ indexHeader, SourceUnit.OneLine line) line hline
  · exact IndexLine.oneLine_render 0 h line hline

theorem readAll_moduleIndex : IndexLine.readAll (moduleIndex units) =
    IndexLine.indented 0 (ModuleTree.ofUnits units).lines := by
  have hheader : (indexHeader.map String.toList).filterMap IndexLine.readLine = [] := by decide
  have hend : [[]].filterMap IndexLine.readLine = [] := rfl
  rw [IndexLine.readAll, splitOn_moduleIndex h, List.map_append, List.filterMap_append,
    List.filterMap_append, hheader, IndexLine.filterMap_render 0 h, hend, List.append_nil,
    List.nil_append]

theorem isIdle_moduleIndex : ∀ line ∈ (moduleIndex units).toList.splitOn '\n',
    IndexLine.read? line = none → IndexLine.IsIdle line := by
  rw [splitOn_moduleIndex h]
  intro line hline
  rcases List.mem_append.1 hline with hline | hline
  · obtain ⟨text, htext, rfl⟩ := List.mem_map.1 hline
    rcases List.mem_append.1 htext with htext | htext
    · exact fun _ => (by decide : ∀ l ∈ indexHeader, IndexLine.IsIdle l.toList) text htext
    · exact IndexLine.isIdle_render 0 h text htext
  · exact fun _ => .inl (List.mem_singleton.1 hline)

end

theorem readModuleIndex_eq (index : String) :
    readModuleIndex index = IndexLine.places? [] ((IndexLine.readAll index).map (·.2)) := by
  rw [readModuleIndex, IndexLine.readAll, List.map_filterMap]
  simp only [IndexLine.readLine, Option.map_map, Function.comp_def, Option.map_id']

namespace IndexLine

def within (around : List String) (path : List String) : List String :=
  around ++ path.map Identifier.render

theorem within_nil (around : List String) : within around [] = around := List.append_nil around

theorem within_cons (around : List String) (name : String) (path : List String) :
    within around (name :: path) = within (around ++ [Identifier.render name]) path := by
  rw [within, within, List.map_cons, List.append_assoc]
  rfl

section

variable (around : List String)

def placesWithin (sites : List (List String × String)) : List (List String × String) :=
  sites.map (Prod.map (within around) id)

theorem placesWithin_append (sites others : List (List String × String)) :
    placesWithin around (sites ++ others) =
      placesWithin around sites ++ placesWithin around others := List.map_append

theorem placesWithin_child (name : String) (sites : List (List String × String)) :
    placesWithin around (sites.map (Prod.map (name :: ·) id)) =
      placesWithin (around ++ [Identifier.render name]) sites := by
  rw [placesWithin, List.map_map]
  exact List.map_congr_left fun site _ => Prod.ext (within_cons around name site.1) rfl

theorem places?_files (files : List String) {ls : List IndexLine}
    {found : List (List String × String)} (h : places? around ls = some found) :
    places? around (files.map file ++ ls) =
      some (placesWithin around (files.map ([], ·)) ++ found) := by
  induction files with
  | nil => exact h
  | cons name files ih =>
    rw [List.map_cons, List.cons_append, places?, ih, Option.map_some]
    simp only [placesWithin, List.map_cons, List.cons_append, Prod.map_apply, within_nil, id_eq]

end

mutual

theorem places?_lines (around : List String) (t : ModuleTree) {ls : List IndexLine}
    {found : List (List String × String)} (h : places? around ls = some found) :
    places? around (t.lines ++ ls) = some (placesWithin around t.sites ++ found) := by
  match t with
  | .node files children =>
    rw [ModuleTree.lines, ModuleTree.sites, List.append_assoc, placesWithin_append,
      List.append_assoc]
    exact places?_files around files (places?_childLines around children h)

theorem places?_childLines (around : List String) (children : List (String × ModuleTree))
    {ls : List IndexLine} {found : List (List String × String)}
    (h : places? around ls = some found) :
    places? around (ModuleTree.childLines children ++ ls) =
      some (placesWithin around (ModuleTree.childSites children) ++ found) := by
  match children with
  | [] => exact h
  | (name, child) :: rest =>
    -- Behind the lines of a child stand its end and its siblings.
    have hclosed : places? (around ++ [Identifier.render name])
        (closing :: (ModuleTree.childLines rest ++ ls)) =
          some (placesWithin around (ModuleTree.childSites rest) ++ found) := by
      rw [places?, if_neg (by simp), List.dropLast_concat]
      exact places?_childLines around rest h
    rw [ModuleTree.childLines, ModuleTree.childSites, placesWithin_append, placesWithin_child,
      List.append_assoc, List.append_assoc]
    exact places?_lines (around ++ [Identifier.render name]) child hclosed

end

theorem modules?_files (around : List (Nat × String)) (depth : Nat) (files : List String)
    (ls : List IndexLine) : modules? around (indented depth (files.map file ++ ls)) =
      modules? around (indented depth ls) := by
  induction files with
  | nil => rfl
  | cons name files ih => exact ih

mutual

/-- The modules of a tree are found among its lines, whatever lines follow. -/
theorem modules?_lines (around : List (Nat × String)) (t : ModuleTree) {ls : List IndexLine}
    {found : List (List String)} (h : modules? around (indented around.length ls) = some found) :
    modules? around (indented around.length (t.lines ++ ls)) =
      some (t.openings.map (within (around.map (·.2))) ++ found) := by
  match t with
  | .node files children =>
    rw [ModuleTree.lines, ModuleTree.openings, List.append_assoc, modules?_files]
    exact modules?_childLines around children h

theorem modules?_childLines (around : List (Nat × String)) (children : List (String × ModuleTree))
    {ls : List IndexLine} {found : List (List String)}
    (h : modules? around (indented around.length ls) = some found) :
    modules? around (indented around.length (ModuleTree.childLines children ++ ls)) =
      some ((ModuleTree.childOpenings children).map (within (around.map (·.2))) ++ found) := by
  match children with
  | [] => exact h
  | (name, child) :: rest =>
    have hlength : (around ++ [(4 * around.length, Identifier.render name)]).length =
        around.length + 1 := List.length_append
    have hclosed : modules? (around ++ [(4 * around.length, Identifier.render name)])
        (indented (around.length + 1) (closing :: (ModuleTree.childLines rest ++ ls))) =
          some ((ModuleTree.childOpenings rest).map (within (around.map (·.2))) ++ found) := by
      rw [indented, modules?, if_pos (by simp), List.dropLast_concat]
      exact modules?_childLines around rest h
    rw [← hlength] at hclosed
    have hchild := modules?_lines _ child hclosed
    rw [hlength] at hchild
    rw [ModuleTree.childLines, ModuleTree.childOpenings, List.append_assoc, List.cons_append,
      List.cons_append, indented, modules?, hchild]
    simp [within_cons, within_nil, Function.comp_def]

end

mutual

theorem exists_of_opening_mem_lines {name : String} {t : ModuleTree} (h : opening name ∈ t.lines) :
    ∃ path ∈ t.openings, ∃ segment ∈ path, Identifier.render segment = name := by
  match t with
  | .node files children =>
    rw [ModuleTree.lines, List.mem_append] at h
    rw [ModuleTree.openings]
    exact exists_of_opening_mem_childLines (h.resolve_left (by simp))

theorem exists_of_opening_mem_childLines {name : String} {children : List (String × ModuleTree)}
    (h : opening name ∈ ModuleTree.childLines children) :
    ∃ path ∈ ModuleTree.childOpenings children, ∃ segment ∈ path,
      Identifier.render segment = name := by
  match children with
  | [] => cases h
  | (first, child) :: rest =>
    rw [ModuleTree.childOpenings]
    rcases List.mem_append.1 h with h | h
    · rcases List.mem_cons.1 h with heq | h
      · cases heq
        exact ⟨[first], by simp, first, by simp, rfl⟩
      · obtain ⟨path, hpath, segment, hsegment, hname⟩ := exists_of_opening_mem_lines h
        have hmem : first :: path ∈ [first] :: child.openings.map (first :: ·) :=
          List.mem_cons_of_mem _ (List.mem_map_of_mem hpath)
        exact ⟨first :: path, List.mem_append_left _ hmem, segment,
          List.mem_cons_of_mem first hsegment, hname⟩
    · obtain ⟨path, hpath, h⟩ := exists_of_opening_mem_childLines
        ((List.mem_cons.1 h).resolve_left (by simp))
      exact ⟨path, List.mem_append_right _ hpath, h⟩

end

theorem isName_render {segment : String} (h : Identifier.isIdentifier segment = true) :
    IsName (Identifier.render segment) := by
  have hchars := Identifier.mem_render (Identifier.isWord_of_isIdentifier h)
  constructor
  · intro hmem
    exact absurd (hchars ' ' hmem) (by decide)
  · intro hmem
    exact absurd (hchars '\n' hmem) (by decide)

end IndexLine

def HasIdentifiers (units : Dict (List String)) : Prop :=
  ∀ file space, units.get? file = some space → ∀ segment ∈ space,
    Identifier.isIdentifier segment = true

namespace HasIdentifiers

variable {units : Dict (List String)} (h : HasIdentifiers units)

include h

theorem isName {name : String} (hmem : .opening name ∈ (ModuleTree.ofUnits units).lines) :
    IndexLine.IsName name := by
  obtain ⟨path, hpath, segment, hsegment, rfl⟩ := IndexLine.exists_of_opening_mem_lines hmem
  obtain ⟨-, file, space, hget, habove⟩ := ModuleTree.mem_openings_ofUnits.1 hpath
  exact IndexLine.isName_render (h file space hget segment (habove.subset hsegment))

theorem readModuleIndex_moduleIndex : readModuleIndex (moduleIndex units) =
    some ((ModuleTree.ofUnits units).sites.map (Prod.map (·.map Identifier.render) id)) := by
  have hplaces : IndexLine.places? [] ((ModuleTree.ofUnits units).lines ++ []) = some _ :=
    IndexLine.places?_lines [] (ModuleTree.ofUnits units) rfl
  rw [List.append_nil, List.append_nil] at hplaces
  rw [readModuleIndex_eq, readAll_moduleIndex fun _ => h.isName, IndexLine.map_snd_indented]
  exact hplaces

theorem modules?_moduleIndex : IndexLine.modules? [] (IndexLine.readAll (moduleIndex units)) =
    some ((ModuleTree.ofUnits units).openings.map (·.map Identifier.render)) := by
  have hmodules : IndexLine.modules? []
      (IndexLine.indented 0 ((ModuleTree.ofUnits units).lines ++ [])) = some _ :=
    IndexLine.modules?_lines [] (ModuleTree.ofUnits units) rfl
  rw [List.append_nil, List.append_nil] at hmodules
  rw [readAll_moduleIndex fun _ => h.isName]
  exact hmodules

end HasIdentifiers

structure Indexes (units : List SourceUnit) (index : String) : Prop where
  places : ∃ places, readModuleIndex index = some places ∧ (places.map (·.2)).Nodup ∧
    ∀ path file, (path, file) ∈ places ↔
      ∃ u ∈ units, u.fileName = file ∧ u.nameSpace.map Identifier.render = path
  /-- A module that is not closed at its own indentation would not be read. -/
  modules : ∃ modules : List (List String), modules.Nodup ∧
    IndexLine.modules? [] (IndexLine.readAll index) =
      some (modules.map (·.map Identifier.render)) ∧
    ∀ path, path ∈ modules ↔ path ≠ [] ∧ ∃ u ∈ units, path <+: u.nameSpace
  others : ∀ line ∈ index.toList.splitOn '\n',
    IndexLine.read? line = none → IndexLine.IsIdle line

theorem indexes_moduleIndex {units : List SourceUnit} {spaces : Dict (List String)}
    (hspaces : ∀ file space, spaces.get? file = some space ↔
      ∃ u ∈ units, u.fileName = file ∧ u.nameSpace = space)
    (hsegments : ∀ u ∈ units, ∀ segment ∈ u.nameSpace, Identifier.isIdentifier segment = true) :
    Indexes units (moduleIndex spaces) := by
  have hidentifiers : HasIdentifiers spaces := by
    intro file space hget
    obtain ⟨u, hu, -, rfl⟩ := (hspaces file space).1 hget
    exact hsegments u hu
  constructor
  case places =>
    refine ⟨_, hidentifiers.readModuleIndex_moduleIndex, ?_, fun path file => ?_⟩
    · have hfiles := (ModuleTree.perm_sites_ofUnits spaces).map Prod.snd
      rw [List.map_map] at hfiles ⊢
      exact hfiles.nodup_iff.2 spaces.nodup_keys
    · simp only [List.mem_map, Prod.exists, Prod.map_apply, id_eq, Prod.mk.injEq]
      constructor
      · rintro ⟨space, _, hsite, rfl, rfl⟩
        obtain ⟨u, hu, hfile, rfl⟩ := (hspaces _ space).1 (ModuleTree.mem_sites_ofUnits.1 hsite)
        exact ⟨u, hu, hfile, rfl⟩
      · rintro ⟨u, hu, rfl, rfl⟩
        have hget := (hspaces u.fileName u.nameSpace).2 ⟨u, hu, rfl, rfl⟩
        exact ⟨_, _, ModuleTree.mem_sites_ofUnits.2 hget, rfl, rfl⟩
  case modules =>
    refine ⟨_, ModuleTree.nodup_openings (ModuleTree.ordered_ofUnits spaces),
      hidentifiers.modules?_moduleIndex, fun path => ?_⟩
    rw [ModuleTree.mem_openings_ofUnits]
    apply and_congr_right
    intro
    constructor
    · rintro ⟨file, space, hget, hprefix⟩
      obtain ⟨u, hu, -, rfl⟩ := (hspaces file space).1 hget
      exact ⟨u, hu, hprefix⟩
    · rintro ⟨u, hu, hprefix⟩
      exact ⟨_, _, (hspaces _ _).2 ⟨u, hu, rfl, rfl⟩, hprefix⟩
  case others => exact isIdle_moduleIndex fun _ => hidentifiers.isName

namespace OutputDir

/-- One save after the other, each in any state of the file tree. -/
inductive Saves : OutputDir → List SourceUnit → OutputDir → Prop
  | nil (d : OutputDir) : Saves d [] d
  | cons {d e : OutputDir} {u : SourceUnit} {units : List SourceUnit} (t : FileTree)
      (saved : (d.save u t).1 = .ok ()) (rest : Saves (d.save u t).2.1 units e) :
      Saves d (u :: units) e

theorem save_eq_ok {d : OutputDir} {u : SourceUnit} {t : FileTree} (h : (d.save u t).1 = .ok ()) :
    (d.save u t).2.1 = { d with saved := d.saved.insert u.fileName u.nameSpace } := by
  unfold save at h ⊢
  split at h
  · cases h
  · split at h
    · rfl
    · cases h

theorem Saves.get?_eq_some {d e : OutputDir} {units : List SourceUnit} (h : Saves d units e)
    (hnames : ∀ u ∈ units, ∀ v ∈ units, u.fileName = v.fileName → u.nameSpace = v.nameSpace)
    {file : String} {space : List String} : e.saved.get? file = some space ↔
      (∃ u ∈ units, u.fileName = file ∧ u.nameSpace = space) ∨
        (∀ u ∈ units, u.fileName ≠ file) ∧ d.saved.get? file = some space := by
  induction h with
  | nil d => simp
  | @cons d e u units t saved rest ih =>
    rw [ih fun u hu v hv => hnames u (List.mem_cons_of_mem _ hu) v (List.mem_cons_of_mem _ hv),
      save_eq_ok saved, Dict.get?_insert]
    simp only [List.mem_cons, exists_eq_or_imp, forall_eq_or_imp]
    by_cases hfile : file = u.fileName
    · subst hfile
      rw [if_pos rfl]
      constructor
      · rintro (h | ⟨-, h⟩)
        · exact .inl (.inr h)
        · exact .inl (.inl ⟨rfl, Option.some.inj h⟩)
      · rintro ((⟨-, rfl⟩ | h) | h)
        · by_cases hagain : ∃ v ∈ units, v.fileName = u.fileName
          · obtain ⟨v, hv, hname⟩ := hagain
            have hspace := hnames v (List.mem_cons_of_mem u hv) u List.mem_cons_self hname
            exact .inl ⟨v, hv, hname, hspace⟩
          · exact .inr ⟨fun v hv hname => hagain ⟨v, hv, hname⟩, rfl⟩
        · exact .inl h
        · exact absurd rfl h.1.1
    · simp [hfile, Ne.symm hfile]

theorem refresh_eq_ok {t t' : FileTree} {p : Path} {content : String}
    (h : refresh t p content = (.ok (), t')) : t'.read? p = some (Text.Utf8.ofString content) := by
  unfold refresh at h
  dsimp only at h
  split at h
  · next hread =>
    cases h
    exact hread
  · split at h
    · next hwrite =>
      cases h
      exact FileTree.read?_of_write? hwrite
    · cases h

theorem writeIndex_eq_ok {d : OutputDir} {t t' : FileTree} {p : Path}
    (h : d.writeIndex t = (.ok p, t')) :
    p = d.indexPath ∧ t'.read? p = some (Text.Utf8.ofString (moduleIndex d.saved)) := by
  unfold writeIndex at h
  split at h
  · next hrefresh =>
    cases h
    exact ⟨rfl, refresh_eq_ok hrefresh⟩
  · cases h

theorem Saves.get?_start {dir : Path} {d : OutputDir} {units : List SourceUnit}
    (h : Saves (start dir) units d)
    (hnames : ∀ u ∈ units, ∀ v ∈ units, u.fileName = v.fileName → u.nameSpace = v.nameSpace)
    (file : String) (space : List String) : d.saved.get? file = some space ↔
      ∃ u ∈ units, u.fileName = file ∧ u.nameSpace = space := by
  rw [h.get?_eq_some hnames]
  simp [start]

/-- The index of saved units includes each of them once. It is the same for the same units, in
whatever order and however often they were saved. -/
theorem index_of_saves {dir : Path} {d : OutputDir} {units : List SourceUnit}
    (hsaves : Saves (start dir) units d)
    (hnames : ∀ u ∈ units, ∀ v ∈ units, u.fileName = v.fileName → u.nameSpace = v.nameSpace)
    (hsegments : ∀ u ∈ units, ∀ segment ∈ u.nameSpace, Identifier.isIdentifier segment = true) :
    Indexes units (moduleIndex d.saved) ∧
      (∀ {t t' : FileTree} {p : Path}, d.writeIndex t = (.ok p, t') →
        p = d.indexPath ∧ t'.read? p = some (Text.Utf8.ofString (moduleIndex d.saved))) ∧
      ∀ {dir' : Path} {d' : OutputDir} {units' : List SourceUnit}, Saves (start dir') units' d' →
        (∀ u, u ∈ units' ↔ u ∈ units) → moduleIndex d'.saved = moduleIndex d.saved := by
  refine ⟨indexes_moduleIndex (hsaves.get?_start hnames) hsegments, writeIndex_eq_ok, ?_⟩
  intro dir' d' units' hsaves' hsame
  have hnames' : ∀ u ∈ units', ∀ v ∈ units', u.fileName = v.fileName → u.nameSpace = v.nameSpace :=
    fun u hu v hv => hnames u ((hsame u).1 hu) v ((hsame v).1 hv)
  congr 1
  apply Dict.ext_get?
  intro file
  apply Option.ext
  intro space
  rw [hsaves.get?_start hnames, hsaves'.get?_start hnames']
  simp only [hsame]

def nestedUnits : List SourceUnit :=
  let inner : SourceUnit := ⟨"App.self.Menu.g.rs", "App.self.Menu", ["App", "self"], "", []⟩
  [inner, ⟨"App.Greeting.g.rs", "App.Greeting", ["App"], "", []⟩, inner]

theorem save_nestedUnits {d : OutputDir} (hdir : d.dir = .ofString "") :
    ∀ u ∈ nestedUnits, (d.save u .empty).1 = .ok () := by
  have hfiles : ∀ u ∈ nestedUnits, let p := Path.ofString u.fileName
      FileTree.isPath p = true ∧ p.pieces = [p.bytes] ∧ FileTree.isName p.bytes = true ∧
        p.bytes ∉ [[], [Path.dot], [Path.dot, Path.dot]] ∧ (Path.ofString "").join p = p ∧
        u.tableFiles = [] := by
    decide +kernel
  intro u hu
  obtain ⟨hpath, hpieces, hname, hplain, hjoin, htables⟩ := hfiles u hu
  have hlocate := FileTree.locate_empty hpath hpieces hname hplain
  have hmade : FileTree.empty.createDirectories d.dir = (true, .empty) := by
    rw [hdir]
    rfl
  rw [save, hmade]
  simp [writeAll, unitFiles, filePath, hdir, hjoin, htables, refresh, FileTree.read?,
    FileTree.find?, FileTree.write?, hlocate]

theorem exists_saves {d : OutputDir} (hdir : d.dir = .ofString "") {units : List SourceUnit}
    (hunits : units ⊆ nestedUnits) : ∃ e, Saves d units e := by
  induction units generalizing d with
  | nil => exact ⟨d, .nil d⟩
  | cons u units ih =>
    obtain ⟨hu, hunits⟩ := List.cons_subset.1 hunits
    have hsave := save_nestedUnits hdir u hu
    have hdir' : (d.save u .empty).2.1.dir = .ofString "" := by
      rw [save_eq_ok hsave]
      exact hdir
    obtain ⟨e, he⟩ := ih hdir' hunits
    exact ⟨e, .cons .empty hsave he⟩

theorem index_of_saves_nestedUnits : ∃ d d', Saves (start (.ofString "")) nestedUnits d ∧
    Saves (start (.ofString "")) nestedUnits.tail d' ∧
      Indexes nestedUnits (moduleIndex d.saved) ∧ moduleIndex d'.saved = moduleIndex d.saved := by
  obtain ⟨d, hsaves⟩ := exists_saves (d := start (.ofString "")) rfl (List.Subset.refl _)
  obtain ⟨d', hsaves'⟩ :=
    exists_saves (d := start (.ofString "")) rfl fun _ => List.mem_of_mem_tail
  obtain ⟨hindexes, -, hsame⟩ := index_of_saves hsaves (by decide) (by decide)
  have hunits : ∀ u, u ∈ nestedUnits.tail ↔ u ∈ nestedUnits := by simp [nestedUnits]
  exact ⟨d, d', hsaves, hsaves', hindexes, hsame hsaves' hunits⟩

end OutputDir

end Phrasebook
