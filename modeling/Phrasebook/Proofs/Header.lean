import Phrasebook.Proofs.Rebasing
import Phrasebook.Proofs.SourceUnit
import Phrasebook.Proofs.Tag
import Phrasebook.Proofs.Utf8

/-!
The comment in front of a unit. Each file has one line in it, with the language and the path as seen
from the base directory, unless the shown path has a line end in it. What stands behind that is
outside the comment, for nowhere in a path do two slashes follow a line end.
-/

namespace Phrasebook

section

variable {α : Type} (sep : List α)

theorem prefix_intercalate (part : List α) (parts : List (List α)) :
    part <+: sep.intercalate (part :: parts) := by
  cases parts with
  | nil => exact List.intercalate_singleton ▸ List.prefix_rfl
  | cons next parts =>
    rw [List.intercalate_cons_cons, List.append_assoc]
    exact List.prefix_append _ _

theorem append_infix_intercalate (first : List α) {part : List α} {parts : List (List α)}
    (h : part ∈ parts) : sep ++ part <:+: sep.intercalate (first :: parts) := by
  induction parts generalizing first with
  | nil => cases h
  | cons next parts ih =>
    rw [List.intercalate_cons_cons]
    rcases List.mem_cons.1 h with rfl | h
    · rw [List.append_assoc]
      obtain ⟨rest, hrest⟩ := prefix_intercalate sep part parts
      exact ⟨first, rest, by rw [← hrest, List.append_assoc, List.append_assoc]⟩
    · exact (ih next h).trans (List.suffix_append _ _).isInfix

theorem infix_intercalate {part : List α} {parts : List (List α)} (h : part ∈ parts) :
    part <:+: sep.intercalate parts := by
  cases parts with
  | nil => cases h
  | cons first parts =>
    rcases List.mem_cons.1 h with rfl | h
    · exact (prefix_intercalate sep part parts).isInfix
    · exact (List.suffix_append _ _).isInfix.trans (append_infix_intercalate sep first h)

end

section

variable {α : Type} [BEq α] [LawfulBEq α] {x : α}

theorem splitOn_append_of_not_mem {front : List α} (h : x ∉ front) (xs : List α) :
    (front ++ xs).splitOn x = (xs.splitOn x).modifyHead (front ++ ·) := by
  induction front with
  | nil =>
    rw [List.nil_append]
    cases xs.splitOn x <;> rfl
  | cons c front ih =>
    rw [List.mem_cons, not_or] at h
    rw [List.cons_append, List.splitOn_cons_eq_if_modifyHead, if_neg (by simpa using Ne.symm h.1),
      ih h.2, List.modifyHead_modifyHead]
    rfl

theorem cons_infix_of_mem_tail {xs line : List α} (h : line ∈ (xs.splitOn x).tail) :
    x :: line <:+: xs := by
  obtain ⟨first, lines, hlines⟩ := List.exists_cons_of_ne_nil (List.splitOn_ne_nil x xs)
  rw [hlines, List.tail_cons] at h
  have hwithin := append_infix_intercalate [x] first h
  rw [← hlines, List.intercalate_splitOn] at hwithin
  exact hwithin

end

namespace Path

theorem root_not_mem_tail_components (p : Path) : .root ∉ p.components.tail := by
  have hsteps : .root ∉ p.steps := fun h => by
    rcases mem_steps h with h | ⟨_, h, -⟩ <;> cases h
  rw [components_eq, lead]
  split
  · exact hsteps
  · split
    · exact hsteps
    · exact fun h => hsteps (List.mem_of_mem_tail h)

theorem bytes_of_mem_components {p : Path} {c : Component} (h : c ∈ p.components)
    (hroot : c ≠ .root) : c.bytes ≠ [] ∧ slash ∉ c.bytes := by
  cases c with
  | root => exact absurd rfl hroot
  | current => exact ⟨List.cons_ne_nil _ _, by decide⟩
  | parent => exact ⟨List.cons_ne_nil _ _, by decide⟩
  | name bs =>
    have hname := isName_of_mem_components h
    exact ⟨hname.ne_nil, hname.slash_not_mem⟩

end Path

def Options.shown (o : Options) (p : Path) : List Path.Component :=
  ((o.resolve p).below? o.baseDir).getD (o.resolve p).components

namespace SourceUnit

variable (o : Options) (path : Path)

theorem shown_suffix : o.shown path <:+ (o.resolve path).components := by
  rw [Options.shown]
  cases hbelow : (o.resolve path).below? o.baseDir with
  | none => exact List.suffix_rfl
  | some cs =>
    rw [Path.below?_eq_some_iff.1 hbelow]
    exact List.suffix_append _ _

def partOf (c : Path.Component) : List Char := Text.Utf8.decodeLossy c.bytes

theorem toList_shownPath :
    (shownPath o path).toList = ['/'].intercalate ((o.shown path).map partOf) := by
  rw [shownPath, String.toList_intercalate, List.map_map]
  refine congrArg _ (List.map_congr_left fun c _ => ?_)
  exact String.toList_ofList

theorem newline_mem_shownPath_iff :
    '\n' ∈ (shownPath o path).toList ↔ ∃ c ∈ o.shown path, 0x0A ∈ c.bytes := by
  have hpart (c : Path.Component) : '\n' ∈ partOf c ↔ 0x0A ∈ c.bytes :=
    Text.Utf8.mem_decodeLossy (n := 0x0A) (by decide) (by decide)
  rw [toList_shownPath]
  constructor
  · intro h
    rcases mem_of_mem_intercalate h with h | ⟨part, hmem, h⟩
    · cases List.mem_singleton.1 h
    · obtain ⟨c, hc, rfl⟩ := List.mem_map.1 hmem
      exact ⟨c, hc, (hpart c).1 h⟩
  · rintro ⟨c, hc, h⟩
    exact (infix_intercalate _ (List.mem_map_of_mem hc)).subset ((hpart c).2 h)

theorem not_slashes_within {parts : List (List Char)}
    (h : ∀ part ∈ parts, part ≠ [] ∧ '/' ∉ part) :
    ¬['\n', '/', '/'] <:+: ['/'].intercalate parts := by
  rintro ⟨front, behind, htext⟩
  have hne : parts ≠ [] := by
    rintro rfl
    cases front <;> cases htext
  have hparts := List.splitOn_intercalate '/' (fun part hpart => (h part hpart).2) hne
  have hsplit : front ++ ['\n', '/', '/'] ++ behind =
      (front ++ ['\n']) ++ '/' :: ([] ++ '/' :: behind) := by
    simp only [List.append_assoc, List.cons_append, List.nil_append]
  rw [← htext, hsplit, List.splitOn_append_cons_self, List.splitOn_append_cons_self] at hparts
  -- Between the slashes stands a part without characters.
  have hnil : [] ∈ parts := by
    rw [← hparts]
    exact List.mem_append_right _ (List.mem_append_left _ (List.mem_singleton_self _))
  exact (h [] hnil).1 rfl

theorem not_slashes_within_root {parts : List (List Char)}
    (h : ∀ part ∈ parts, part ≠ [] ∧ '/' ∉ part) :
    ¬['\n', '/', '/'] <:+: ['/'].intercalate (['/'] :: parts) := by
  have hparts := not_slashes_within h
  intro hwithin
  cases parts with
  | nil =>
    rw [List.intercalate_singleton] at hwithin
    exact absurd hwithin.length_le (by decide)
  | cons part parts =>
    rw [List.intercalate_cons_cons] at hwithin
    simp only [List.cons_append, List.nil_append, List.infix_cons_iff,
      List.cons_prefix_cons] at hwithin
    rcases hwithin with ⟨hwithin, -⟩ | ⟨hwithin, -⟩ | hwithin
    · cases hwithin
    · cases hwithin
    · exact hparts hwithin

theorem not_slashes_within_shownPath : ¬['\n', '/', '/'] <:+: (shownPath o path).toList := by
  have htail : .root ∉ (o.shown path).tail := fun h =>
    Path.root_not_mem_tail_components (o.resolve path) ((shown_suffix o path).sublist.tail.subset h)
  have hpart {c : Path.Component} (hc : c ∈ o.shown path) (hroot : c ≠ .root) :
      partOf c ≠ [] ∧ '/' ∉ partOf c := by
    obtain ⟨hne, hslash⟩ := Path.bytes_of_mem_components ((shown_suffix o path).subset hc) hroot
    refine ⟨Text.Utf8.decodeLossy_ne_nil hne, fun h => hslash ?_⟩
    exact (Text.Utf8.mem_decodeLossy (n := 0x2F) (by decide) (by decide)).1 h
  rw [toList_shownPath]
  cases hshown : o.shown path with
  | nil => exact not_slashes_within nofun
  | cons c cs =>
    rw [hshown] at htail hpart
    have hcs : ∀ part ∈ cs.map partOf, part ≠ [] ∧ '/' ∉ part := by
      intro part hmem
      obtain ⟨d, hd, rfl⟩ := List.mem_map.1 hmem
      exact hpart (List.mem_cons_of_mem c hd) fun hroot => htail (hroot ▸ hd)
    by_cases hc : c = .root
    · have hroot : partOf c = ['/'] := hc ▸ by decide +kernel
      rw [List.map_cons, hroot]
      exact not_slashes_within_root hcs
    · refine not_slashes_within fun part hmem => ?_
      rcases List.mem_cons.1 hmem with rfl | hmem
      · exact hpart List.mem_cons_self hc
      · exact hcs part hmem

def commentEnd : String := "// </auto-generated>"

def leadingComment (source : String) : List (List Char) :=
  let ls := source.toList.splitOn '\n'
  ls.take (ls.idxOf commentEnd.toList + 1)

def fileLines (r : Resource) (o : Options) : List String :=
  ["// <auto-generated>", "//     Generated by i18ntext from:"] ++ r.sources.map (sourceLine o) ++
    ["//     Changes to this file will be lost when it is regenerated."]

/-- The source begins with a comment that has a line for each file and nothing else. -/
structure Headed (o : Options) (r : Resource) (source : String) : Prop where
  listed : leadingComment source = (fileLines r o ++ [commentEnd]).map String.toList
  commented : ∀ line ∈ leadingComment source, "//".toList <+: line

theorem splitOn_sourceText (m : Merged) (r : Resource) (o : Options) : ∃ rest,
    (sourceText m r o).toList.splitOn '\n' =
      brokenLines (fileLines r o) ++ commentEnd.toList :: rest := by
  have hheader : header r o = fileLines r o ++ [commentEnd] ++ [""] := by
    rw [fileLines, List.append_assoc, List.append_assoc]
    rfl
  refine ⟨brokenLines ([""] ++ codeLines m r ++ [""]), ?_⟩
  rw [sourceText_eq, ← lines_append, splitOn_lines_eq, hheader]
  simp only [brokenLines_append, List.append_assoc]
  rfl

/-- The lines of a shown path behind its first line end. -/
def overflow (o : Options) (path : Path) : List (List Char) :=
  ((shownPath o path).toList.splitOn '\n').tail

theorem not_comment_of_mem_overflow {line : List Char} (h : line ∈ overflow o path) :
    ¬"//".toList <+: line := fun hcomment =>
  not_slashes_within_shownPath o path
    ((List.cons_prefix_cons.2 ⟨rfl, hcomment⟩).isInfix.trans (cons_infix_of_mem_tail h))

theorem overflow_ne_nil (h : ¬OneLine (shownPath o path)) : overflow o path ≠ [] := by
  obtain ⟨first, rest, hsplit⟩ :=
    List.exists_cons_of_ne_nil (List.splitOn_ne_nil '\n' (shownPath o path).toList)
  rw [overflow, hsplit, List.tail_cons]
  rintro rfl
  have htext : ['\n'].intercalate ((shownPath o path).toList.splitOn '\n') =
    (shownPath o path).toList := List.intercalate_splitOn '\n'
  have hnot : '\n' ∉ first := Path.not_mem_of_mem_splitOn (hsplit ▸ List.mem_singleton_self first)
  rw [hsplit, List.intercalate_singleton] at htext
  rw [htext] at hnot
  exact h hnot

theorem oneLine_start {language : String} (h : OneLine language) :
    OneLine ("//       " ++ language ++ ": ") :=
  oneLine_append (oneLine_append (by decide) h) (by decide)

theorem sourceLine_eq (p : String × Path) : sourceLine o p =
    "//       " ++ p.1 ++ ": " ++ shownPath o p.2 := rfl

theorem splitOn_sourceLine {p : String × Path} (h : OneLine p.1) : ∃ first,
    (sourceLine o p).toList.splitOn '\n' =
      ("//       ".toList ++ first) :: overflow o p.2 := by
  obtain ⟨first, rest, hpath⟩ :=
    List.exists_cons_of_ne_nil (List.splitOn_ne_nil '\n' (shownPath o p.2).toList)
  refine ⟨p.1.toList ++ ": ".toList ++ first, ?_⟩
  rw [sourceLine_eq, String.toList_append, splitOn_append_of_not_mem (oneLine_start h), overflow,
    hpath]
  simp only [List.modifyHead_cons, String.toList_append, List.append_assoc, List.tail_cons]

section

variable {r : Resource}

theorem fileLines_cases {l : String} (h : l ∈ fileLines r o) :
    (∃ p ∈ r.sources, l = sourceLine o p) ∨
      OneLine l ∧ "//".toList <+: l.toList ∧ l ≠ commentEnd := by
  rcases List.mem_append.1 h with h | h
  · rcases List.mem_append.1 h with h | h
    · have hfirst : ∀ l ∈ ["// <auto-generated>", "//     Generated by i18ntext from:"],
          OneLine l ∧ "//".toList <+: l.toList ∧ l ≠ commentEnd := by decide
      exact .inr (hfirst l h)
    · obtain ⟨p, hp, rfl⟩ := List.mem_map.1 h
      exact .inl ⟨p, hp, rfl⟩
  · obtain rfl := List.mem_singleton.1 h
    exact .inr (by decide)

variable (hlanguages : ∀ p ∈ r.sources, OneLine p.1)

include hlanguages

theorem commentEnd_not_mem : commentEnd.toList ∉ brokenLines (fileLines r o) := by
  intro h
  obtain ⟨l, hl, hend⟩ := List.mem_flatMap.1 h
  rcases fileLines_cases o hl with ⟨p, hp, rfl⟩ | ⟨hline, -, hne⟩
  · obtain ⟨first, hsplit⟩ := splitOn_sourceLine o (hlanguages p hp)
    rw [hsplit] at hend
    rcases List.mem_cons.1 hend with hend | hend
    · have hprefix := hend ▸ List.prefix_append "//       ".toList first
      exact absurd hprefix (by decide)
    · exact not_comment_of_mem_overflow o p.2 hend (by decide)
  · rw [List.splitOn_eq_singleton hline, List.mem_singleton] at hend
    exact hne (String.toList_injective hend.symm)

theorem leadingComment_sourceText (m : Merged) : leadingComment (sourceText m r o) =
    brokenLines (fileLines r o) ++ [commentEnd.toList] := by
  obtain ⟨rest, hsplit⟩ := splitOn_sourceText m r o
  rw [leadingComment, hsplit, List.idxOf_append_of_notMem (commentEnd_not_mem o hlanguages),
    List.idxOf_cons_self, Nat.add_zero, List.take_length_add_append]
  rfl

theorem mem_leadingComment_of_mem_overflow {p : String × Path} (hp : p ∈ r.sources)
    {line : List Char} (h : line ∈ overflow o p.2) (m : Merged) :
    line ∈ leadingComment (sourceText m r o) := by
  obtain ⟨first, hsplit⟩ := splitOn_sourceLine o (hlanguages p hp)
  rw [leadingComment_sourceText o hlanguages]
  refine List.mem_append_left _ (List.mem_flatMap.2 ⟨sourceLine o p, ?_, ?_⟩)
  · exact List.mem_append_left _ (List.mem_append_right _ (List.mem_map_of_mem hp))
  · exact hsplit ▸ List.mem_cons_of_mem _ h

theorem headed_of_oneLine (h : ∀ p ∈ r.sources, OneLine (shownPath o p.2)) (m : Merged) :
    Headed o r (sourceText m r o) := by
  have hlines : ∀ l ∈ fileLines r o, OneLine l ∧ "//".toList <+: l.toList := by
    intro l hl
    rcases fileLines_cases o hl with ⟨p, hp, rfl⟩ | ⟨hline, hcomment, -⟩
    · refine ⟨oneLine_append (oneLine_start (hlanguages p hp)) (h p hp), ?_⟩
      rw [sourceLine_eq]
      simp only [String.toList_append, List.append_assoc]
      exact ⟨_, rfl⟩
    · exact ⟨hline, hcomment⟩
  have hlisted : leadingComment (sourceText m r o) =
      (fileLines r o ++ [commentEnd]).map String.toList := by
    rw [leadingComment_sourceText o hlanguages, List.map_append,
      brokenLines_of_oneLine fun l hl => (hlines l hl).1]
    rfl
  refine ⟨hlisted, fun line hline => ?_⟩
  rw [hlisted] at hline
  obtain ⟨l, hl, rfl⟩ := List.mem_map.1 hline
  rcases List.mem_append.1 hl with hl | hl
  · exact (hlines l hl).2
  · obtain rfl := List.mem_singleton.1 hl
    decide

end

theorem oneLine_of_mem_sources {files : List TextFile} {name : String} {r : Resource}
    (hr : (Catalogue.ofFiles o files).types.get? name = some r) :
    ∀ p ∈ r.sources, OneLine p.1 := by
  intro p hp
  obtain ⟨⟨language, f⟩, hmem, rfl⟩ := List.mem_map.1 hp
  obtain ⟨tag, htag⟩ := Catalogue.canonical_of_mem (Catalogue.sound_ofFiles o files) hr
    (Dict.mem_toList_iff.1 hmem)
  intro hnewline
  exact absurd (Language.isTagChar_canonical? htag _ hnewline) (by decide)

/-- A unit begins with its comment exactly if no path that it shows has a line end in it. Otherwise
all lines of such a path but its first are outside the comment. -/
theorem headed_ofMerged_iff {files : List TextFile} {name : String} {r : Resource}
    (hr : (Catalogue.ofFiles o files).types.get? name = some r) (m : Merged) :
    (Headed o r (ofMerged m r o).source ↔
      ∀ p ∈ r.sources, ∀ c ∈ o.shown p.2, 0x0A ∉ c.bytes) ∧
    ∀ p ∈ r.sources, ∀ line ∈ overflow o p.2,
      line ∈ leadingComment (ofMerged m r o).source ∧ ¬"//".toList <+: line := by
  have hlanguages := oneLine_of_mem_sources o hr
  have hout : ∀ p ∈ r.sources, ∀ line ∈ overflow o p.2,
      line ∈ leadingComment (ofMerged m r o).source ∧ ¬"//".toList <+: line := by
    intro p hp line hline
    exact ⟨mem_leadingComment_of_mem_overflow o hlanguages hp hline m,
      not_comment_of_mem_overflow o p.2 hline⟩
  refine ⟨⟨fun h p hp c hc hnewline => ?_, fun h => ?_⟩, hout⟩
  · have hbroken : ¬OneLine (shownPath o p.2) :=
      not_not.2 ((newline_mem_shownPath_iff o p.2).2 ⟨c, hc, hnewline⟩)
    obtain ⟨line, lines, hoverflow⟩ := List.exists_cons_of_ne_nil (overflow_ne_nil o p.2 hbroken)
    obtain ⟨hmem, hnot⟩ := hout p hp line (hoverflow ▸ List.mem_cons_self)
    exact hnot (h.commented line hmem)
  · refine headed_of_oneLine o hlanguages (fun p hp hnewline => ?_) m
    obtain ⟨c, hc, hbyte⟩ := (newline_mem_shownPath_iff o p.2).1 hnewline
    exact h p hp c hc hbyte

theorem headed_ofMerged_iff_sample : ∃ r,
    (Catalogue.ofFiles .sample [.sample "Greeting.en.csv"]).types.get? "App.Greeting" = some r ∧
      ∀ m, Headed .sample r (ofMerged m r .sample).source := by
  have hget : ((Catalogue.ofFiles .sample [.sample "Greeting.en.csv"]).types.get?
      "App.Greeting").map Resource.sources =
        some [("en", (TextFile.sample "Greeting.en.csv").path)] := by decide +kernel
  obtain ⟨r, hr, hsources⟩ := Option.map_eq_some_iff.1 hget
  refine ⟨r, hr, fun m => (headed_ofMerged_iff .sample hr m).1.2 ?_⟩
  rw [hsources]
  decide +kernel

def brokenSample : TextFile := .sample "a\nb/Greeting.en.csv"

theorem exists_not_headed : ¬∀ (o : Options) (files : List TextFile) (name : String) (r : Resource),
    (Catalogue.ofFiles o files).types.get? name = some r →
      ∀ m, Headed o r (ofMerged m r o).source := by
  intro h
  have hget : ((Catalogue.ofFiles .sample [brokenSample]).types.get? "App.a_b.Greeting").map
      Resource.sources = some [("en", brokenSample.path)] := by decide +kernel
  obtain ⟨r, hr, hsources⟩ := Option.map_eq_some_iff.1 hget
  have hmem : ("en", brokenSample.path) ∈ r.sources := hsources ▸ List.mem_singleton_self _
  have hline : "b/Greeting.en.csv".toList ∈ overflow .sample brokenSample.path := by decide +kernel
  let m : Merged := ⟨"en", [], ∅⟩
  have hcomment := (h _ _ _ r hr m).commented _
    (mem_leadingComment_of_mem_overflow _ (oneLine_of_mem_sources _ hr) hmem hline m)
  exact not_comment_of_mem_overflow _ _ hline hcomment

end SourceUnit

end Phrasebook
