import Phrasebook.Compile
import Phrasebook.Proofs.Blank
import Phrasebook.Proofs.Placement

universe u

namespace Phrasebook

namespace Options

def separators : List (List Char) := [['.'], [':', ':']]

def pieces (cs : List Char) : List (List Char) := (splitColons cs).flatMap (·.splitOn '.')

def trimmed (piece : List Char) : String := Text.trim (.ofList piece)

theorem segmentsOf_eq (s : String) : segmentsOf s = (pieces s.toList).map trimmed := rfl

theorem splitColons_ne_nil (cs : List Char) : splitColons cs ≠ [] := by
  fun_induction splitColons cs with
  | case1 => exact List.cons_ne_nil _ _
  | case2 _ _ => exact List.cons_ne_nil _ _
  | case3 c r _ _ =>
    cases splitColons r with
    | nil => exact List.cons_ne_nil _ _
    | cons piece pieces => exact List.cons_ne_nil _ _

theorem rootSegments_ne_nil (o : Options) : o.rootSegments ≠ [] := by
  obtain ⟨piece, pieces, hcons⟩ :=
    List.exists_cons_of_ne_nil (splitColons_ne_nil o.rootNamespace.toList)
  rw [rootSegments, segmentsOf, hcons, List.flatMap_cons]
  simp [List.splitOn_ne_nil]

theorem splitColons_cons {c : Char} {r : List Char} (h : ∀ r', c :: r ≠ ':' :: ':' :: r') :
    splitColons (c :: r) = pushPiece c (splitColons r) := by
  rw [splitColons]
  rintro r' rfl rfl
  exact h r' rfl

theorem pieces_separator {separator : List Char} (h : separator ∈ separators) (r : List Char) :
    pieces (separator ++ r) = [] :: pieces r := by
  rcases List.mem_cons.1 h with rfl | h
  · obtain ⟨piece, rest, hr⟩ := List.exists_cons_of_ne_nil (splitColons_ne_nil r)
    rw [List.singleton_append, pieces, splitColons_cons (by simp), pieces, hr]
    simp [pushPiece, List.splitOn_cons_eq_if_modifyHead]
  · obtain rfl := List.mem_singleton.1 h
    rfl

theorem pieces_cons {c : Char} {r : List Char} (hcolons : ∀ r', c :: r ≠ ':' :: ':' :: r')
    (hdot : c ≠ '.') : pieces (c :: r) = pushPiece c (pieces r) := by
  obtain ⟨piece, rest, hr⟩ := List.exists_cons_of_ne_nil (splitColons_ne_nil r)
  obtain ⟨first, more, hpiece⟩ := List.exists_cons_of_ne_nil (List.splitOn_ne_nil '.' piece)
  rw [pieces, splitColons_cons hcolons, pieces, hr, pushPiece, List.flatMap_cons,
    List.splitOn_cons_eq_if_modifyHead, if_neg (by simpa using hdot), List.flatMap_cons, hpiece]
  rfl

inductive Joins : List (List Char) → List Char → Prop
  | last (piece : List Char) : Joins [piece] piece
  | cons {piece separator rest : List Char} {ps : List (List Char)} :
      separator ∈ separators → Joins ps rest → Joins (piece :: ps) (piece ++ separator ++ rest)

theorem Joins.push {ps : List (List Char)} {cs : List Char} (c : Char) (h : Joins ps cs) :
    Joins (pushPiece c ps) (c :: cs) := by
  cases h with
  | last => exact .last (c :: cs)
  | cons hseparator hrest => exact .cons hseparator hrest

theorem joins_pieces (cs : List Char) : Joins (pieces cs) cs := by
  have hseparator (separator r : List Char) (h : separator ∈ separators)
      (hr : Joins (pieces r) r) : Joins (pieces (separator ++ r)) (separator ++ r) := by
    rw [pieces_separator h, ← List.nil_append separator]
    exact .cons h hr
  induction cs using splitColons.induct with
  | case1 => exact .last []
  | case2 r ih => exact hseparator [':', ':'] r (by decide) ih
  | case3 c r hcolons ih =>
    by_cases hdot : c = '.'
    · exact hdot ▸ hseparator ['.'] r (by decide) ih
    · rw [pieces_cons (fun r' h => hcolons r' (List.cons.inj h).1 (List.cons.inj h).2) hdot]
      exact ih.push c

def IsPadded (name : String) (piece : List Char) : Prop :=
  ∃ before behind, piece = before ++ name.toList ++ behind ∧
    (∀ c ∈ before, Text.isBlank c = true) ∧ ∀ c ∈ behind, Text.isBlank c = true

/-- Identifiers with separators between them and blanks around them. -/
inductive Spells : List String → List Char → Prop
  | last {name : String} {piece : List Char} :
      Identifier.isIdentifier name = true → IsPadded name piece → Spells [name] piece
  | cons {name : String} {piece separator rest : List Char} {names : List String} :
      Identifier.isIdentifier name = true → IsPadded name piece → separator ∈ separators →
        Spells names rest → Spells (name :: names) (piece ++ separator ++ rest)

theorem not_blank_of_isPart {c : Char} (h : Identifier.isPart c = true) :
    Text.isBlank c = false := by
  rw [Identifier.isPart, Bool.or_eq_true, decide_eq_true_iff] at h
  rcases h with h | rfl
  · exact Text.isBlank_of_isAlphanum h
  · rfl

section

variable {name : String} {piece : List Char} (h : Identifier.isIdentifier name = true)

include h

theorem not_blank_of_isIdentifier : ∀ c ∈ name.toList, Text.isBlank c = false :=
  fun c hc => not_blank_of_isPart (Identifier.isWord_of_isIdentifier h c hc)

theorem exists_not_blank : ∃ c ∈ name.toList, Text.isBlank c = false := by
  obtain ⟨c, hc⟩ : ∃ c, c ∈ name.toList := by
    apply List.exists_mem_of_ne_nil
    intro hnil
    rw [Identifier.isIdentifier, hnil] at h
    cases h
  exact ⟨c, hc, not_blank_of_isIdentifier h c hc⟩

theorem trimmed_of_isPadded (hpadded : IsPadded name piece) : trimmed piece = name := by
  obtain ⟨before, behind, rfl, hbefore, hbehind⟩ := hpadded
  rw [trimmed, Text.trim, String.toList_ofList, Text.trim_padded hbefore hbehind]
  exact Text.trim_eq_self (not_blank_of_isIdentifier h)

theorem mark_not_mem (hpadded : IsPadded name piece) {c : Char}
    (hpart : Identifier.isPart c = false) (hblank : Text.isBlank c = false) : c ∉ piece := by
  obtain ⟨before, behind, rfl, hbefore, hbehind⟩ := hpadded
  intro hc
  rcases List.mem_append.1 hc with hc | hc
  · rcases List.mem_append.1 hc with hc | hc
    · cases hblank.symm.trans (hbefore c hc)
    · cases hpart.symm.trans (Identifier.isWord_of_isIdentifier h c hc)
  · cases hblank.symm.trans (hbehind c hc)

end

theorem isPadded_trimmed (piece : List Char) : IsPadded (trimmed piece) piece := by
  rw [IsPadded, trimmed, Text.trim, String.toList_ofList, String.toList_ofList]
  exact Text.exists_padding piece

theorem Joins.spells {ps : List (List Char)} {cs : List Char} (h : Joins ps cs)
    (hall : ∀ p ∈ ps, Identifier.isIdentifier (trimmed p) = true) : Spells (ps.map trimmed) cs := by
  induction h with
  | last piece => exact .last (hall piece List.mem_cons_self) (isPadded_trimmed piece)
  | @cons piece _ _ _ hseparator _ ih =>
    have hrest := ih fun p hp => hall p (List.mem_cons_of_mem piece hp)
    exact .cons (hall piece List.mem_cons_self) (isPadded_trimmed piece) hseparator hrest

theorem pieces_append {front r piece : List Char} {rest : List (List Char)} (hdot : '.' ∉ front)
    (hcolon : ':' ∉ front) (hr : pieces r = piece :: rest) :
    pieces (front ++ r) = (front ++ piece) :: rest := by
  induction front with
  | nil => exact hr
  | cons c front ih =>
    rw [List.mem_cons, not_or] at hdot hcolon
    have hcolons (r' : List Char) : c :: (front ++ r) ≠ ':' :: ':' :: r' := fun heq =>
      hcolon.1 (List.cons.inj heq).1.symm
    rw [List.cons_append, pieces_cons hcolons (Ne.symm hdot.1), ih hdot.2 hcolon.2]
    rfl

theorem Spells.map_pieces {names : List String} {cs : List Char} (h : Spells names cs) :
    (pieces cs).map trimmed = names := by
  induction h with
  | @last name piece hname hpadded =>
    have hpieces : pieces (piece ++ []) = (piece ++ []) :: [] :=
      pieces_append (mark_not_mem hname hpadded rfl rfl) (mark_not_mem hname hpadded rfl rfl) rfl
    rw [List.append_nil] at hpieces
    rw [hpieces, List.map_singleton, trimmed_of_isPadded hname hpadded]
  | @cons name piece separator rest names hname hpadded hseparator _ ih =>
    rw [List.append_assoc, pieces_append (mark_not_mem hname hpadded rfl rfl)
      (mark_not_mem hname hpadded rfl rfl) (pieces_separator hseparator rest), List.append_nil,
      List.map_cons, trimmed_of_isPadded hname hpadded, ih]

theorem Spells.isIdentifier {names : List String} {cs : List Char} (h : Spells names cs) :
    ∀ name ∈ names, Identifier.isIdentifier name = true := by
  induction h with
  | last hname _ => exact fun _ hmem => List.mem_singleton.1 hmem ▸ hname
  | cons hname _ _ _ ih => exact List.forall_mem_cons.2 ⟨hname, ih⟩

theorem Spells.exists_not_blank {names : List String} {cs : List Char} (h : Spells names cs) :
    ∃ c ∈ cs, Text.isBlank c = false := by
  have hpiece {name : String} {piece : List Char} (hname : Identifier.isIdentifier name = true)
      (hpadded : IsPadded name piece) : ∃ c ∈ piece, Text.isBlank c = false := by
    obtain ⟨c, hc, hblank⟩ := Options.exists_not_blank hname
    obtain ⟨before, behind, rfl, -⟩ := hpadded
    exact ⟨c, List.mem_append_left _ (List.mem_append_right _ hc), hblank⟩
  cases h with
  | last hname hpadded => exact hpiece hname hpadded
  | cons hname hpadded _ _ =>
    obtain ⟨c, hc, hblank⟩ := hpiece hname hpadded
    exact ⟨c, List.mem_append_left _ (List.mem_append_left _ hc), hblank⟩

section

variable {o : Options} {names : List String} (h : Spells names o.rootNamespace.toList)

include h

theorem rootSegments_of_spells : o.rootSegments = names :=
  (segmentsOf_eq o.rootNamespace).trans h.map_pieces

theorem validate_of_spells : o.validate = o.fallbackTag.map fun _ => () := by
  have hblank : Text.isBlankText o.rootNamespace = false := by
    obtain ⟨c, hc, hblank⟩ := h.exists_not_blank
    rw [Text.isBlankText, List.all_eq_false]
    exact ⟨c, hc, by simp [hblank]⟩
  have hnone : o.rootSegments.find? (!Identifier.isIdentifier ·) = none := by
    rw [rootSegments_of_spells h, List.find?_eq_none]
    intro name hname
    simp [h.isIdentifier name hname]
  rw [validate, hblank, hnone]
  rfl

end

theorem spells_of_validate {o : Options} (h : o.validate = .ok ()) :
    Spells o.rootSegments o.rootNamespace.toList := by
  refine (joins_pieces o.rootNamespace.toList).spells fun piece hpiece => ?_
  exact isIdentifier_rootSegments h _ (List.mem_map_of_mem hpiece)

theorem validate_eq_ok_iff {o : Options} : o.validate = .ok () ↔
    (∃ names, Spells names o.rootNamespace.toList) ∧
      ∃ tag, Language.canonical? o.fallbackLanguage = some tag := by
  have hfallback : (o.fallbackTag.map fun _ => ()) = .ok () ↔
      ∃ tag, Language.canonical? o.fallbackLanguage = some tag := by
    rw [fallbackTag]
    cases Language.canonical? o.fallbackLanguage with
    | none => simp [Except.map]
    | some tag => simp [Except.map]
  constructor
  · intro h
    have hspells := spells_of_validate h
    exact ⟨⟨_, hspells⟩, hfallback.1 (validate_of_spells hspells ▸ h)⟩
  · rintro ⟨⟨names, hspells⟩, htag⟩
    exact (validate_of_spells hspells).trans (hfallback.2 htag)

def respelled (o : Options) (rootNamespace : String) : Options := { o with rootNamespace }

section

variable {o : Options} {s : String} (h : (o.respelled s).rootSegments = o.rootSegments)

include h

theorem find_respelled : Placement.find (o.respelled s) = Placement.find o := by
  funext f
  unfold Placement.find
  rw [h]
  rfl

theorem ofFiles_respelled (files : List TextFile) :
    Catalogue.ofFiles (o.respelled s) files = Catalogue.ofFiles o files := by
  have hadd : Catalogue.add (o.respelled s) = Catalogue.add o := by
    funext c f
    rw [Catalogue.add, find_respelled h]
    rfl
  rw [Catalogue.ofFiles, hadd]
  rfl

theorem compile_respelled (hvalid : (o.respelled s).validate = o.validate)
    (schedule : Compile.Schedule) {σ : Type u} (host : Host σ) (files : List TextFile) (state : σ) :
    compileUnder schedule host (o.respelled s) files state =
      compileUnder schedule host o files state := by
  unfold compileUnder
  rw [hvalid, ofFiles_respelled h]
  rfl

end

structure Alike (o o' : Options) : Prop where
  rootSegments : o'.rootSegments = o.rootSegments
  catalogue : ∀ files, Catalogue.ofFiles o' files = Catalogue.ofFiles o files
  compile : ∀ (schedule : Compile.Schedule) {σ : Type u} (host : Host σ) (files : List TextFile)
    (state : σ),
      compileUnder schedule host o' files state = compileUnder schedule host o files state

/-- Namespaces are identifiers with separators between them and blanks around them. The segments are
these identifiers, and nothing depends on how else the namespace is spelled. -/
theorem reads_namespace (o : Options) :
    (o.validate = .ok () ↔ (∃ names, Spells names o.rootNamespace.toList) ∧
      ∃ tag, Language.canonical? o.fallbackLanguage = some tag) ∧
    ∀ names, Spells names o.rootNamespace.toList → o.rootSegments = names ∧
      ∀ s : String, Spells names s.toList → Alike.{u} o (o.respelled s) := by
  refine ⟨validate_eq_ok_iff, fun names hnames => ⟨rootSegments_of_spells hnames, ?_⟩⟩
  intro s hs
  have hsegments : (o.respelled s).rootSegments = o.rootSegments :=
    (rootSegments_of_spells (o := o.respelled s) hs).trans (rootSegments_of_spells hnames).symm
  have hvalid : (o.respelled s).validate = o.validate :=
    (validate_of_spells (o := o.respelled s) hs).trans (validate_of_spells hnames).symm
  exact ⟨hsegments, ofFiles_respelled hsegments, compile_respelled hsegments hvalid⟩

def mixed : Options := Options.sample.respelled " My_App\t:: Texts.v1\u3000"

theorem spells_mixed : Spells ["My_App", "Texts", "v1"] mixed.rootNamespace.toList := by
  have hnone : ∀ c ∈ [], Text.isBlank c = true := List.forall_mem_nil _
  have hone {blank : Char} (h : Text.isBlank blank = true) :
      ∀ c ∈ [blank], Text.isBlank c = true := List.forall_mem_singleton.2 h
  have hlast : Spells ["v1"] "v1\u3000".toList :=
    .last (by decide) ⟨[], ['\u3000'], by decide, hnone, hone rfl⟩
  have hrest : Spells ["Texts", "v1"] (" Texts".toList ++ ['.'] ++ "v1\u3000".toList) :=
    .cons (by decide) ⟨[' '], [], by decide, hone rfl, hnone⟩ (by decide) hlast
  have hall : Spells ["My_App", "Texts", "v1"]
      (" My_App\t".toList ++ [':', ':'] ++ (" Texts".toList ++ ['.'] ++ "v1\u3000".toList)) :=
    .cons (by decide) ⟨[' '], ['\t'], by decide, hone rfl, hone rfl⟩ (by decide) hrest
  exact hall

theorem reads_namespace_mixed : mixed.validate = .ok () ∧
    Spells ["My_App", "Texts", "v1"] mixed.rootNamespace.toList ∧
    mixed.rootSegments = ["My_App", "Texts", "v1"] ∧
    Alike.{u} mixed (mixed.respelled "My_App.Texts::v1") := by
  obtain ⟨hvalid, hreads⟩ := reads_namespace.{u} mixed
  obtain ⟨hsegments, halike⟩ := hreads _ spells_mixed
  have hplain : (mixed.respelled "My_App.Texts::v1").validate = .ok () := by decide +kernel
  refine ⟨hvalid.2 ⟨⟨_, spells_mixed⟩, "en", by decide +kernel⟩, spells_mixed, hsegments, ?_⟩
  exact halike _ (spells_of_validate hplain)

end Options

end Phrasebook
