import Mathlib.Data.List.Forall2
import Mathlib.Data.List.TakeWhile
import Phrasebook.Proofs.SourceUnit

namespace Phrasebook.SourceUnit

theorem isBare_fieldNames {keys : List String} :
    ∀ name ∈ Identifier.fieldNames keys, IsBare name := fun _ hname _ hc =>
  Identifier.mem_fieldNames hname _ hc

variable {m : Merged} {r : Resource}

def unitStruct (m : Merged) (r : Resource) : List String :=
  structLines (Identifier.render r.baseName) r (Identifier.fieldNames m.keys)
    ((m.values.get? m.fallbackLanguage).getD [])

def unitConstants (m : Merged) (r : Resource) : List String :=
  constantLines (Identifier.render r.baseName) r m

def unitRows (m : Merged) : List String := m.values.toList.flatMap rowLines

def unitBindings (m : Merged) (r : Resource) : List String :=
  typeLine (Identifier.render r.baseName) :: (Identifier.fieldNames m.keys).zipIdx.map bindingLine

def unitEnd (r : Resource) : List String :=
  ["    \x7d", "\x7d", ""] ++ defaultLines (Identifier.render r.baseName)

def unitTail (m : Merged) (r : Resource) : List String :=
  valuesLine :: (unitRows m ++ rowsEndLine :: (bindingsLeadLines ++ bindingsLine ::
    (unitBindings m r ++ bindingsEndLine :: unitEnd r)))

theorem codeLines_eq (m : Merged) (r : Resource) :
    codeLines m r = unitStruct m r ++ unitConstants m r ++ unitTail m r := by
  simp only [codeLines, unitStruct, unitConstants, unitTail, unitRows, unitBindings, unitEnd,
    tableLines_eq, List.append_assoc, List.cons_append, List.nil_append]

def tableHeads : List String := structHeads ++ constantHeads

theorem plain_unitTable (htype : IsBare (Identifier.render r.baseName)) :
    ∀ l ∈ unitStruct m r ++ unitConstants m r, Plain tableHeads l := by
  intro l hl
  rcases List.mem_append.1 hl with hl | hl
  · exact (plain_structLines htype isBare_fieldNames _ l hl).mono (List.subset_append_left _ _)
  · exact (Plain.of_forall₂ (plain_constantLines htype) l hl).mono (List.subset_append_right _ _)

theorem plain_unitRows (hlanguages : ∀ l ∈ m.languages, OneLine l) :
    ∀ l ∈ unitRows m, Plain rowHeads l := by
  intro l hl
  obtain ⟨row, hrow, hl⟩ := List.mem_flatMap.1 hl
  exact plain_rowLines (hlanguages row.1 (List.mem_map.2 ⟨row, hrow, rfl⟩)) l hl

theorem oneLine_unitBindings (htype : IsBare (Identifier.render r.baseName)) :
    ∀ l ∈ unitBindings m r, OneLine l ∧ l ≠ bindingsEndLine := by
  intro l hl
  rcases List.mem_cons.1 hl with rfl | hl
  · refine ⟨oneLine_append (oneLine_append (by decide) htype.oneLine) (by decide), ?_⟩
    intro heq
    have hmem : '\x7d' ∈ (typeLine (Identifier.render r.baseName)).toList := heq ▸ by decide
    simp only [typeLine, toString, String.toList_append, List.mem_append] at hmem
    rcases hmem with (hmem | hmem) | hmem
    · exact absurd hmem (by decide)
    · exact htype.not_mem (by decide) hmem
    · exact absurd hmem (by decide)
  · obtain ⟨⟨name, i⟩, hname, rfl⟩ := List.mem_map.1 hl
    have hplain : Plain ["            "] (bindingLine (name, i)) := plain_bindingLine
      (isBare_fieldNames _ (List.fst_mem_of_mem_zipIdx hname))
    have hend : Foreign bindingsEndLine ["            "] := by decide
    exact ⟨hplain.oneLine, fun heq => hend.not_prefix hplain.opens (heq ▸ List.prefix_rfl)⟩

section

variable (htype : IsBare (Identifier.render r.baseName))
  (hlanguages : ∀ l ∈ m.languages, OneLine l)

include htype hlanguages

theorem oneLine_codeLines : ∀ l ∈ codeLines m r, OneLine l := by
  intro l hl
  simp only [codeLines_eq, unitTail, unitEnd, List.mem_append (s := unitStruct m r ++ _),
    List.mem_append (s := unitRows m), List.mem_append (s := bindingsLeadLines),
    List.mem_append (s := unitBindings m r), List.mem_append (s := [_, _, _]), List.mem_cons] at hl
  rcases hl with hl | rfl | hl | rfl | hl | rfl | hl | rfl | hl | hl
  · exact (plain_unitTable htype l hl).oneLine
  · decide
  · exact (plain_unitRows hlanguages l hl).oneLine
  · decide
  · exact (by decide : ∀ l ∈ bindingsLeadLines, OneLine l) l hl
  · decide
  · exact (oneLine_unitBindings htype l hl).1
  · decide
  · exact (by decide : ∀ l ∈ ["    \x7d", "\x7d", ""], OneLine l) l (by simpa using hl)
  · exact (plain_defaultLines htype l hl).oneLine

theorem splitOn_codeLines : (lines (codeLines m r)).toList.splitOn '\n' =
    (codeLines m r).map String.toList ++ [[]] :=
  splitOn_lines (oneLine_codeLines htype hlanguages)

end

theorem after?_constant (htype : IsBare (Identifier.render r.baseName)) {start rest : String}
    (n : Nat) (hline : (unitConstants m r)[n]? = some (start ++ rest))
    (hstart : Foreign start (structHeads ++ constantHeads.take n)) (tail : List (List Char)) :
    after? start ((codeLines m r).map String.toList ++ tail) = some rest.toList := by
  obtain ⟨hn, hline⟩ := List.getElem?_eq_some_iff.1 hline
  have hsplit : unitConstants m r =
      (unitConstants m r).take n ++ (start ++ rest) :: (unitConstants m r).drop (n + 1) := by
    rw [← hline, ← List.drop_eq_getElem_cons hn, List.take_append_drop]
  have hbefore :
      ∀ l ∈ unitStruct m r ++ (unitConstants m r).take n, ¬start.toList <+: l.toList := by
    intro l hl
    refine hstart.not_prefix (Plain.opens ?_)
    rcases List.mem_append.1 hl with hl | hl
    · exact (plain_structLines htype isBare_fieldNames _ l hl).mono (List.subset_append_left _ _)
    · have htake := List.forall₂_take n (plain_constantLines (r := r) (m := m) htype)
      exact (Plain.of_forall₂ htake l hl).mono (List.subset_append_right _ _)
  have hfound := after?_eq_some hbefore rest ((unitConstants m r).drop (n + 1) ++ unitTail m r) tail
  rw [codeLines_eq, hsplit]
  simpa only [List.append_assoc, List.cons_append] using hfound

theorem textAfter?_eq_some {start s : String} {ls : List (List Char)}
    (h : after? start ls = some (Text.quote s ++ ";").toList) : textAfter? start ls = some s := by
  rw [textAfter?, h, Option.bind_eq_bind, Option.bind_some, String.toList_append,
    Text.readQuoted_quote]
  rfl

theorem listAfter?_eq_some {start : String} {ss : List String} {ls : List (List Char)}
    (h : after? start ls = some ("[" ++ (literals ss ++ "];")).toList) :
    listAfter? start ls = some ss := by
  have hlist := readList?_literals ";" ss
  rw [listAfter?, h, Option.bind_some, String.toList_append, String.toList_append]
  exact hlist

theorem after?_nameSpace (htype : IsBare (Identifier.render r.baseName))
    (tail : List (List Char)) :
    after? "    pub const NAMESPACE: &'static str = "
      ((codeLines m r).map String.toList ++ tail) =
        some (Text.quote r.dottedNameSpace ++ ";").toList := by
  rw [codeLines_eq, unitStruct, structLines_eq]
  simp only [List.append_assoc, List.cons_append]
  apply after?_eq_some
  intro l hl
  rcases plain_leadLines htype isBare_fieldNames hl with hl | ⟨name, hname, rfl⟩
  · exact Foreign.not_prefix (by decide) hl.opens
  · exact namespace_not_prefix_fieldLine hname

theorem filterMap_rowLines (rows : List (String × List String)) :
    ((rows.flatMap rowLines).map String.toList).filterMap ("        &".toList.isPrefixOf? ·) =
      rows.map fun row => '[' :: ((literals row.2).toList ++ ']' :: ",".toList) := by
  induction rows with
  | nil => rfl
  | cons row rows ih =>
    have hcomment : "        &".toList.isPrefixOf? (s!"        // {row.1}").toList = none := by
      have hforeign : Foreign "        &" ["        //"] := by decide
      have hopens : Opens ["        //"] "        // " := by decide
      exact isPrefixOf?_eq_none (hforeign.not_prefix (.inr (hopens.append row.1)))
    have htexts : "        &".toList.isPrefixOf? (s!"        &[{literals row.2}],").toList =
        some ('[' :: ((literals row.2).toList ++ ']' :: ",".toList)) := by
      apply List.isPrefixOf?_eq_some_iff_append_eq.2
      simp only [toString, String.toList_append, List.append_assoc]
      rfl
    rw [List.flatMap_cons, List.map_append, List.filterMap_append, ih, List.map_cons]
    simp only [rowLines, List.map_cons, List.map_nil]
    rw [List.filterMap_cons_none hcomment, List.filterMap_cons_some htexts, List.filterMap_nil]
    rfl

theorem readRows_rowLines (rows : List (String × List String)) :
    (rows.map fun row => '[' :: ((literals row.2).toList ++ ']' :: ",".toList)).mapM
      (readList? ",") = some (rows.map (·.2)) := by
  induction rows with
  | nil => rfl
  | cons row rows ih =>
    rw [List.map_cons, List.mapM_cons, readList?_literals, ih]
    rfl

theorem readRows?_codeLines (htype : IsBare (Identifier.render r.baseName))
    (hlanguages : ∀ l ∈ m.languages, OneLine l) (tail : List (List Char)) :
    readRows? ((codeLines m r).map String.toList ++ tail) = some m.values.values := by
  have hfirst : valuesLine ∉ unitStruct m r ++ unitConstants m r :=
    Foreign.not_mem (by decide) (plain_unitTable htype)
  have hlast : rowsEndLine ∉ unitRows m :=
    Foreign.not_mem (by decide) (plain_unitRows hlanguages)
  have hrows := between_append hfirst hlast (bindingsLeadLines ++ bindingsLine ::
    (unitBindings m r ++ bindingsEndLine :: unitEnd r)) tail
  rw [← unitTail, ← codeLines_eq] at hrows
  rw [readRows?]
  change (List.filterMap _ (between valuesLine rowsEndLine _)).mapM _ = _
  rw [hrows, unitRows, filterMap_rowLines, readRows_rowLines]
  rfl

/-- Whatever the texts, the source of a unit is read back as the merged table. -/
theorem readTable?_codeLines (htype : IsBare (Identifier.render r.baseName))
    (hlanguages : ∀ l ∈ m.languages, OneLine l) :
    readTable? (lines (codeLines m r)) = some (Table.ofMerged m r) := by
  have hassoc (a s : String) : a ++ s ++ ";" = a ++ (s ++ ";") := String.append_assoc
  have htypeName : textAfter? "    const TYPE_NAME: &'static str = "
      ((codeLines m r).map String.toList ++ [[]]) = some r.fullName :=
    textAfter?_eq_some (after?_constant htype 1 (congrArg some (hassoc _ _)) (by decide) _)
  have hnameSpace : textAfter? "    pub const NAMESPACE: &'static str = "
      ((codeLines m r).map String.toList ++ [[]]) = some r.dottedNameSpace :=
    textAfter?_eq_some (after?_nameSpace htype _)
  have hfallback : textAfter? "    const FALLBACK_LANGUAGE: &'static str = "
      ((codeLines m r).map String.toList ++ [[]]) = some m.fallbackLanguage :=
    textAfter?_eq_some (after?_constant htype 2 (congrArg some (hassoc _ _)) (by decide) _)
  have hlist {a b : String} (h : b = a ++ "[") (ss : List String) :
      b ++ literals ss ++ "];" = a ++ ("[" ++ (literals ss ++ "];")) := by
    rw [h, String.append_assoc, String.append_assoc]
  have hlangs : listAfter? "    const LANGUAGES: &'static [&'static str] = &"
      ((codeLines m r).map String.toList ++ [[]]) = some m.languages :=
    listAfter?_eq_some (after?_constant htype 3
      (congrArg some (hlist (by decide) _)) (by decide) _)
  have hkeys : listAfter? "    const KEYS: &'static [&'static str] = &"
      ((codeLines m r).map String.toList ++ [[]]) = some m.keys :=
    listAfter?_eq_some (after?_constant htype 4
      (congrArg some (hlist (by decide) _)) (by decide) _)
  rw [readTable?, splitOn_codeLines htype hlanguages]
  simp only [htypeName, hnameSpace, hfallback, hlangs, hkeys,
    readRows?_codeLines htype hlanguages, Option.bind_eq_bind, Option.bind_some]
  rfl

theorem readBinding?_eq_none {line : List Char} (h : ':' ∉ line) : readBinding? line = none := by
  have hdrop : (line.dropWhile (· = ' ')).dropWhile (· ≠ ':') = [] := by
    apply List.dropWhile_eq_nil_iff.2
    intro c hc
    apply decide_eq_true
    rintro rfl
    exact h ((List.dropWhile_sublist _).subset hc)
  rw [readBinding?, hdrop]
  rfl

theorem colon_not_mem_typeLine {typeIdent : String} (h : IsBare typeIdent) :
    ':' ∉ (typeLine typeIdent).toList := by
  simp only [typeLine, toString, String.toList_append, List.mem_append, not_or]
  exact ⟨⟨by decide, h.not_mem (by decide)⟩, by decide⟩

theorem filterMap_unitBindings (htype : IsBare (Identifier.render r.baseName)) :
    ((unitBindings m r).map String.toList).filterMap readBinding? =
      (Identifier.fieldNames m.keys).zipIdx := by
  rw [unitBindings, List.map_cons,
    List.filterMap_cons_none (readBinding?_eq_none (colon_not_mem_typeLine htype)), List.map_map,
    List.filterMap_map]
  have hread : ∀ field ∈ (Identifier.fieldNames m.keys).zipIdx,
      readBinding? (bindingLine field).toList = some field := fun field hfield =>
    readBinding?_bindingLine (isBare_fieldNames _ (List.fst_mem_of_mem_zipIdx hfield)) field.2
  exact (List.filterMap_congr hread).trans List.filterMap_some

theorem readBindings_codeLines (htype : IsBare (Identifier.render r.baseName))
    (hlanguages : ∀ l ∈ m.languages, OneLine l) :
    readBindings (lines (codeLines m r)) = (Identifier.fieldNames m.keys).zipIdx := by
  have hfirst : bindingsLine ∉ (unitStruct m r ++ unitConstants m r) ++
      valuesLine :: (unitRows m ++ rowsEndLine :: bindingsLeadLines) := by
    intro h
    rcases List.mem_append.1 h with h | h
    · exact Foreign.not_mem (by decide) (plain_unitTable htype) h
    rw [List.mem_cons, List.mem_append, List.mem_cons] at h
    rcases h with h | h | h | h
    · exact absurd h (by decide)
    · exact Foreign.not_mem (by decide) (plain_unitRows hlanguages) h
    · exact absurd h (by decide)
    · exact absurd h (by decide)
  have hlast : bindingsEndLine ∉ unitBindings m r := fun h =>
    (oneLine_unitBindings htype _ h).2 rfl
  have hbindings := between_append hfirst hlast (unitEnd r) [[]]
  rw [readBindings, splitOn_codeLines htype hlanguages]
  change (between bindingsLine bindingsEndLine _).filterMap _ = _
  have hcode : codeLines m r = (unitStruct m r ++ unitConstants m r) ++
      valuesLine :: (unitRows m ++ rowsEndLine :: bindingsLeadLines) ++
        bindingsLine :: (unitBindings m r ++ bindingsEndLine :: unitEnd r) := by
    simp only [codeLines_eq, unitTail, List.append_assoc, List.cons_append]
  rw [hcode, hbindings, filterMap_unitBindings htype]

end Phrasebook.SourceUnit
