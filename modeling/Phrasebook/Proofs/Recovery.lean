import Mathlib.Data.List.DropRight
import Phrasebook.Proofs.Dict
import Phrasebook.Proofs.Placement
import Phrasebook.Proofs.Readback
import Phrasebook.Proofs.Tag

namespace Phrasebook.SourceUnit

def baseName? (u : SourceUnit) : Option String :=
  if u.nameSpace.isEmpty then some u.typeName
  else ((dotted u.nameSpace ++ ".").toList.isPrefixOf? u.typeName.toList).map .ofList

def front? (text : List String) (ls : List (List Char)) : Option (List (List Char)) :=
  (brokenLines text).isSuffixOf? ls

def last? {α : Type} (read : List (List Char) → Option α) (ls : List (List Char)) :
    Option (α × List (List Char)) := do
  let line ← ls.getLast?
  let a ← read [line]
  some (a, ls.dropLast)

def implLines (typeIdent : String) : List String :=
  ["\x7d", "", s!"impl {runtime}::TextTable for {typeIdent} \x7b"]

def openingLines (typeIdent : String) : List String :=
  rowsEndLine :: bindingsLeadLines ++ [bindingsLine, typeLine typeIdent]

def closingLines (typeIdent : String) : List String :=
  bindingsEndLine :: ["    \x7d", "\x7d", ""] ++ defaultLines typeIdent ++ [""]

def isBinding (line : List Char) : Bool := "],".toList.isSuffixOf line

def isRow (line : List Char) : Bool := "        ".toList.isPrefixOf line

def lastBindings? (typeIdent : String) (ls : List (List Char)) :
    Option (List (String × Nat) × List (List Char)) := do
  let ls ← front? (closingLines typeIdent) ls
  let bindings ← (ls.rtakeWhile isBinding).mapM readBinding?
  let ls ← front? (openingLines typeIdent) (ls.rdropWhile isBinding)
  some (bindings, ls)

def lastRows? (ls : List (List Char)) : Option (List (List String) × List (List Char)) := do
  let rows ← ((ls.rtakeWhile isRow).filterMap ("        &".toList.isPrefixOf? ·)).mapM
    (readList? ",")
  let ls ← front? [valuesLine] (ls.rdropWhile isRow)
  some (rows, ls)

def recover? (u : SourceUnit) : Option (Table × List (String × Nat)) := do
  let typeIdent := Identifier.render (← u.baseName?)
  let (bindings, ls) ← lastBindings? typeIdent (u.source.toList.splitOn '\n')
  let (rows, ls) ← lastRows? ls
  let (keys, ls) ← last? (listAfter? "    const KEYS: &'static [&'static str] = &") ls
  let (languages, ls) ← last? (listAfter? "    const LANGUAGES: &'static [&'static str] = &") ls
  let (fallback, ls) ← last? (textAfter? "    const FALLBACK_LANGUAGE: &'static str = ") ls
  let (typeName, ls) ← last? (textAfter? "    const TYPE_NAME: &'static str = ") ls
  let ls ← front? (implLines typeIdent) ls
  let (nameSpace, _) ← last? (textAfter? "    pub const NAMESPACE: &'static str = ") ls
  some (⟨typeName, some nameSpace, fallback, languages, keys, rows⟩, bindings)

theorem baseName?_ofMerged (m : Merged) (r : Resource) (o : Options) :
    (ofMerged m r o).baseName? = some r.baseName := by
  change (if r.nameSpace.isEmpty then some (fullName r.nameSpace r.baseName) else
    ((dotted r.nameSpace ++ ".").toList.isPrefixOf?
      (fullName r.nameSpace r.baseName).toList).map String.ofList) = _
  unfold fullName
  by_cases h : r.nameSpace.isEmpty
  · rw [if_pos h, if_pos h]
  · have hname : (dotted r.nameSpace ++ "." ++ r.baseName).toList =
        (dotted r.nameSpace ++ ".").toList ++ r.baseName.toList := String.toList_append
    rw [if_neg h, if_neg h, List.isPrefixOf?_eq_some_iff_append_eq.2 hname.symm, Option.map_some,
      String.ofList_toList]

theorem front?_append (text : List String) (ls : List (List Char)) :
    front? text (ls ++ brokenLines text) = some ls :=
  List.isSuffixOf?_eq_some_iff_append_eq.2 rfl

theorem last?_concat {α : Type} {read : List (List Char) → Option α} {line : List Char} {a : α}
    (h : read [line] = some a) (ls : List (List Char)) :
    last? read (ls ++ [line]) = some (a, ls) := by
  rw [last?, List.getLast?_concat, List.dropLast_concat, Option.bind_eq_bind, Option.bind_some, h]
  rfl

def Ends (p : List Char → Bool) (ls : List (List Char)) : Prop :=
  ∃ front line, ls = front ++ [line] ∧ ¬p line = true

theorem Ends.append {p : List Char → Bool} {ls : List (List Char)} (h : Ends p ls)
    (front : List (List Char)) : Ends p (front ++ ls) := by
  obtain ⟨init, line, rfl, hline⟩ := h
  exact ⟨front ++ init, line, (List.append_assoc ..).symm, hline⟩

theorem rtakeWhile_append {p : List Char → Bool} {front block : List (List Char)}
    (hfront : Ends p front) (hblock : ∀ line ∈ block, p line = true) :
    (front ++ block).rtakeWhile p = block ∧ (front ++ block).rdropWhile p = front := by
  obtain ⟨init, line, rfl, hline⟩ := hfront
  have hreverse : ∀ l ∈ block.reverse, p l = true := fun l hl => hblock l (List.mem_reverse.1 hl)
  rw [List.rtakeWhile, List.rdropWhile, List.reverse_append, List.reverse_concat,
    List.takeWhile_append_of_pos hreverse, List.dropWhile_append_of_pos hreverse,
    List.takeWhile_cons_of_neg hline, List.dropWhile_cons_of_neg hline]
  simp

theorem exists_splitOn_append (a : List Char) {b : List Char} (h : '\n' ∉ b) :
    ∃ front last, (a ++ b).splitOn '\n' = front ++ [last ++ b] := by
  induction a with
  | nil => exact ⟨[], [], List.splitOn_eq_singleton h⟩
  | cons c a ih =>
    obtain ⟨front, last, heq⟩ := ih
    by_cases hc : c = '\n'
    · subst hc
      refine ⟨[] :: front, last, ?_⟩
      rw [← List.nil_append ('\n' :: a ++ b), List.cons_append, List.splitOn_append_cons_self, heq]
      rfl
    · have hcons : (c :: (a ++ b)).splitOn '\n' = ((a ++ b).splitOn '\n').modifyHead (c :: ·) := by
        rw [List.splitOn, List.splitOnP_cons_eq_if_modifyHead, if_neg (by simpa using hc)]
        rfl
      rw [List.cons_append, hcons, heq]
      cases front with
      | nil => exact ⟨[], c :: last, rfl⟩
      | cons line front => exact ⟨(c :: line) :: front, last, rfl⟩

def textLine (start s : String) : String := start ++ (Text.quote s ++ ";")

def listLine (start : String) (ss : List String) : String :=
  start ++ ("[" ++ (literals ss ++ "];"))

theorem oneLine_textLine {start : String} (h : OneLine start) (s : String) :
    OneLine (textLine start s) := oneLine_append h (oneLine_append (oneLine_quote s) (by decide))

theorem oneLine_listLine {start : String} (h : OneLine start) (ss : List String) :
    OneLine (listLine start ss) :=
  oneLine_append h (oneLine_append (by decide) (oneLine_append (oneLine_literals ss) (by decide)))

theorem last?_textLine (start s : String) (ls : List (List Char)) :
    last? (textAfter? start) (ls ++ [(textLine start s).toList]) = some (s, ls) :=
  last?_concat (textAfter?_eq_some (after?_cons start _ [])) ls

theorem last?_listLine (start : String) (ss : List String) (ls : List (List Char)) :
    last? (listAfter? start) (ls ++ [(listLine start ss).toList]) = some (ss, ls) :=
  last?_concat (listAfter?_eq_some (after?_cons start _ [])) ls

def fieldBindings (keys : List String) : List String :=
  (Identifier.fieldNames keys).zipIdx.map bindingLine

theorem isBinding_fieldBindings (keys : List String) :
    ∀ line ∈ (fieldBindings keys).map String.toList, isBinding line = true := by
  intro line hline
  obtain ⟨l, hl, rfl⟩ := List.mem_map.1 hline
  obtain ⟨field, -, rfl⟩ := List.mem_map.1 hl
  rw [isBinding, List.isSuffixOf_iff_suffix]
  change "],".toList <:+ (_ ++ "],").toList
  rw [String.toList_append]
  exact List.suffix_append _ _

/-- The name of the type may end in what looks like a binding, but a brace follows it. -/
theorem ends_openingLines (typeIdent : String) :
    Ends isBinding (brokenLines (openingLines typeIdent)) := by
  obtain ⟨front, last, hlast⟩ := exists_splitOn_append (s!"        {typeIdent}").toList
    (b := " \x7b".toList) (by decide)
  have hopening : openingLines typeIdent =
      (rowsEndLine :: bindingsLeadLines ++ [bindingsLine]) ++ [typeLine typeIdent] := rfl
  have htype : brokenLines [typeLine typeIdent] = front ++ [last ++ " \x7b".toList] := by
    rw [← hlast, ← String.toList_append]
    exact List.append_nil _
  rw [hopening, brokenLines_append, htype]
  refine Ends.append ⟨front, _, rfl, ?_⟩ _
  rw [isBinding, List.isSuffixOf_iff_suffix]
  rintro ⟨rest, hrest⟩
  exact absurd (List.append_inj' hrest rfl).2 (by decide)

theorem mapM_readBinding? {fields : List (String × Nat)} (h : ∀ field ∈ fields, IsBare field.1) :
    ((fields.map bindingLine).map String.toList).mapM readBinding? = some fields := by
  induction fields with
  | nil => rfl
  | cons field fields ih =>
    rw [List.map_cons, List.map_cons, List.mapM_cons,
      readBinding?_bindingLine (h field List.mem_cons_self) field.2,
      ih fun field' hfield' => h field' (List.mem_cons_of_mem field hfield')]
    rfl

theorem lastBindings?_append (typeIdent : String) (keys : List String) (ls : List (List Char)) :
    lastBindings? typeIdent (ls ++ brokenLines (openingLines typeIdent) ++
      (fieldBindings keys).map String.toList ++ brokenLines (closingLines typeIdent)) =
        some ((Identifier.fieldNames keys).zipIdx, ls) := by
  obtain ⟨hblock, hfront⟩ := rtakeWhile_append ((ends_openingLines typeIdent).append ls)
    (isBinding_fieldBindings keys)
  have hfields : ((fieldBindings keys).map String.toList).mapM readBinding? =
      some (Identifier.fieldNames keys).zipIdx :=
    mapM_readBinding? fun field hfield =>
      isBare_fieldNames _ (List.fst_mem_of_mem_zipIdx hfield)
  simp only [lastBindings?, front?_append, hblock, hfront, hfields, Option.bind_eq_bind,
    Option.bind_some]

theorem isRow_unitRows (m : Merged) :
    ∀ line ∈ (unitRows m).map String.toList, isRow line = true := by
  intro line hline
  obtain ⟨l, hl, rfl⟩ := List.mem_map.1 hline
  obtain ⟨row, -, hl⟩ := List.mem_flatMap.1 hl
  have hhead {s : String} (hs : "        ".toList <+: s.toList) (t : String) :
      "        ".toList <+: (s ++ t).toList := by
    rw [String.toList_append]
    exact hs.trans (List.prefix_append _ _)
  simp only [rowLines, List.mem_cons, List.not_mem_nil, or_false] at hl
  rw [isRow, List.isPrefixOf_iff_prefix]
  rcases hl with rfl | rfl
  · exact hhead (by decide) _
  · exact hhead (hhead (by decide) _) _

theorem lastRows?_append (m : Merged) (ls : List (List Char)) :
    lastRows? (ls ++ brokenLines [valuesLine] ++ (unitRows m).map String.toList) =
      some (m.values.values, ls) := by
  have hvalues : Ends isRow (brokenLines [valuesLine]) := ⟨[], _, rfl, by decide⟩
  obtain ⟨hblock, hfront⟩ := rtakeWhile_append (hvalues.append ls) (isRow_unitRows m)
  have htexts : (((unitRows m).map String.toList).filterMap
      ("        &".toList.isPrefixOf? ·)).mapM (readList? ",") = some m.values.values := by
    rw [unitRows, filterMap_rowLines, readRows_rowLines]
    rfl
  simp only [lastRows?, front?_append, hblock, hfront, htexts, Option.bind_eq_bind,
    Option.bind_some]

section

variable (m : Merged) (r : Resource) (o : Options)

def frontLines : List String :=
  header r o ++ leadLines (Identifier.render r.baseName) r (Identifier.fieldNames m.keys)
    ((m.values.get? m.fallbackLanguage).getD [])

def nameSpaceLine : String := textLine "    pub const NAMESPACE: &'static str = " r.dottedNameSpace

def tableConstants : List String :=
  [textLine "    const TYPE_NAME: &'static str = " r.fullName,
    textLine "    const FALLBACK_LANGUAGE: &'static str = " m.fallbackLanguage,
    listLine "    const LANGUAGES: &'static [&'static str] = &" m.languages,
    listLine "    const KEYS: &'static [&'static str] = &" m.keys]

theorem unitConstants_eq : unitConstants m r =
    s!"impl {runtime}::TextTable for {Identifier.render r.baseName} \x7b" ::
      tableConstants m r := by
  have hlist (start : String) {a : String} (h : start ++ "[" = a) (ss : List String) :
      listLine start ss = a ++ literals ss ++ "];" := by
    rw [listLine, ← h, String.append_assoc, String.append_assoc]
  have hlanguages : listLine "    const LANGUAGES: &'static [&'static str] = &" m.languages =
      "    const LANGUAGES: &'static [&'static str] = &[" ++ literals m.languages ++ "];" :=
    hlist _ (by decide) _
  have hkeys : listLine "    const KEYS: &'static [&'static str] = &" m.keys =
      "    const KEYS: &'static [&'static str] = &[" ++ literals m.keys ++ "];" :=
    hlist _ (by decide) _
  rw [tableConstants, hlanguages, hkeys, textLine, textLine, ← String.append_assoc,
    ← String.append_assoc]
  rfl

theorem sourceText_eq_parts : sourceText m r o = lines (frontLines m r o ++ [nameSpaceLine r] ++
    implLines (Identifier.render r.baseName) ++ tableConstants m r ++ [valuesLine] ++ unitRows m ++
      openingLines (Identifier.render r.baseName) ++ fieldBindings m.keys ++
        (bindingsEndLine :: unitEnd r)) := by
  rw [sourceText_eq, ← lines_append, codeLines_eq, unitStruct, structLines_eq, unitConstants_eq]
  refine congrArg lines ?_
  unfold frontLines nameSpaceLine textLine implLines openingLines unitTail unitBindings
    fieldBindings
  simp only [List.append_assoc, List.cons_append, List.nil_append]

theorem oneLine_tableConstants : ∀ l ∈ tableConstants m r, OneLine l := by
  intro l hl
  simp only [tableConstants, List.mem_cons, List.not_mem_nil, or_false] at hl
  rcases hl with rfl | rfl | rfl | rfl
  · exact oneLine_textLine (by decide) _
  · exact oneLine_textLine (by decide) _
  · exact oneLine_listLine (by decide) _
  · exact oneLine_listLine (by decide) _

theorem oneLine_fieldBindings (keys : List String) : ∀ l ∈ fieldBindings keys, OneLine l := by
  intro l hl
  obtain ⟨⟨name, i⟩, hname, rfl⟩ := List.mem_map.1 hl
  exact (plain_bindingLine (isBare_fieldNames _ (List.fst_mem_of_mem_zipIdx hname))).oneLine

theorem splitOn_source (hlanguages : ∀ l ∈ m.languages, OneLine l) :
    (ofMerged m r o).source.toList.splitOn '\n' =
      brokenLines (frontLines m r o) ++ [(nameSpaceLine r).toList] ++
      brokenLines (implLines (Identifier.render r.baseName)) ++
      (tableConstants m r).map String.toList ++ brokenLines [valuesLine] ++
      (unitRows m).map String.toList ++ brokenLines (openingLines (Identifier.render r.baseName)) ++
      (fieldBindings m.keys).map String.toList ++
      brokenLines (closingLines (Identifier.render r.baseName)) := by
  have hnameSpace : ∀ l ∈ [nameSpaceLine r], OneLine l := fun l hl =>
    List.mem_singleton.1 hl ▸ oneLine_textLine (by decide) _
  have hclosing : bindingsEndLine :: unitEnd r ++ [""] =
      closingLines (Identifier.render r.baseName) := rfl
  change (sourceText m r o).toList.splitOn '\n' = _
  rw [sourceText_eq_parts, splitOn_lines_eq, List.append_assoc _ (bindingsEndLine :: unitEnd r),
    hclosing]
  simp only [brokenLines_append]
  rw [brokenLines_of_oneLine hnameSpace, brokenLines_of_oneLine (oneLine_tableConstants m r),
    brokenLines_of_oneLine (oneLine_fieldBindings m.keys),
    brokenLines_of_oneLine fun l hl => (plain_unitRows hlanguages l hl).oneLine]
  rfl

theorem recover?_eq_some (hlanguages : ∀ l ∈ m.languages, OneLine l) : (ofMerged m r o).recover? =
    some (Table.ofMerged m r, (Identifier.fieldNames m.keys).zipIdx) := by
  have hconstants (ls : List (List Char)) : ls ++ (tableConstants m r).map String.toList =
      ls ++ [(textLine "    const TYPE_NAME: &'static str = " r.fullName).toList] ++
        [(textLine "    const FALLBACK_LANGUAGE: &'static str = " m.fallbackLanguage).toList] ++
        [(listLine "    const LANGUAGES: &'static [&'static str] = &" m.languages).toList] ++
        [(listLine "    const KEYS: &'static [&'static str] = &" m.keys).toList] := by
    simp only [tableConstants, List.map_cons, List.map_nil, List.append_assoc, List.cons_append,
      List.nil_append]
  rw [recover?, baseName?_ofMerged, splitOn_source m r o hlanguages]
  simp only [Option.bind_eq_bind, Option.bind_some, lastBindings?_append, lastRows?_append,
    hconstants, last?_textLine, last?_listLine, front?_append, nameSpaceLine]
  rfl

end

structure Carries (t : Table) (bindings : List (String × Nat)) (m : Merged) (r : Resource) :
    Prop where
  typeName : t.typeName = r.fullName
  nameSpace : t.nameSpace = some r.dottedNameSpace
  fallbackLanguage : t.fallbackLanguage = m.fallbackLanguage
  languages : t.languages = m.languages
  ascending : t.languages.Pairwise (· < ·)
  keys : t.keys = m.keys
  length_values : t.values.length = t.languages.length
  values : ∀ {i : Nat} {language}, t.languages[i]? = some language →
    t.values[i]? = m.values.get? language
  bindings : bindings = (Identifier.fieldNames m.keys).zipIdx

/-- The source of a unit carries its merge: whatever the keys, the texts and the names, and whatever
files they come from, they are read back as they were, and each field is bound to its place. -/
theorem carries_ofMerged (m : Merged) (r : Resource) (o : Options)
    (h : ∀ l ∈ m.languages, ∃ tag, Language.canonical? tag = some l) :
    ∃ t bindings, (ofMerged m r o).recover? = some (t, bindings) ∧ Carries t bindings m r := by
  refine ⟨_, _, recover?_eq_some m r o ?_, ?_⟩
  · intro l hl hnewline
    obtain ⟨tag, htag⟩ := h l hl
    exact absurd (Language.isTagChar_canonical? htag _ hnewline) (by decide)
  · constructor
    case ascending => exact m.values.ascending_keys
    case length_values => exact (List.length_map _).trans (List.length_map _).symm
    case values => exact Dict.getElem?_values
    all_goals rfl

def trickyMerged : Merged where
  fallbackLanguage := "en"
  keys := ["\"];\n", "e\u0301", "\x00\\"]
  values := ((∅ : Dict (List String)).insert "en" ["\", \"", "// ", "],"]).insert "de"
    ["\r\n    ];", "\u0301", "\u200B"]

def trickyResource : Resource where
  nameSpace := ["App", "text"]
  baseName := "type"
  files := (∅ : Dict TextFile).insert "en" (.sample "type\n.en.csv")
  subNamespace := true

theorem carries_trickyMerged :
    (∀ l ∈ trickyMerged.languages, ∃ tag, Language.canonical? tag = some l) ∧
    ∃ t bindings, (ofMerged trickyMerged trickyResource .sample).recover? = some (t, bindings) ∧
      Carries t bindings trickyMerged trickyResource := by
  have hlanguages : ∀ l ∈ trickyMerged.languages, ∃ tag, Language.canonical? tag = some l := by
    have hcanonical : ∀ l ∈ trickyMerged.languages, Language.canonical? l = some l := by
      decide +kernel
    exact fun l hl => ⟨l, hcanonical l hl⟩
  exact ⟨hlanguages, carries_ofMerged trickyMerged trickyResource .sample hlanguages⟩

end Phrasebook.SourceUnit
