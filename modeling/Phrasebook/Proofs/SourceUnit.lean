import Std.Data.String.ToNat
import Phrasebook.Proofs.Identifier
import Phrasebook.Proofs.Lines

namespace Phrasebook.SourceUnit

def codeLines (m : Merged) (r : Resource) : List String :=
  let typeIdent := Identifier.render r.baseName
  let fields := Identifier.fieldNames m.keys
  structLines typeIdent r fields ((m.values.get? m.fallbackLanguage).getD []) ++
    tableLines typeIdent r m fields ++ defaultLines typeIdent

theorem sourceText_eq (m : Merged) (r : Resource) (o : Options) :
    sourceText m r o = lines (header r o) ++ lines (codeLines m r) := by
  simp only [sourceText, codeLines, ← lines_append, List.append_assoc]

def IsBare (s : String) : Prop := ∀ c ∈ s.toList, Identifier.isPart c = true ∨ c = '#'

theorem IsBare.not_mem {s : String} (h : IsBare s) {c : Char}
    (hc : ¬(Identifier.isPart c = true ∨ c = '#')) : c ∉ s.toList := fun hmem => hc (h c hmem)

theorem IsBare.ne_of_mem {s : String} (h : IsBare s) {c d : Char} (hc : c ∈ s.toList)
    (hd : ¬(Identifier.isPart d = true ∨ d = '#')) : c ≠ d := fun heq => hd (heq ▸ h c hc)

theorem IsBare.oneLine {s : String} (h : IsBare s) : OneLine s := h.not_mem (by decide)

def leadLines (typeIdent : String) (r : Resource) (fields row : List String) : List String :=
  let doc := Text.quote s!"Text table `{r.fullName}`."
  [s!"#[doc = {doc}]",
    "#[allow(non_snake_case, non_camel_case_types, dead_code)]",
    "#[derive(Debug, Clone, Copy, PartialEq, Eq, Hash)]",
    s!"pub struct {typeIdent} \x7b"] ++
    (fields.zipIdx.flatMap fun (name, i) => fieldLines name row[i]?) ++
    ["\x7d", "", "#[allow(dead_code)]", s!"impl {typeIdent} \x7b"]

theorem structLines_eq (typeIdent : String) (r : Resource) (fields row : List String) :
    structLines typeIdent r fields row = leadLines typeIdent r fields row ++
      ("    pub const NAMESPACE: &'static str = " ++ (Text.quote r.dottedNameSpace ++ ";")) ::
        ["\x7d", ""] := by
  simp only [structLines, leadLines, List.append_assoc, List.cons_append, List.nil_append,
    ← String.append_assoc]
  rfl

def leadHeads : List String := ["#[", "pub struct ", "    #[", "\x7d", "impl "]

def structHeads : List String := "    pub " :: leadHeads

def fieldLine (name : String) : String := s!"    pub {name}: &'static str,"

variable {typeIdent : String} {r : Resource} {m : Merged} {fields : List String}

theorem plain_leadLines (htype : IsBare typeIdent) (hfields : ∀ name ∈ fields, IsBare name)
    {row : List String} {l : String} (hl : l ∈ leadLines typeIdent r fields row) :
    Plain leadHeads l ∨ ∃ name, IsBare name ∧ l = fieldLine name := by
  simp only [leadLines, List.mem_append, List.mem_cons, List.not_mem_nil, or_false] at hl
  rcases hl with ((rfl | rfl | rfl | rfl) | hl) | rfl | rfl | rfl | rfl
  · exact .inl (.around (by decide) (oneLine_quote _) (by decide))
  · exact .inl (.literal (by decide))
  · exact .inl (.literal (by decide))
  · exact .inl (.around (by decide) htype.oneLine (by decide))
  · obtain ⟨⟨name, i⟩, hname, hl⟩ := List.mem_flatMap.1 hl
    rcases List.mem_append.1 hl with hl | hl
    · obtain ⟨t, -, rfl⟩ := Option.map_eq_some_iff.1 (Option.mem_toList.1 hl)
      exact .inl (.around (by decide) (oneLine_quote t) (by decide))
    · exact .inr ⟨name, hfields name (List.fst_mem_of_mem_zipIdx hname), List.mem_singleton.1 hl⟩
  · exact .inl (.literal (by decide))
  · exact .inl (.literal (by decide))
  · exact .inl (.literal (by decide))
  · exact .inl (.around (by decide) htype.oneLine (by decide))

theorem plain_structLines (htype : IsBare typeIdent) (hfields : ∀ name ∈ fields, IsBare name)
    (row : List String) : ∀ l ∈ structLines typeIdent r fields row, Plain structHeads l := by
  intro l hl
  rw [structLines_eq, List.mem_append, List.mem_cons, List.mem_cons, List.mem_singleton] at hl
  rcases hl with hl | rfl | rfl | rfl
  · rcases plain_leadLines htype hfields hl with hl | ⟨name, hname, rfl⟩
    · exact hl.mono (List.subset_cons_self _ _)
    · exact .around (by decide) hname.oneLine (by decide)
  · exact .before (by decide) (oneLine_append (oneLine_quote _) (by decide))
  · exact .literal (by decide)
  · exact .literal (by decide)

/-- A field is no constant: its name ends before a colon and has no blank. -/
theorem namespace_not_prefix_fieldLine {name : String} (h : IsBare name) :
    ¬"    pub const NAMESPACE: &'static str = ".toList <+: (fieldLine name).toList := by
  intro hprefix
  have hline : (fieldLine name).toList =
      "    pub ".toList ++ (name.toList ++ ':' :: " &'static str,".toList) := by
    simp only [fieldLine, toString, String.toList_append, List.append_assoc]
    rfl
  have hstart : "    pub const NAMESPACE: &'static str = ".toList =
      "    pub ".toList ++ ("const NAMESPACE".toList ++ ':' :: " &'static str = ".toList) := by
    decide
  rw [hline, hstart, List.prefix_append_right_inj] at hprefix
  obtain ⟨rest, hrest⟩ := hprefix
  have hconst : ':' ∉ "const NAMESPACE".toList := by decide
  have hname : "const NAMESPACE".toList = name.toList := by
    rw [← takeWhile_append_mark hconst, ← List.cons_append, ← List.append_assoc, hrest]
    exact takeWhile_append_mark (h.not_mem (by decide)) _
  exact h.not_mem (c := ' ') (by decide) (hname ▸ by decide)

def constantHeads : List String :=
  ["impl ", "    const T", "    const F", "    const L", "    const K"]

def constantLines (typeIdent : String) (r : Resource) (m : Merged) : List String :=
  [s!"impl {runtime}::TextTable for {typeIdent} \x7b",
    s!"    const TYPE_NAME: &'static str = {Text.quote r.fullName};",
    s!"    const FALLBACK_LANGUAGE: &'static str = {Text.quote m.fallbackLanguage};",
    s!"    const LANGUAGES: &'static [&'static str] = &[{literals m.languages}];",
    s!"    const KEYS: &'static [&'static str] = &[{literals m.keys}];"]

theorem plain_constantLines (htype : IsBare typeIdent) :
    List.Forall₂ (fun head l => Plain [head] l) constantHeads (constantLines typeIdent r m) := by
  refine .cons ?_ (.cons ?_ (.cons ?_ (.cons ?_ (.cons ?_ .nil))))
  · exact .around (by decide) htype.oneLine (by decide)
  · exact .around (by decide) (oneLine_quote _) (by decide)
  · exact .around (by decide) (oneLine_quote _) (by decide)
  · exact .around (by decide) (oneLine_literals _) (by decide)
  · exact .around (by decide) (oneLine_literals _) (by decide)

def rowHeads : List String := ["        //", "        &["]

theorem plain_rowLines {row : String × List String} (h : OneLine row.1) :
    ∀ l ∈ rowLines row, Plain rowHeads l := by
  intro l hl
  simp only [rowLines, List.mem_cons, List.not_mem_nil, or_false] at hl
  rcases hl with rfl | rfl
  · exact .before (by decide) h
  · exact .around (by decide) (oneLine_literals _) (by decide)

def valuesLine : String := "    const VALUES: &'static [&'static [&'static str]] = &["

def rowsEndLine : String := "    ];"

def bindingLine (field : String × Nat) : String :=
  s!"            {field.1}: values[{field.2}],"

def bindingsLeadLines : List String := ["", "    #[allow(unused_variables)]"]

def bindingsLine : String := "    fn from_values(values: &'static [&'static str]) -> Self \x7b"

def bindingsEndLine : String := "        \x7d"

def typeLine (typeIdent : String) : String := s!"        {typeIdent} \x7b"

theorem tableLines_eq (typeIdent : String) (r : Resource) (m : Merged) (fields : List String) :
    tableLines typeIdent r m fields =
      constantLines typeIdent r m ++ valuesLine :: (m.values.toList.flatMap rowLines ++
        rowsEndLine :: (bindingsLeadLines ++ bindingsLine ::
          (typeLine typeIdent :: fields.zipIdx.map bindingLine ++
            bindingsEndLine :: ["    \x7d", "\x7d", ""]))) := by
  simp only [tableLines, constantLines, bindingsLeadLines, List.append_assoc, List.cons_append,
    List.nil_append]
  rfl

theorem plain_bindingLine {field : String × Nat} (h : IsBare field.1) :
    Plain ["            "] (bindingLine field) := by
  refine .around (a := _ ++ _ ++ _) (s := toString field.2) ?_ ?_ (by decide)
  · have hplain : Plain ["            "] ("            " ++ field.1 ++ ": values[") :=
      .around (by decide) h.oneLine (by decide)
    exact ⟨hplain.oneLine, ((Opens.append (by decide) _).append _)⟩
  · exact IsBare.oneLine fun c hc => .inl (Identifier.isWord_toString field.2 c hc)

theorem plain_defaultLines (htype : IsBare typeIdent) :
    ∀ l ∈ defaultLines typeIdent, Plain ["impl ", "    ", "\x7d"] l := by
  intro l hl
  simp only [defaultLines, List.mem_cons, List.not_mem_nil, or_false] at hl
  rcases hl with rfl | rfl | rfl | rfl | rfl
  · exact .around (by decide) htype.oneLine (by decide)
  · exact .literal (by decide)
  · exact .literal (by decide)
  · exact .literal (by decide)
  · exact .literal (by decide)

theorem dropWhile_blank (n : Nat) {cs : List Char} (h : ∀ c ∈ cs.head?, c ≠ ' ') :
    (List.replicate n ' ' ++ cs).dropWhile (· = ' ') = cs := by
  rw [List.dropWhile_append_of_pos fun c hc => decide_eq_true (List.eq_of_mem_replicate hc)]
  cases cs with
  | nil => rfl
  | cons c cs =>
    rw [List.dropWhile_cons_of_neg]
    simpa using h c rfl

theorem readBinding?_bindingLine {name : String} (h : IsBare name) (i : Nat) :
    readBinding? (bindingLine (name, i)).toList = some (name, i) := by
  have hline : (bindingLine (name, i)).toList = List.replicate 12 ' ' ++
      (name.toList ++ ':' :: (" values[".toList ++ ((toString i).toList ++ "],".toList))) := by
    unfold bindingLine
    simp only [toString, String.toList_append, List.append_assoc]
    rfl
  have hblank : ∀ c ∈ (name.toList ++ ':' :: (" values[".toList ++
      ((toString i).toList ++ "],".toList))).head?, c ≠ ' ' := by
    intro c hc
    cases hname : name.toList with
    | nil =>
      rw [hname] at hc
      cases hc
      decide
    | cons d ds =>
      rw [hname] at hc
      cases hc
      exact h.ne_of_mem (hname ▸ List.mem_cons_self) (by decide)
  have hcolon : ':' ∉ name.toList := h.not_mem (by decide)
  have hbracket : ']' ∉ (toString i).toList := fun hmem =>
    absurd (Identifier.isWord_toString i _ hmem) (by decide)
  have hvalues : ": values[".toList.isPrefixOf?
      (':' :: (" values[".toList ++ ((toString i).toList ++ "],".toList))) =
        some ((toString i).toList ++ "],".toList) :=
    List.isPrefixOf?_eq_some_iff_append_eq.2 rfl
  have hplace : ((toString i).toList ++ "],".toList).takeWhile (· ≠ ']') = (toString i).toList :=
    takeWhile_append_mark hbracket _
  have hnumber : (toString i).toNat? = some i := Nat.toNat?_repr i
  rw [readBinding?, hline, dropWhile_blank 12 hblank, dropWhile_append_mark hcolon,
    takeWhile_append_mark hcolon, hvalues, Option.bind_eq_bind, Option.bind_some, hplace,
    String.ofList_toList, hnumber, String.ofList_toList]
  rfl

end Phrasebook.SourceUnit
