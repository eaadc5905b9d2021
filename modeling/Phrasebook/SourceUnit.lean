import Phrasebook.Identifier.FieldNames
import Phrasebook.Json.Printer
import Phrasebook.Merge
import Phrasebook.Options
import Phrasebook.Resource
import Phrasebook.Table

/-!
Source units: the source of one text table and, for each language, its texts as JSON. The source has
a comment that names the files, a struct with a field for each key, and the table with all rows.
-/

namespace Phrasebook

structure TableFile where
  language : String
  fileName : String
  content : String
  deriving DecidableEq

structure SourceUnit where
  fileName : String
  typeName : String
  nameSpace : List String
  source : String
  tableFiles : List TableFile
  deriving DecidableEq

namespace SourceUnit

def runtime : String := "::i18ntext::runtime"

def lines (ls : List String) : String := String.join (ls.map (· ++ "\n"))

def shownPath (o : Options) (p : Path) : String :=
  let resolved := o.resolve p
  let cs := (resolved.below? o.baseDir).getD resolved.components
  "/".intercalate (cs.map fun c => Text.Utf8.toStringLossy c.bytes)

def literals (ss : List String) : String := ", ".intercalate (ss.map Text.quote)

def header (r : Resource) (o : Options) : List String :=
  ["// <auto-generated>", "//     Generated by i18ntext from:"] ++
    (r.sources.map fun (language, path) => s!"//       {language}: {shownPath o path}") ++
    ["//     Changes to this file will be lost when it is regenerated.", "// </auto-generated>", ""]

def fieldLines (name : String) (text : Option String) : List String :=
  (text.map fun t => s!"    #[doc = {Text.quote t}]").toList ++ [s!"    pub {name}: &'static str,"]

def structLines (typeIdent : String) (r : Resource) (fields fallbackRow : List String) :
    List String :=
  let doc := Text.quote s!"Text table `{r.fullName}`."
  [s!"#[doc = {doc}]",
    "#[allow(non_snake_case, non_camel_case_types, dead_code)]",
    "#[derive(Debug, Clone, Copy, PartialEq, Eq, Hash)]",
    s!"pub struct {typeIdent} \x7b"] ++
    (fields.zipIdx.flatMap fun (name, i) => fieldLines name fallbackRow[i]?) ++
    ["\x7d", "",
      "#[allow(dead_code)]",
      s!"impl {typeIdent} \x7b",
      s!"    pub const NAMESPACE: &'static str = {Text.quote r.dottedNameSpace};",
      "\x7d", ""]

def rowLines (row : String × List String) : List String :=
  [s!"        // {row.1}", s!"        &[{literals row.2}],"]

def tableLines (typeIdent : String) (r : Resource) (m : Merged) (fields : List String) :
    List String :=
  [s!"impl {runtime}::TextTable for {typeIdent} \x7b",
    s!"    const TYPE_NAME: &'static str = {Text.quote r.fullName};",
    s!"    const FALLBACK_LANGUAGE: &'static str = {Text.quote m.fallbackLanguage};",
    s!"    const LANGUAGES: &'static [&'static str] = &[{literals m.languages}];",
    s!"    const KEYS: &'static [&'static str] = &[{literals m.keys}];",
    "    const VALUES: &'static [&'static [&'static str]] = &["] ++
    m.values.toList.flatMap rowLines ++
    ["    ];", "",
      "    #[allow(unused_variables)]",
      "    fn from_values(values: &'static [&'static str]) -> Self \x7b",
      s!"        {typeIdent} \x7b"] ++
    (fields.zipIdx.map fun (name, i) => s!"            {name}: values[{i}],") ++
    ["        \x7d", "    \x7d", "\x7d", ""]

def defaultLines (typeIdent : String) : List String :=
  [s!"impl ::core::default::Default for {typeIdent} \x7b",
    "    fn default() -> Self \x7b",
    s!"        <Self as {runtime}::TextTable>::fallback()",
    "    \x7d", "\x7d"]

def sourceText (m : Merged) (r : Resource) (o : Options) : String :=
  let typeIdent := Identifier.render r.baseName
  let fields := Identifier.fieldNames m.keys
  let fallbackRow := (m.values.get? m.fallbackLanguage).getD []
  lines (header r o ++ structLines typeIdent r fields fallbackRow ++
    tableLines typeIdent r m fields ++ defaultLines typeIdent)

def tableFile (r : Resource) (keys : List String) (row : String × List String) : TableFile where
  language := row.1
  fileName := s!"{r.fullName}.{row.1}.json"
  content := Json.printTexts (keys.zip row.2)

def ofMerged (m : Merged) (r : Resource) (o : Options) : SourceUnit where
  fileName := r.unitName
  typeName := r.fullName
  nameSpace := r.nameSpace
  source := sourceText m r o
  tableFiles := m.values.toList.map (tableFile r m.keys)

end SourceUnit

def Table.ofMerged (m : Merged) (r : Resource) : Table where
  typeName := r.fullName
  nameSpace := some r.dottedNameSpace
  fallbackLanguage := m.fallbackLanguage
  languages := m.languages
  keys := m.keys
  values := m.values.values

end Phrasebook
