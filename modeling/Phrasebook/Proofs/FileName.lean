import Phrasebook.Proofs.Placement
import Phrasebook.Proofs.Utf8

namespace Phrasebook

namespace Path

theorem bne_dot_of_not_mem {bs : List UInt8} (h : dot ∉ bs) :
    ∀ b ∈ bs.reverse, (b != dot) = true := by
  intro b hb
  apply bne_iff_ne.2
  rintro rfl
  exact h (List.mem_reverse.1 hb)

theorem splitExtension_append {stem ext : List UInt8} (hext : dot ∉ ext)
    (hparent : stem ++ dot :: ext ≠ [dot, dot]) : splitExtension (stem ++ dot :: ext) =
      if stem = [] then (stem ++ dot :: ext, none) else (stem, some ext) := by
  have htake : ((stem ++ dot :: ext).reverse.takeWhile (· != dot)).reverse = ext := by
    rw [List.reverse_append, List.reverse_cons, List.append_assoc,
      List.takeWhile_append_of_pos (bne_dot_of_not_mem hext), List.singleton_append,
      List.takeWhile_cons_of_neg (by simp), List.append_nil, List.reverse_reverse]
  have hlength : (stem ++ dot :: ext).length - ext.length - 1 = stem.length := by
    rw [List.length_append, List.length_cons]
    omega
  unfold splitExtension
  dsimp only
  rw [htake, hlength, List.take_left]
  simp only [hparent, false_or]

theorem splitExtension_of_not_mem {file : List UInt8} (h : dot ∉ file) :
    splitExtension file = (file, none) := by
  have htake : file.reverse.takeWhile (· != dot) = file.reverse := by
    rw [← List.append_nil file.reverse, List.takeWhile_append_of_pos (bne_dot_of_not_mem h),
      List.takeWhile_nil]
  unfold splitExtension
  dsimp only
  rw [htake, List.reverse_reverse, Nat.sub_self]
  exact if_pos (.inr rfl)

end Path

structure FileName where
  segments : List String
  baseName : String
  tag : String
  extension : String
  language : String
  identifiers : ∀ s ∈ segments ++ [baseName], Identifier.isIdentifier s = true
  canonical : Language.canonical? tag = some language
  dotless : '.' ∉ tag.toList ∧ '.' ∉ extension.toList

namespace FileName

variable (n : FileName)

def parts : List String := n.segments ++ [n.baseName] ++ [n.tag]

def stem : String := ".".intercalate n.parts

def text : String := n.stem ++ "." ++ n.extension

def bytes : List UInt8 := Text.Utf8.ofString n.text

theorem dot_not_mem_parts : ∀ s ∈ n.parts, '.' ∉ s.toList := by
  intro s hs hdot
  rcases List.mem_append.1 hs with hs | hs
  · exact Identifier.dot_not_mem (n.identifiers s hs) hdot
  · exact n.dotless.1 (List.mem_singleton.1 hs ▸ hdot)

theorem stemParts_stem : Placement.stemParts n.stem = n.parts :=
  Placement.stemParts_dotted n.dot_not_mem_parts (by simp [parts])

theorem ofStem_stem (leading : List String) : Placement.ofStem leading none n.stem =
    .ok ⟨leading ++ n.segments, n.baseName, n.language⟩ := by
  have hlanguage : Placement.languageOf none n.parts =
      .ok (n.language, n.segments ++ [n.baseName]) := by
    have hlength : ¬(n.segments ++ [n.baseName] ++ [n.tag]).length < 2 := by simp
    unfold Placement.languageOf
    simp only [parts, List.getLast?_concat, List.dropLast_concat, n.canonical]
    rw [if_neg hlength]
  have hfind : (n.segments ++ [n.baseName]).find? (!Identifier.isIdentifier ·) = none :=
    List.find?_eq_none.2 fun s hs => by simp [n.identifiers s hs]
  unfold Placement.ofStem
  rw [stemParts_stem, hlanguage]
  simp only [bind, Except.bind, hfind, List.getLast?_concat, List.dropLast_concat]

theorem ofString_stem_ne {s : String} (h : ∀ part ∈ Placement.stemParts s, part = "") :
    Text.Utf8.ofString n.stem ≠ Text.Utf8.ofString s := by
  intro heq
  have hmem : n.baseName ∈ n.segments ++ [n.baseName] :=
    List.mem_append_right _ List.mem_cons_self
  have hne : n.baseName ≠ "" := by
    intro hempty
    have hname := n.identifiers _ hmem
    rw [hempty] at hname
    cases hname
  exact dotted_ne n.dot_not_mem_parts (List.mem_append_left _ hmem) hne h
    (Text.Utf8.ofString_inj heq)

theorem splitExtension_bytes : Path.splitExtension n.bytes =
    (Text.Utf8.ofString n.stem, some (Text.Utf8.ofString n.extension)) := by
  have hbytes : n.bytes = Text.Utf8.ofString n.stem ++ Path.dot ::
      Text.Utf8.ofString n.extension := by
    rw [bytes, text, Text.Utf8.ofString_append, Text.Utf8.ofString_append, List.append_assoc]
    rfl
  have hext : Path.dot ∉ Text.Utf8.ofString n.extension := fun h =>
    n.dotless.2 (Text.Utf8.mem_ofString (n := 0x2E) (by decide) h)
  have hnil : Text.Utf8.ofString n.stem ≠ [] := n.ofString_stem_ne (s := "") (by decide)
  have hparent : Text.Utf8.ofString n.stem ++ Path.dot :: Text.Utf8.ofString n.extension ≠
      [Path.dot, Path.dot] := by
    intro heq
    obtain ⟨b, bs, hb⟩ := List.exists_cons_of_ne_nil hnil
    rw [hb] at heq
    obtain ⟨rfl, hbs⟩ := List.cons.inj heq
    obtain ⟨rfl, -⟩ | ⟨-, hcons⟩ := List.append_eq_singleton_iff.1 hbs
    · exact n.ofString_stem_ne (s := ".") (by decide) hb
    · cases hcons
  rw [hbytes, Path.splitExtension_append hext hparent, if_neg hnil]

end FileName

theorem Placement.find_fileName {o : Options} {f : TextFile} (n : FileName)
    {cs : List Path.Component} (hlanguage : f.language = none)
    (hbelow : (o.resolve f.path).below? o.sourceRoot = some cs)
    (hname : Path.fileNameOf? cs = some n.bytes) :
    ∃ directories, find o f = .ok ⟨o.rootSegments ++ directories ++ n.segments, n.baseName,
      n.language⟩ := by
  have hstem : (Path.fileStem? cs).bind Text.Utf8.decode? = some n.stem := by
    rw [Path.fileStem?, hname, Option.map_some, n.splitExtension_bytes, Option.bind_some,
      Text.Utf8.decode?_ofString]
  unfold find
  simp only [hbelow, hstem, hlanguage]
  exact ⟨_, n.ofStem_stem _⟩

end Phrasebook
