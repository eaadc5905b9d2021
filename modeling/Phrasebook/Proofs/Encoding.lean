import Phrasebook.Contents
import Phrasebook.Proofs.Decoding

namespace Phrasebook

namespace Encoding

def isUnicode : Encoding → Bool
  | utf8 | utf16le | utf16be => true
  | windows1252 | other _ _ => false

def IsMarked (content : List UInt8) : Prop :=
  ∃ e : Encoding, e.isUnicode = true ∧ e.mark <+: content

/-- The encoding that is used for content and the bytes that it is used for: a mark in front names
it, and without one it is as declared. -/
inductive Uses (declared : Encoding) : List UInt8 → Encoding → List UInt8 → Prop
  | marked {e : Encoding} (bs : List UInt8) : e.isUnicode = true → Uses declared (e.mark ++ bs) e bs
  | unmarked {bs : List UInt8} : ¬IsMarked bs → Uses declared bs declared bs

theorem effective_mark (declared : Encoding) {e : Encoding} (he : e.isUnicode = true)
    (bs : List UInt8) : effective declared (e.mark ++ bs) = (e, bs) := by
  cases e with
  | utf8 => rfl
  | utf16le => rfl
  | utf16be => rfl
  | windows1252 | other => cases he

theorem effective_unmarked (declared : Encoding) {bs : List UInt8} (h : ¬IsMarked bs) :
    effective declared bs = (declared, bs) := by
  have hnone : announced? bs = none := by
    unfold announced?
    split
    · exact absurd ⟨utf8, rfl, _, rfl⟩ h
    · exact absurd ⟨utf16le, rfl, _, rfl⟩ h
    · exact absurd ⟨utf16be, rfl, _, rfl⟩ h
    · rfl
  rw [effective, hnone, Option.getD_none]

theorem uses_iff {declared e : Encoding} {content bs : List UInt8} :
    Uses declared content e bs ↔ effective declared content = (e, bs) := by
  constructor
  · rintro (⟨_, he⟩ | hnone)
    · exact effective_mark declared he bs
    · exact effective_unmarked declared hnone
  · intro h
    by_cases hmark : IsMarked content
    · obtain ⟨e', he', bs', rfl⟩ := hmark
      cases (effective_mark declared he' bs').symm.trans h
      exact .marked bs he'
    · cases (effective_unmarked declared hmark).symm.trans h
      exact .unmarked hmark

theorem Uses.isUnicode {declared e : Encoding} {content bs : List UInt8}
    (h : Uses declared content e bs) (hdeclared : declared.isUnicode = true) :
    e.isUnicode = true := by
  cases h with
  | marked _ he => exact he
  | unmarked _ => exact hdeclared

section

variable {e : Encoding} (he : e.isUnicode = true)

include he

theorem exists_encode? (text : String) : ∃ bs, e.encode? text = some bs := by
  cases e with
  | utf8 => exact ⟨_, rfl⟩
  | utf16le => exact ⟨_, rfl⟩
  | utf16be => exact ⟨_, rfl⟩
  | windows1252 | other => cases he

theorem decodeChars_eq_some_iff {bs : List UInt8} {cs : List Char} :
    e.decodeChars bs = some cs ↔ e.encodeChars? cs = some bs := by
  cases e with
  | utf8 => exact Text.Utf8.decode_eq_some_iff.trans Option.some_inj.symm
  | utf16le => exact bind_units_eq_some_iff.trans Option.some_inj.symm
  | utf16be => exact bind_units_eq_some_iff.trans Option.some_inj.symm
  | windows1252 | other => cases he

theorem decode?_eq_some_iff {bs : List UInt8} {text : String} :
    e.decode? bs = some text ↔ e.encode? text = some bs := by
  rw [encode?, ← decodeChars_eq_some_iff he, decode?, Option.map_eq_some_iff]
  constructor
  · rintro ⟨cs, hcs, rfl⟩
    rw [String.toList_ofList, hcs]
  · exact fun h => ⟨text.toList, h, String.ofList_toList⟩

end

end Encoding

/-- What a file is read as whose bytes are in the encoding: the text that they encode, or else an
error that names the encoding. -/
structure TextFile.ReadIn (f : TextFile) (e : Encoding) (bs : List UInt8) : Prop where
  decode : ∀ {text}, f.decode = .ok text ↔ e.encode? text = some bs
  parse : ∀ {text}, e.encode? text = some bs → f.parse = f.format.parse f.path text
  refused : (∀ text, e.encode? text ≠ some bs) →
    f.decode = .error (.undecodable f.path e) ∧ f.parse = .error (.undecodable f.path e)

theorem TextFile.readIn_of_uses {f : TextFile} {e : Encoding} {bs : List UInt8}
    (huses : Encoding.Uses f.encoding f.content e bs) (he : e.isUnicode = true) :
    f.ReadIn e bs := by
  have hok {text : String} (h : e.decode? bs = some text) : f.decode = .ok text := by
    simp only [TextFile.decode, decodeContent, Encoding.uses_iff.1 huses, h]
  have herror (h : e.decode? bs = none) : f.decode = .error (.undecodable f.path e) := by
    simp only [TextFile.decode, decodeContent, Encoding.uses_iff.1 huses, h]
  have hread {text : String} (h : e.encode? text = some bs) : f.decode = .ok text :=
    hok ((Encoding.decode?_eq_some_iff he).2 h)
  constructor
  case decode =>
    intro text
    refine ⟨fun h => ?_, hread⟩
    cases hbytes : e.decode? bs with
    | none =>
      rw [herror hbytes] at h
      cases h
    | some text' =>
      rw [hok hbytes] at h
      cases h
      exact (Encoding.decode?_eq_some_iff he).1 hbytes
  case parse =>
    intro text h
    simp only [TextFile.parse, hread h]
    rfl
  case refused =>
    intro hnone
    have hbytes : e.decode? bs = none := Option.eq_none_iff_forall_ne_some.2 fun text htext =>
      hnone text ((Encoding.decode?_eq_some_iff he).1 htext)
    refine ⟨herror hbytes, ?_⟩
    simp only [TextFile.parse, herror hbytes]
    rfl

/-- A file with an encoded text is read as that text, behind the mark of the encoding whatever is
declared, and without a mark as declared. Other content is refused. -/
theorem TextFile.readIn_encoded (f : TextFile) :
    (∀ e : Encoding, e.isUnicode = true → ∀ text, ∃ bs, e.encode? text = some bs ∧
      { f with content := e.mark ++ bs }.parse = f.format.parse f.path text ∧
      (¬Encoding.IsMarked bs →
        { f with content := bs, encoding := e }.parse = f.format.parse f.path text)) ∧
    (f.encoding.isUnicode = true → ∃ e bs, Encoding.Uses f.encoding f.content e bs ∧
      e.isUnicode = true ∧ f.ReadIn e bs) ∧
    f.format.parseBytes f.path f.content = { f with encoding := .utf8 }.parse := by
  refine ⟨?_, ?_, rfl⟩
  · intro e he text
    obtain ⟨bs, hbs⟩ := Encoding.exists_encode? he text
    refine ⟨bs, hbs, ?_, fun hnone => ?_⟩
    · exact (readIn_of_uses (f := { f with content := e.mark ++ bs }) (.marked bs he) he).parse hbs
    · exact (readIn_of_uses (f := { f with content := bs, encoding := e }) (.unmarked hnone)
        he).parse hbs
  · intro hdeclared
    have huses : Encoding.Uses f.encoding f.content _ _ := Encoding.uses_iff.2 rfl
    have he := huses.isUnicode hdeclared
    exact ⟨_, _, huses, he, readIn_of_uses huses he⟩

/-- A mark is stronger than what is declared. -/
example : decodeContent (.ofString "Menu.fr.csv") [0xFE, 0xFF, 0x00, 0xE9] .windows1252 =
    .ok "é" := by
  rfl

/-- Two bytes of another encoding for one character. -/
example : decodeContent (.ofString "Menu.ja.csv") [0x82, 0xA0]
    (.other "Shift_JIS" ⟨[((0, 0x82), 1, []), ((1, 0xA0), 0, ['あ'])], [0]⟩) = .ok "あ" := by
  rfl

/-- A half of a pair alone is refused in the encoding that was declared. -/
example : decodeContent (.ofString "Menu.fr.csv") [0x61, 0x00, 0x3D, 0xD8] .utf16le =
    .error (.undecodable (.ofString "Menu.fr.csv") .utf16le) := by
  rfl

end Phrasebook
