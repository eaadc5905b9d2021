import Phrasebook.Json.Printer
import Phrasebook.Json.Spelling
import Phrasebook.Proofs.Quoted

namespace Phrasebook.Json

theorem hexSpelling_control {c : Char} (h : c.toNat < 0x20) :
    HexSpelling c.toNat
      ['0', '0', Text.hexDigit (c.toNat / 16), Text.hexDigit (c.toNat % 16)] := by
  refine .four ?_
  have hzero : Text.hexValue? '0' = some 0 := by decide
  have hhigh := Text.hexValue?_hexDigit (c.toNat / 16) (by omega)
  have hlow := Text.hexValue?_hexDigit (c.toNat % 16) (by omega)
  simp only [Reader.hexCode, hzero, hhigh, hlow, Option.bind_eq_bind, Option.bind_some,
    Option.some.injEq]
  omega

theorem Blanks.of_all {cs : List Char} (h : cs.all Reader.isSpace = true) : Blanks cs :=
  .blanks (List.all_eq_true.1 h)

theorem charSpelling_escapeChar (c : Char) : CharSpelling c (escapeChar c) := by
  have escaped {d e : Char} (hc : c = d) (h : ShortEscape d e) : CharSpelling c ['\\', e] :=
    hc ▸ .short h
  unfold escapeChar
  split
  · next hc => exact escaped hc .quote
  split
  · next hc => exact escaped hc .backslash
  split
  · next hc => exact escaped hc .backspace
  split
  · next hc => exact escaped hc .formFeed
  split
  · next hc => exact escaped hc .lineFeed
  split
  · next hc => exact escaped hc .carriageReturn
  split
  · next hc => exact escaped hc .tab
  split
  · next hcontrol => exact .unit (hexSpelling_control hcontrol)
  · next hquote hslash _ _ _ _ _ hplain => exact .plain (Nat.not_lt.1 hplain) hquote hslash

theorem textSpelling_stringChars (cs : List Char) : TextSpelling cs (stringChars cs) := by
  refine .text ?_
  induction cs with
  | nil => exact .nil
  | cons c cs ih => exact .cons (charSpelling_escapeChar c) ih

def memberLine (m : String × String) : String := "  " ++ printString m.1 ++ ": " ++ printString m.2

theorem toList_memberLine (m : String × String) : (memberLine m).toList =
    [' ', ' '] ++ (stringChars m.1.toList ++ [] ++ ':' :: [' '] ++ stringChars m.2.toList) := by
  simp [memberLine, printString]

theorem memberSpelling_memberLine (m : String × String) :
    MemberSpelling (m.1.toList, m.2.toList)
      (stringChars m.1.toList ++ [] ++ ':' :: [' '] ++ stringChars m.2.toList) :=
  .pair (textSpelling_stringChars _) (textSpelling_stringChars _) (.of_all rfl)
    (.of_all rfl)

theorem membersSpelling_lines (m : String × String) (ms : List (String × String)) :
    MembersSpelling ((m :: ms).map fun m => (m.1.toList, m.2.toList))
      ('\n' :: (",\n".intercalate ((m :: ms).map memberLine)).toList ++ ['\n']) := by
  have hlead : Blanks ['\n', ' ', ' '] := .of_all rfl
  induction ms generalizing m with
  | nil =>
    have hline := MembersSpelling.last hlead (memberSpelling_memberLine m) (.of_all rfl)
      (b := ['\n'])
    simpa [toList_memberLine] using hline
  | cons n ms ih =>
    have hline := MembersSpelling.cons hlead (memberSpelling_memberLine m) (.of_all rfl)
      (ih n) (b := [])
    simpa [toList_memberLine, String.intercalate_cons_cons] using hline

theorem objectSpelling_printTexts (ms : List (String × String)) :
    ObjectSpelling (ms.map fun m => (m.1.toList, m.2.toList)) (printTexts ms).toList := by
  cases ms with
  | nil =>
    exact ObjectSpelling.empty (a := []) (b := []) (c := []) (.of_all rfl)
      (.of_all rfl) (.of_all rfl)
  | cons m ms =>
    have hobject := ObjectSpelling.members (a := []) (b := []) (.of_all rfl)
      (membersSpelling_lines m ms) (.of_all rfl)
    have htext : printTexts (m :: ms) =
        "\x7b\n" ++ ",\n".intercalate ((m :: ms).map memberLine) ++ "\n\x7d" := rfl
    rw [htext]
    simpa using hobject

end Phrasebook.Json
