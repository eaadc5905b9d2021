namespace Phrasebook

inductive Piece
  | text : String → Piece
  | slot : Nat → Piece
  deriving DecidableEq

abbrev Template := List Piece

namespace Template

def slotText (n : Nat) : String := "\x7b" ++ toString n ++ "\x7d"

def pieceText : Piece → String
  | .text s => s
  | .slot n => slotText n

def text (t : Template) : String := String.join (t.map pieceText)

/-- A place without an argument stays as it is written. -/
def fillPiece (args : List String) : Piece → String
  | .text s => s
  | .slot n => args[n]?.getD (slotText n)

def fill (t : Template) (args : List String) : String := String.join (t.map (fillPiece args))

def arity : Template → Nat
  | [] => 0
  | .text _ :: t => arity t
  | .slot n :: t => max (n + 1) (arity t)

theorem fill_eq_text (t : Template) : t.fill [] = t.text := by
  have : fillPiece [] = pieceText := by
    funext p
    cases p <;> rfl
  rw [fill, this, text]

end Template

end Phrasebook
