namespace Phrasebook.Csv

/-- Where in a field the reader stands: at its start, outside or inside the quoted part, or after a
quote in it, which ends the part unless another quote follows. -/
inductive Mode
  | start
  | bare
  | quoted
  | afterQuote
  deriving DecidableEq

structure Record where
  /-- The line on which reading began, before blank lines are skipped. -/
  line : Nat
  fields : List String
  deriving DecidableEq

def isLineEnd (c : Char) : Bool := c = '\r' || c = '\n'

def push (c : Char) : List (List Char) × List Char → List (List Char) × List Char
  | ([], r) => ([[c]], r)
  | (f :: fs, r) => ((c :: f) :: fs, r)

def fields : Mode → List Char → List (List Char) × List Char
  | _, [] => ([[]], [])
  | .quoted, c :: r => if c = '"' then fields .afterQuote r else push c (fields .quoted r)
  | m, c :: r =>
    if c = '"' ∧ m = .start then fields .quoted r
    else if c = '"' ∧ m = .afterQuote then push c (fields .quoted r)
    else if c = ',' then
      let (fs, r') := fields .start r
      ([] :: fs, r')
    else if isLineEnd c then ([[]], c :: r)
    else push c (fields .bare r)

theorem push_snd (c : Char) (p : List (List Char) × List Char) : (push c p).2 = p.2 := by
  obtain ⟨_ | _, _⟩ := p <;> rfl

theorem length_fields_snd (m : Mode) (cs : List Char) : (fields m cs).2.length ≤ cs.length := by
  fun_induction fields m cs <;> simp_all [push_snd] <;> omega

def records (line : Nat) (cs : List Char) : List Record :=
  match _h : cs.dropWhile isLineEnd with
  | [] => []
  | c :: r =>
    let record := fields .start (c :: r)
    let rest := record.2.drop 1
    ⟨line, record.1.map .ofList⟩ :: records (line + (cs.count '\n' - rest.count '\n')) rest
termination_by cs.length
decreasing_by
  have h₁ : (cs.dropWhile isLineEnd).length ≤ cs.length := (List.dropWhile_suffix _).length_le
  have h₂ := length_fields_snd .start (c :: r)
  simp only [_h, List.length_cons] at h₁ h₂
  simp only [List.length_drop]
  omega

def parse (text : List Char) : List Record :=
  match text with
  | '\uFEFF' :: cs => records 1 cs
  | cs => records 1 cs

end Phrasebook.Csv
