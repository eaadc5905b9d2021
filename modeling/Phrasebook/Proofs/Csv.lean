import Phrasebook.Csv.Spelling

namespace Phrasebook.Csv

def AtEnd (cs : List Char) : Prop := ∀ c ∈ cs.head?, c = ',' ∨ isLineEnd c = true

theorem not_special_iff {c : Char} :
    isSpecial c = false ↔ c ≠ ',' ∧ c ≠ '"' ∧ isLineEnd c = false := by
  simp [isSpecial, and_assoc]

theorem fields_atEnd {m : Mode} (hm : m ≠ .quoted) {cs : List Char} (h : AtEnd cs) :
    fields m cs = fields .start cs := by
  cases cs with
  | nil =>
    unfold fields
    rfl
  | cons c cs =>
    have hquote : c ≠ '"' := by
      rintro rfl
      exact absurd (h '"' rfl) (by decide)
    have hnext : c = ',' ∨ isLineEnd c = true := h c rfl
    cases m with
    | quoted => exact absurd rfl hm
    | start => rfl
    | bare | afterQuote =>
      rcases hnext with rfl | hnext
      · simp [fields]
      · simp [fields, hquote, hnext]

theorem foldr_push (cs f : List Char) (fs : List (List Char)) (r : List Char) :
    cs.foldr push (f :: fs, r) = ((cs ++ f) :: fs, r) := by
  induction cs with
  | nil => rfl
  | cons c cs ih => rw [List.foldr_cons, ih, push, List.cons_append]

theorem fields_bare {cs : List Char} (h : ∀ c ∈ cs, isSpecial c = false) {r : List Char}
    (hr : AtEnd r) {m : Mode} (hm : m = .start ∨ m = .bare) :
    fields m (cs ++ r) = cs.foldr push (fields .start r) := by
  induction cs generalizing m with
  | nil =>
    refine fields_atEnd ?_ hr
    rcases hm with rfl | rfl <;> decide
  | cons c cs ih =>
    obtain ⟨hcomma, hquote, hline⟩ := not_special_iff.1 (h c List.mem_cons_self)
    have hstep : fields m (c :: (cs ++ r)) = push c (fields .bare (cs ++ r)) := by
      rcases hm with rfl | rfl <;> simp [fields, hcomma, hquote, hline]
    rw [List.cons_append, hstep, ih (fun d hd => h d (List.mem_cons_of_mem c hd)) (.inr rfl)]
    rfl

theorem fields_quoted (cs r : List Char) :
    fields .quoted (cs.flatMap doubleQuote ++ '"' :: r) =
      cs.foldr push (fields .afterQuote r) := by
  induction cs with
  | nil => rfl
  | cons c cs ih =>
    rw [List.flatMap_cons, List.append_assoc, List.foldr_cons, ← ih]
    by_cases hquote : c = '"'
    · subst hquote
      rfl
    · simp [doubleQuote, fields, hquote]

/-- However a field is spelled, its text is read, and the reader goes on as at its start. -/
theorem fields_field {cs t : List Char} (h : FieldSpelling cs t) {r : List Char} (hr : AtEnd r) :
    fields .start (t ++ r) = cs.foldr push (fields .start r) := by
  cases h with
  | bare hbare => exact fields_bare hbare hr (.inl rfl)
  | quoted =>
    rw [List.cons_append, List.cons_append, List.append_assoc, List.singleton_append]
    have hopen (cs : List Char) : fields .start ('"' :: cs) = fields .quoted cs := by
      simp [fields]
    rw [hopen, fields_quoted, fields_atEnd (by decide) hr]

theorem fields_pair {p : List Char × List Char} {t : List Char} (h : PairSpelling p t)
    {r : List Char} (hr : ∀ c ∈ r.head?, isLineEnd c = true) :
    fields .start (t ++ r) = ([p.1, p.2], r) := by
  obtain ⟨hk, hv⟩ := h
  next k v a b =>
  have hend : fields .start r = ([[]], r) := by
    cases r with
    | nil => rfl
    | cons c r =>
      have hline : isLineEnd c = true := hr c rfl
      have hquote : c ≠ '"' := by
        rintro rfl
        exact absurd hline (by decide)
      have hcomma : c ≠ ',' := by
        rintro rfl
        exact absurd hline (by decide)
      simp [fields, hquote, hcomma, hline]
  have hvalue : fields .start (b ++ r) = ([v], r) := by
    rw [fields_field hv fun c hc => .inr (hr c hc), hend, foldr_push, List.append_nil]
  have hcomma : fields .start (',' :: (b ++ r)) = ([[], v], r) := by
    simp [fields, hvalue]
  rw [List.append_assoc, List.cons_append, fields_field hk (by simp [AtEnd]), hcomma, foldr_push,
    List.append_nil]

theorem head_pair {p : List Char × List Char} {t : List Char} (h : PairSpelling p t)
    (hkey : p.1 ≠ []) : ∃ c r, t = c :: r ∧ isLineEnd c = false := by
  obtain ⟨hk, hv⟩ := h
  next k v a b =>
  cases hk with
  | quoted => exact ⟨'"', _, rfl, by decide⟩
  | bare hbare =>
    obtain ⟨c, cs, rfl⟩ := List.exists_cons_of_ne_nil hkey
    exact ⟨c, _, rfl, (not_special_iff.1 (hbare c List.mem_cons_self)).2.2⟩

theorem records_of_dropWhile_eq_nil (line : Nat) {cs : List Char}
    (h : cs.dropWhile isLineEnd = []) : records line cs = [] := by
  rw [records]
  split
  · rfl
  · next heq => cases h.symm.trans heq

theorem records_of_dropWhile_eq_cons (line : Nat) {cs : List Char} {c : Char} {r : List Char}
    (h : cs.dropWhile isLineEnd = c :: r) : ∃ next, records line cs =
      ⟨line, (fields .start (c :: r)).1.map .ofList⟩ ::
        records next ((fields .start (c :: r)).2.drop 1) := by
  refine ⟨line + (cs.count '\n' - ((fields .start (c :: r)).2.drop 1).count '\n'), ?_⟩
  rw [records]
  split
  · next heq => cases h.symm.trans heq
  · next heq =>
    cases h.symm.trans heq
    rfl

theorem fields_records_line (line line' : Nat) (cs : List Char) :
    (records line cs).map (·.fields) = (records line' cs).map (·.fields) := by
  fun_induction records line cs generalizing line' with
  | case1 line cs h => rw [records_of_dropWhile_eq_nil line' h]
  | case2 line cs c r h record rest ih =>
    obtain ⟨next, hnext⟩ := records_of_dropWhile_eq_cons line' h
    rw [hnext, List.map_cons, List.map_cons, ih next]

theorem fields_records_lineEnd (line : Nat) {c : Char} (h : isLineEnd c = true) (cs : List Char) :
    (records line (c :: cs)).map (·.fields) = (records line cs).map (·.fields) := by
  have hdrop : (c :: cs).dropWhile isLineEnd = cs.dropWhile isLineEnd :=
    List.dropWhile_cons_of_pos h
  cases hcs : cs.dropWhile isLineEnd with
  | nil =>
    rw [records_of_dropWhile_eq_nil line hcs,
      records_of_dropWhile_eq_nil line (hdrop.trans hcs)]
  | cons d r =>
    obtain ⟨n, hn⟩ := records_of_dropWhile_eq_cons line hcs
    obtain ⟨m, hm⟩ := records_of_dropWhile_eq_cons line (hdrop.trans hcs)
    rw [hn, hm, List.map_cons, List.map_cons, fields_records_line]

theorem records_pair (line : Nat) {p : List Char × List Char} {t : List Char}
    (h : PairSpelling p t) (hkey : p.1 ≠ []) {r : List Char}
    (hr : ∀ c ∈ r.head?, isLineEnd c = true) : ∃ next,
      records line (t ++ r) = ⟨line, [.ofList p.1, .ofList p.2]⟩ :: records next (r.drop 1) := by
  have hfields := fields_pair h hr
  obtain ⟨c, cs, rfl, hline⟩ := head_pair h hkey
  rw [List.cons_append] at hfields ⊢
  have hdrop : (c :: (cs ++ r)).dropWhile isLineEnd = c :: (cs ++ r) :=
    List.dropWhile_cons_of_neg (by simp [hline])
  obtain ⟨next, hnext⟩ := records_of_dropWhile_eq_cons line hdrop
  refine ⟨next, ?_⟩
  rw [hnext, hfields]
  rfl

/-- The line feed behind a carriage return is taken for a blank line. -/
theorem fields_records_drop_one (line : Nat) {e : List Char} (h : LineEnd e) (u : List Char) :
    (records line ((e ++ u).drop 1)).map (·.fields) = (records line u).map (·.fields) := by
  cases h with
  | feed => rfl
  | returnFeed => exact fields_records_lineEnd line rfl u

theorem fields_records {ps : List (List Char × List Char)} {t : List Char} (h : Spelling ps t)
    (hkeys : ∀ p ∈ ps, p.1 ≠ []) (line : Nat) :
    (records line t).map (·.fields) = ps.map fun p => [.ofList p.1, .ofList p.2] := by
  induction h generalizing line with
  | nil =>
    rw [records_of_dropWhile_eq_nil line rfl]
    rfl
  | @last p t hp =>
    obtain ⟨next, hnext⟩ := records_pair line hp (hkeys p List.mem_cons_self) (r := []) (by simp)
    rw [List.append_nil, List.drop_nil, records_of_dropWhile_eq_nil next rfl] at hnext
    rw [hnext]
    rfl
  | @cons p ps t e u hp he _ ih =>
    have hend : ∀ c ∈ (e ++ u).head?, isLineEnd c = true := by
      intro c hc
      cases he <;> cases hc <;> rfl
    obtain ⟨next, hnext⟩ := records_pair line hp (hkeys p List.mem_cons_self) hend
    rw [List.append_assoc, hnext, List.map_cons, List.map_cons, fields_records_drop_one next he,
      ih (fun q hq => hkeys q (List.mem_cons_of_mem p hq))]

theorem fields_parse {ps : List (List Char × List Char)} {t : List Char} (h : Spelling ps t)
    (hkeys : ∀ p ∈ ps, p.1 ≠ []) (hmark : t.head? ≠ some '\uFEFF') :
    (parse t).map (·.fields) = ps.map fun p => [.ofList p.1, .ofList p.2] := by
  unfold parse
  split
  · exact absurd rfl hmark
  · exact fields_records h hkeys 1

end Phrasebook.Csv
