import Phrasebook.Proofs.Blank
import Phrasebook.Proofs.Choice
import Phrasebook.Proofs.Respelling

namespace Phrasebook.Language

theorem comparable_eq {s : String} (h : ∀ c ∈ s.toList, Text.isBlank c = false) :
    comparable s = .ofList (fold s.toList) := by
  rw [comparable, Text.trim_eq_self h, Text.lowerAscii, String.toList_ofList, List.map_map]
  rfl

theorem mem_subtags {c : Char} {cs : List Char} (h : c ∈ cs) :
    isSeparator c = true ∨ ∃ part ∈ subtags cs, c ∈ part := by
  induction cs with
  | nil => cases h
  | cons d cs ih =>
    obtain ⟨part, parts, hparts⟩ := exists_subtags_eq_cons cs
    rw [hparts] at ih
    rw [subtags_cons, hparts]
    split
    · next hd =>
      rcases List.mem_cons.1 h with rfl | h
      · exact .inl hd
      · exact (ih h).imp_right fun ⟨p, hp, hc⟩ => ⟨p, List.mem_cons_of_mem _ hp, hc⟩
    · next hd =>
      rcases List.mem_cons.1 h with rfl | h
      · exact .inr ⟨_, List.mem_cons_self, List.mem_cons_self⟩
      · refine (ih h).imp_right fun ⟨p, hp, hc⟩ => ?_
        rcases List.mem_cons.1 hp with rfl | hp
        · exact ⟨_, List.mem_cons_self, List.mem_cons_of_mem d hc⟩
        · exact ⟨p, List.mem_cons_of_mem _ hp, hc⟩

theorem isBlank_of_isSeparator {c : Char} (h : isSeparator c = true) : Text.isBlank c = false := by
  simp only [isSeparator, Bool.or_eq_true, decide_eq_true_eq] at h
  rcases h with rfl | rfl <;> decide

theorem not_blank_of_subtags {s : String} (h : ∀ part ∈ subtags s.toList, IsAlphanums part) :
    ∀ c ∈ s.toList, Text.isBlank c = false := by
  intro c hc
  rcases mem_subtags hc with hsep | ⟨part, hpart, hc⟩
  · exact isBlank_of_isSeparator hsep
  · exact Text.isBlank_of_isAlphanum (h part hpart c hc)

theorem comparable_of_canonical? {s c : String} (h : canonical? s = some c) :
    comparable s = .ofList (fold s.toList) := by
  obtain ⟨t, language, script, region, hof, -⟩ := exists_of_canonical? h
  exact comparable_eq (not_blank_of_subtags hof.isAlphanums)

theorem comparable_canonical {s c : String} (h : canonical? s = some c) :
    comparable c = .ofList (fold c.toList) := by
  apply comparable_eq
  intro x hx
  have htag := isTagChar_canonical? h x hx
  simp only [isTagChar, Bool.or_eq_true, decide_eq_true_eq] at htag
  rcases htag with hx | rfl
  · exact Text.isBlank_of_isAlphanum hx
  · rfl

theorem ne_hyphen {part : List Char} (h : IsAlphanums part) :
    ∀ c ∈ part, decide (c ≠ '-') = true := by
  intro c hc
  rw [decide_eq_true_eq]
  rintro rfl
  exact absurd (h _ hc) (by decide)

theorem primary_intercalate {part : List Char} (h : IsAlphanums part) (parts : List (List Char)) :
    primary (.ofList (['-'].intercalate (part :: parts))) = .ofList part := by
  rw [primary, String.toList_ofList]
  congr 1
  cases parts with
  | nil =>
    rw [List.intercalate_singleton]
    exact List.takeWhile_eq_self_iff.2 (ne_hyphen h)
  | cons next parts =>
    rw [List.intercalate_cons_cons, List.append_assoc, List.takeWhile_append_of_pos (ne_hyphen h)]
    exact List.append_nil part

theorem primary_fold {cs part : List Char} {parts : List (List Char)}
    (hparts : subtags cs = part :: parts) (h : IsAlphanums part) :
    primary (.ofList (fold cs)) = .ofList (lower part) := by
  rw [fold_eq_intercalate, hparts, List.map_cons]
  exact primary_intercalate (isAlphanums_lower h) _

theorem exists_primary {s c : String} (h : canonical? s = some c) : ∃ language parts,
    subtags c.toList = language :: parts ∧ c.toList = ['-'].intercalate (language :: parts) ∧
      IsAlphanums language ∧ lower language = language ∧ primary c = .ofList language ∧
        primary (comparable s) = .ofList language ∧ primary (comparable c) = .ofList language := by
  obtain ⟨t, language, script, region, hof, hrender, hsubtags⟩ := exists_of_canonical? h
  have hlanguage : IsAlphanums language := isAlphanums_of_isLanguage hof.of_language
  have hlower : t.language = lower language := by rw [hof.eq]
  have hparts : t.parts = lower language :: t.parts.tail := by rw [← hlower]; rfl
  rw [Tag.render, hparts] at hrender
  rw [hparts] at hsubtags
  refine ⟨lower language, t.parts.tail, hsubtags, hrender, isAlphanums_lower hlanguage,
    lower_lower language, ?_, ?_, ?_⟩
  · rw [← primary_intercalate (isAlphanums_lower hlanguage) t.parts.tail, ← hrender,
      String.ofList_toList]
  · rw [comparable_of_canonical? h, primary_fold hof.subtags hlanguage]
  · rw [comparable_canonical h, primary_fold hsubtags (isAlphanums_lower hlanguage), lower_lower]

theorem primary_comparable {s c : String} (h : canonical? s = some c) :
    primary (comparable c) = primary c := by
  obtain ⟨language, parts, -, -, -, -, hc, -, hcomparable⟩ := exists_primary h
  rw [hc, hcomparable]

theorem primary_of_canonical? {s c : String} (h : canonical? s = some c) :
    primary (comparable s) = primary c := by
  obtain ⟨language, parts, -, -, -, -, hc, hs, -⟩ := exists_primary h
  rw [hc, hs]

theorem fold_of_lower {cs : List Char} (h : IsAlphanums cs) (hlower : lower cs = cs) :
    fold cs = cs := by
  refine Eq.trans (List.map_congr_left ?_) hlower
  intro c hc
  exact foldChar_of_not_isSeparator (isSeparator_of_isAlphanum (h c hc))

/-- Of the canonical forms only the bare primary language compares as one. -/
theorem comparable_eq_primary_iff {r a s c : String} (ha : canonical? r = some a)
    (hc : canonical? s = some c) : comparable a = primary c ↔ a = primary c := by
  obtain ⟨language, -, -, -, hlanguage, hlower, hprimary, -⟩ := exists_primary hc
  obtain ⟨language', parts', hsubtags, hlist, -, hlower', -⟩ := exists_primary ha
  rw [comparable_canonical ha, hprimary]
  constructor
  · intro heq
    have hfold : fold a.toList = language := String.ofList_injective heq
    have hsplit : (subtags a.toList).map lower = [language] := by
      rw [← subtags_fold, hfold]
      exact List.splitOnP_eq_singleton fun x hx => isSeparator_of_isAlphanum (hlanguage x hx)
    rw [hsubtags, List.map_cons, List.cons.injEq, List.map_eq_nil_iff, hlower'] at hsplit
    obtain ⟨rfl, rfl⟩ := hsplit
    rw [List.intercalate_singleton] at hlist
    rw [← hlist, String.ofList_toList]
  · rintro rfl
    rw [String.toList_ofList, fold_of_lower hlanguage hlower]

theorem findIdx?_congr {α : Type} {p q : α → Bool} {l : List α} (h : ∀ a ∈ l, p a = q a) :
    l.findIdx? p = l.findIdx? q := by
  induction l with
  | nil => rfl
  | cons a l ih =>
    rw [List.findIdx?_cons, List.findIdx?_cons, h a List.mem_cons_self,
      ih fun b hb => h b (List.mem_cons_of_mem a hb)]

section

variable {tag code : String} {available : List String} (htag : canonical? tag = some code)
  (havailable : ∀ a ∈ available, ∃ s, canonical? s = some a)

include htag

theorem comparable_eq_of_inOrder (horder : InOrder tag) : comparable tag = comparable code := by
  rw [comparable_of_canonical? htag, comparable_canonical htag, fold_eq_of_inOrder htag horder]

theorem position_comparable (hcode : code ∈ available)
    (hself : ∀ a ∈ available, canonical? a = some a) :
    position (comparable code) available = available.idxOf? code := by
  apply findIdx?_congr
  intro a ha
  rw [Bool.eq_iff_iff, beq_iff_eq, beq_iff_eq]
  constructor
  · intro heq
    rw [comparable_canonical (hself a ha), comparable_canonical htag] at heq
    have hsame := canonical?_congr (String.ofList_injective heq)
    rw [hself a ha, hself code hcode] at hsame
    exact Option.some.inj hsame
  · rintro rfl
    rfl

include havailable

theorem comparable_ne_of_not_inOrder (horder : ¬InOrder tag) :
    ∀ a ∈ available, comparable a ≠ comparable tag := by
  intro a ha heq
  obtain ⟨s, hs⟩ := havailable a ha
  rw [comparable_canonical hs, comparable_of_canonical? htag] at heq
  exact horder (inOrder_of_fold_eq hs (String.ofList_injective heq))

theorem position_primary : position (primary code) available = available.idxOf? (primary code) := by
  apply findIdx?_congr
  intro a ha
  obtain ⟨s, hs⟩ := havailable a ha
  rw [Bool.eq_iff_iff, beq_iff_eq, beq_iff_eq]
  exact comparable_eq_primary_iff hs htag

/-- A request that spells a canonical form among the available ones finds it, if its variants are in
order. If they are not, it equals none of the codes and is served with its bare primary language or
else with the first code of that. -/
theorem choose_of_spelling (hcode : code ∈ available) (fallback : String) :
    (InOrder tag → choose tag available fallback = position (comparable code) available ∧
      ((∀ a ∈ available, canonical? a = some a) →
        choose tag available fallback = available.idxOf? code)) ∧
    (¬InOrder tag → (∀ a ∈ available, comparable a ≠ comparable tag) ∧
      choose tag available fallback = (available.idxOf? (primary code) <|>
        available.findIdx? fun a => primary a = primary code)) := by
  constructor
  · intro horder
    have hchoose : choose tag available fallback = position (comparable code) available := by
      obtain ⟨i, hi⟩ : ∃ i, position (comparable code) available = some i :=
        Option.isSome_iff_exists.1 (exists_findIdx?_of_mem hcode (by simp))
      rw [choose, comparable_eq_of_inOrder htag horder, hi]
      rfl
    exact ⟨hchoose, fun hself => hchoose.trans (position_comparable htag hcode hself)⟩
  · intro horder
    have hne := comparable_ne_of_not_inOrder htag havailable horder
    have hposition : position (comparable tag) available = none :=
      List.findIdx?_eq_none_iff.2 fun a ha => beq_eq_false_iff_ne.2 (hne a ha)
    have hprimary : (available.findIdx? fun a => primary (comparable a) == primary code) =
        available.findIdx? fun a => primary a = primary code := by
      apply findIdx?_congr
      intro a ha
      obtain ⟨s, hs⟩ := havailable a ha
      rw [primary_comparable hs, beq_eq_decide]
    obtain ⟨i, hi⟩ : ∃ i, (available.findIdx? fun a => primary a = primary code) = some i :=
      Option.isSome_iff_exists.1 (exists_findIdx?_of_mem hcode (by simp))
    refine ⟨hne, ?_⟩
    rw [choose, hposition, primary_of_canonical? htag, position_primary htag havailable, hprimary,
      hi]
    cases available.idxOf? (primary code) <;> rfl

end

theorem choose_of_spelling_samples :
    canonical? "ZH_hant-tw" = some "zh-Hant-TW" ∧ InOrder "ZH_hant-tw" ∧
      choose "ZH_hant-tw" ["zh", "zh-Hant-TW"] "en" = some 1 ∧
      canonical? "sl-rozaj-biske" = some "sl-biske-rozaj" ∧ ¬InOrder "sl-rozaj-biske" ∧
      comparable "sl-biske-rozaj" ≠ comparable "sl-rozaj-biske" ∧
      choose "sl-rozaj-biske" ["sl-IT", "sl-biske-rozaj"] "en" = some 0 := by
  have hchinese : canonical? "ZH_hant-tw" = some "zh-Hant-TW" := by decide +kernel
  have hslovene : canonical? "sl-rozaj-biske" = some "sl-biske-rozaj" := by decide +kernel
  have hinOrder : InOrder "ZH_hant-tw" := by decide +kernel
  have hnot : ¬InOrder "sl-rozaj-biske" := by decide +kernel
  have hself : ∀ a ∈ ["zh", "zh-Hant-TW"], canonical? a = some a := by decide +kernel
  have hself' : ∀ a ∈ ["sl-IT", "sl-biske-rozaj"], canonical? a = some a := by decide +kernel
  have hown := ((choose_of_spelling hchinese (fun a ha => ⟨a, hself a ha⟩) (by decide) "en").1
    hinOrder).2 hself
  have hother := (choose_of_spelling hslovene (fun a ha => ⟨a, hself' a ha⟩) (by decide) "en").2
    hnot
  refine ⟨hchinese, hinOrder, hown.trans ?_, hslovene, hnot, hother.1 _ (by decide),
    hother.2.trans ?_⟩ <;> decide +kernel

theorem exists_spelling_not_served : ¬∀ (tag code : String) (available : List String)
    (fallback : String), canonical? tag = some code → code ∈ available →
      (∀ a ∈ available, canonical? a = some a) →
        choose tag available fallback = available.idxOf? code := by
  intro h
  have hchoose := h "sl-rozaj-biske" "sl-biske-rozaj" ["sl", "sl-biske-rozaj"] "sl"
    (by decide +kernel) (by decide) (by decide +kernel)
  revert hchoose
  decide +kernel

end Phrasebook.Language
