import Mathlib.Data.List.Basic
import Phrasebook.SourceUnit.Reader
import Phrasebook.Proofs.Quoted

namespace Phrasebook.SourceUnit

def OneLine (s : String) : Prop := '\n' ∉ s.toList

instance (s : String) : Decidable (OneLine s) := inferInstanceAs (Decidable (¬_))

theorem oneLine_append {s t : String} (hs : OneLine s) (ht : OneLine t) : OneLine (s ++ t) := by
  unfold OneLine
  rw [String.toList_append, List.mem_append]
  rintro (h | h)
  · exact hs h
  · exact ht h

theorem oneLine_quote (s : String) : OneLine (Text.quote s) := Text.newline_not_mem_quote s

theorem lines_append (ls₁ ls₂ : List String) : lines (ls₁ ++ ls₂) = lines ls₁ ++ lines ls₂ := by
  simp [lines]

def brokenLines (ls : List String) : List (List Char) := ls.flatMap (·.toList.splitOn '\n')

theorem brokenLines_append (ls₁ ls₂ : List String) :
    brokenLines (ls₁ ++ ls₂) = brokenLines ls₁ ++ brokenLines ls₂ := List.flatMap_append

theorem brokenLines_of_oneLine {ls : List String} (h : ∀ l ∈ ls, OneLine l) :
    brokenLines ls = ls.map String.toList := by
  induction ls with
  | nil => rfl
  | cons l ls ih =>
    rw [brokenLines, List.flatMap_cons, List.splitOn_eq_singleton (h l List.mem_cons_self)]
    exact congrArg _ (ih fun l' hl' => h l' (List.mem_cons_of_mem l hl'))

theorem splitOn_lines_eq (ls : List String) :
    (lines ls).toList.splitOn '\n' = brokenLines (ls ++ [""]) := by
  induction ls with
  | nil => rfl
  | cons l ls ih =>
    have hcons : (lines (l :: ls)).toList = l.toList ++ '\n' :: (lines ls).toList := by
      simp [lines, String.toList_join]
    rw [hcons, List.splitOn_append_cons_self, ih]
    rfl

theorem splitOn_lines {ls : List String} (h : ∀ l ∈ ls, OneLine l) :
    (lines ls).toList.splitOn '\n' = ls.map String.toList ++ [[]] := by
  rw [splitOn_lines_eq, brokenLines_append, brokenLines_of_oneLine h]
  rfl

def Apart (s t : String) : Prop := ¬s.toList <+: t.toList ∧ ¬t.toList <+: s.toList

instance (s t : String) : Decidable (Apart s t) := inferInstanceAs (Decidable (_ ∧ _))

def Opens (heads : List String) (l : String) : Prop := ∃ head ∈ heads, head.toList <+: l.toList

instance (heads : List String) (l : String) : Decidable (Opens heads l) :=
  inferInstanceAs (Decidable (∃ head ∈ heads, _))

theorem Opens.append {heads : List String} {l : String} (h : Opens heads l) (rest : String) :
    Opens heads (l ++ rest) := by
  obtain ⟨head, hhead, hprefix⟩ := h
  refine ⟨head, hhead, ?_⟩
  rw [String.toList_append]
  exact hprefix.trans (List.prefix_append _ _)

structure Plain (heads : List String) (l : String) : Prop where
  oneLine : OneLine l
  opens : l = "" ∨ Opens heads l

theorem Plain.literal {heads : List String} {l : String}
    (h : OneLine l ∧ (l = "" ∨ Opens heads l)) : Plain heads l := ⟨h.1, h.2⟩

theorem Plain.mono {heads heads' : List String} {l : String} (h : Plain heads l)
    (hsub : heads ⊆ heads') : Plain heads' l where
  oneLine := h.oneLine
  opens := h.opens.imp_right fun ⟨head, hhead, hprefix⟩ => ⟨head, hsub hhead, hprefix⟩

theorem Plain.before {heads : List String} {a s : String} (ha : OneLine a ∧ Opens heads a)
    (hs : OneLine s) : Plain heads (a ++ s) := ⟨oneLine_append ha.1 hs, .inr (ha.2.append s)⟩

theorem Plain.around {heads : List String} {a s b : String} (ha : OneLine a ∧ Opens heads a)
    (hs : OneLine s) (hb : OneLine b) : Plain heads (a ++ s ++ b) :=
  .before ⟨oneLine_append ha.1 hs, ha.2.append s⟩ hb

theorem Plain.of_forall₂ {heads ls : List String}
    (h : List.Forall₂ (fun head l => Plain [head] l) heads ls) : ∀ l ∈ ls, Plain heads l := by
  induction h with
  | nil => exact fun l hl => absurd hl List.not_mem_nil
  | cons hl _ ih =>
    intro l' hl'
    rcases List.mem_cons.1 hl' with rfl | hl'
    · exact hl.mono (List.cons_subset_cons _ (List.nil_subset _))
    · exact (ih l' hl').mono (List.subset_cons_self _ _)

/-- A text that is not the beginning of any line with one of the heads. -/
structure Foreign (start : String) (heads : List String) : Prop where
  ne_empty : start ≠ ""
  apart : ∀ head ∈ heads, Apart start head

instance (start : String) (heads : List String) : Decidable (Foreign start heads) :=
  decidable_of_iff (start ≠ "" ∧ ∀ head ∈ heads, Apart start head)
    ⟨fun h => ⟨h.1, h.2⟩, fun h => ⟨h.1, h.2⟩⟩

theorem Foreign.not_prefix {start : String} {heads : List String} (h : Foreign start heads)
    {l : String} (hl : l = "" ∨ Opens heads l) : ¬start.toList <+: l.toList := by
  intro hprefix
  rcases hl with rfl | ⟨head, hhead, hline⟩
  · exact h.ne_empty (String.toList_eq_nil_iff.1 (List.prefix_nil.1 hprefix))
  · obtain ⟨h₁, h₂⟩ := h.apart head hhead
    rcases List.prefix_or_prefix_of_prefix hprefix hline with h | h
    · exact h₁ h
    · exact h₂ h

theorem Foreign.not_mem {start : String} {heads ls : List String} (h : Foreign start heads)
    (hls : ∀ l ∈ ls, Plain heads l) : start ∉ ls := fun hmem =>
  h.not_prefix (hls start hmem).opens List.prefix_rfl

theorem isPrefixOf?_eq_none {a b : List Char} (h : ¬a <+: b) : a.isPrefixOf? b = none := by
  cases hab : a.isPrefixOf? b with
  | none => rfl
  | some r => exact absurd ⟨r, List.isPrefixOf?_eq_some_iff_append_eq.1 hab⟩ h

theorem after?_append {start : String} {before : List String}
    (hbefore : ∀ l ∈ before, ¬start.toList <+: l.toList) (ls : List (List Char)) :
    after? start (before.map String.toList ++ ls) = after? start ls := by
  have hnone : after? start (before.map String.toList) = none := by
    apply List.findSome?_eq_none_iff.2
    intro cs hcs
    obtain ⟨l, hl, rfl⟩ := List.mem_map.1 hcs
    exact isPrefixOf?_eq_none (hbefore l hl)
  rw [after?, List.findSome?_append]
  unfold after? at hnone
  rw [hnone]
  rfl

theorem after?_cons (start rest : String) (ls : List (List Char)) :
    after? start ((start ++ rest).toList :: ls) = some rest.toList := by
  rw [after?, List.findSome?_cons, String.toList_append,
    List.isPrefixOf?_eq_some_iff_append_eq.2 rfl]

theorem after?_eq_some {start : String} {before : List String}
    (hbefore : ∀ l ∈ before, ¬start.toList <+: l.toList) (rest : String) (ls : List String)
    (tail : List (List Char)) :
    after? start ((before ++ (start ++ rest) :: ls).map String.toList ++ tail) =
      some rest.toList := by
  rw [List.map_append, List.append_assoc, after?_append hbefore]
  exact after?_cons start rest _

section

variable {α : Type} [DecidableEq α] {a : α} {xs : List α}

theorem takeWhile_append_mark (h : a ∉ xs) (ys : List α) :
    (xs ++ a :: ys).takeWhile (· ≠ a) = xs := by
  rw [List.takeWhile_append_of_pos fun x hx => decide_eq_true (ne_of_mem_of_not_mem hx h),
    List.takeWhile_cons_of_neg (by simp), List.append_nil]

theorem dropWhile_append_mark (h : a ∉ xs) (ys : List α) :
    (xs ++ a :: ys).dropWhile (· ≠ a) = a :: ys := by
  rw [List.dropWhile_append_of_pos fun x hx => decide_eq_true (ne_of_mem_of_not_mem hx h),
    List.dropWhile_cons_of_neg (by simp)]

end

theorem between_append {first last : String} {before inside : List String}
    (hfirst : first ∉ before) (hlast : last ∉ inside) (ls : List String)
    (tail : List (List Char)) :
    between first last ((before ++ first :: (inside ++ last :: ls)).map String.toList ++ tail) =
      inside.map String.toList := by
  have hmap {l : String} {ls : List String} (h : l ∉ ls) : l.toList ∉ ls.map String.toList :=
    (List.mem_map_of_injective fun _ _ => String.toList_injective).not.2 h
  simp only [List.map_append, List.map_cons, List.append_assoc, List.cons_append]
  rw [between, dropWhile_append_mark (hmap hfirst), List.drop_one, List.tail_cons,
    takeWhile_append_mark (hmap hlast)]

theorem toList_literals_cons (s : String) (ss : List String) :
    (literals (s :: ss)).toList =
      (Text.quote s).toList ++ match ss with
        | [] => []
        | _ :: _ => ',' :: ' ' :: (literals ss).toList := by
  cases ss <;> simp [literals, String.intercalate_cons_cons]

theorem readLiterals_literals (s : String) (ss : List String) {r : List Char}
    (hr : ∀ r', r ≠ ',' :: ' ' :: r') :
    readLiterals ((literals (s :: ss)).toList ++ r) = some (s :: ss, r) := by
  induction ss generalizing s with
  | nil =>
    rw [toList_literals_cons, List.append_nil]
    unfold readLiterals
    split
    · next h =>
      rw [Text.readQuoted_quote] at h
      cases h
    · next r' h =>
      rw [Text.readQuoted_quote] at h
      cases h
      exact absurd rfl (hr r')
    · next h =>
      rw [Text.readQuoted_quote] at h
      cases h
      rfl
  | cons t ss ih =>
    rw [toList_literals_cons, List.append_assoc]
    unfold readLiterals
    split
    · next h =>
      rw [Text.readQuoted_quote] at h
      cases h
    · next h =>
      rw [Text.readQuoted_quote] at h
      cases h
      exact congrArg (Option.map fun p => (s :: p.1, p.2)) (ih t)
    · next hne h =>
      rw [Text.readQuoted_quote] at h
      cases h
      exact absurd rfl (hne _)

theorem readList?_literals (ending : String) (ss : List String) :
    readList? ending ('[' :: ((literals ss).toList ++ ']' :: ending.toList)) = some ss := by
  cases ss with
  | nil => exact if_pos rfl
  | cons s ss =>
    have hread := readLiterals_literals s ss (r := ']' :: ending.toList) (by simp)
    obtain ⟨rest, hrest⟩ : ∃ rest, (literals (s :: ss)).toList = '"' :: rest := by
      rw [toList_literals_cons, Text.toList_quote]
      exact ⟨_, rfl⟩
    rw [hrest] at hread ⊢
    unfold readList?
    split
    · next h => cases h
    · next h =>
      cases h
      change (readLiterals _).bind _ = _
      rw [hread]
      exact if_pos rfl
    · next h => exact absurd rfl (h _)

theorem oneLine_literals (ss : List String) : OneLine (literals ss) := by
  induction ss with
  | nil => decide
  | cons s ss ih =>
    unfold OneLine
    rw [toList_literals_cons, List.mem_append]
    rintro (h | h)
    · exact oneLine_quote s h
    · cases ss with
      | nil => cases h
      | cons t ss =>
        rcases List.mem_cons.1 h with h | h
        · cases h
        · rcases List.mem_cons.1 h with h | h
          · cases h
          · exact ih h

end Phrasebook.SourceUnit
