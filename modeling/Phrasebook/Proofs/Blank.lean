import Mathlib.Data.List.TakeWhile
import Phrasebook.Proofs.Tag
import Phrasebook.Text.Blank

namespace Phrasebook.Text

theorem isBlank_of_isAlphanum {c : Char} (h : c.isAlphanum = true) : isBlank c = false := by
  rw [Language.isAlphanum_iff] at h
  simp only [isBlank, Bool.or_eq_false_iff, Bool.and_eq_false_iff, decide_eq_false_iff_not,
    beq_eq_false_iff_ne]
  omega

theorem dropWhile_isBlank {cs : List Char} (h : ∀ c ∈ cs, isBlank c = false) :
    cs.dropWhile isBlank = cs := by
  cases cs with
  | nil => rfl
  | cons c cs => exact List.dropWhile_cons_of_neg (by simp [h c List.mem_cons_self])

theorem trim_eq_self {s : String} (h : ∀ c ∈ s.toList, isBlank c = false) : trim s = s := by
  have hreverse : ∀ c ∈ s.toList.reverse, isBlank c = false := fun c hc =>
    h c (List.mem_reverse.1 hc)
  rw [trim, trimStart, dropWhile_isBlank h, trimEnd, dropWhile_isBlank hreverse,
    List.reverse_reverse, String.ofList_toList]

theorem dropWhile_eq_nil_of_blank {cs : List Char} (h : ∀ c ∈ cs, isBlank c = true) :
    cs.dropWhile isBlank = [] := List.dropWhile_eq_nil_iff.2 h

theorem trim_padded {before behind : List Char} (hbefore : ∀ c ∈ before, isBlank c = true)
    (hbehind : ∀ c ∈ behind, isBlank c = true) (cs : List Char) :
    trimEnd (trimStart (before ++ cs ++ behind)) = trimEnd (trimStart cs) := by
  have hreverse : ∀ c ∈ behind.reverse, isBlank c = true :=
    fun c hc => hbehind c (List.mem_reverse.1 hc)
  rw [trimStart, List.append_assoc, List.dropWhile_append_of_pos hbefore, List.dropWhile_append,
    trimStart]
  split
  · next hempty =>
    rw [dropWhile_eq_nil_of_blank hbehind, List.isEmpty_iff.1 hempty]
  · rw [trimEnd, List.reverse_append, List.dropWhile_append_of_pos hreverse, trimEnd]

theorem exists_padding (cs : List Char) : ∃ before behind,
    cs = before ++ trimEnd (trimStart cs) ++ behind ∧
      (∀ c ∈ before, isBlank c = true) ∧ ∀ c ∈ behind, isBlank c = true := by
  refine ⟨cs.takeWhile isBlank, ((trimStart cs).reverse.takeWhile isBlank).reverse, ?_,
    fun c hc => List.mem_takeWhile_imp hc,
    fun c hc => List.mem_takeWhile_imp (List.mem_reverse.1 hc)⟩
  rw [trimEnd, List.append_assoc, ← List.reverse_append, List.takeWhile_append_dropWhile,
    List.reverse_reverse, trimStart, List.takeWhile_append_dropWhile]

end Phrasebook.Text
