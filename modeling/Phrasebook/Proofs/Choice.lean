import Phrasebook.Language.Choice

namespace Phrasebook.Language

theorem exists_findIdx?_of_mem {α : Type} {p : α → Bool} {l : List α} {a : α} (ha : a ∈ l)
    (hp : p a = true) : (l.findIdx? p).isSome = true := by
  rw [List.findIdx?_isSome]
  exact List.any_eq_true.2 ⟨a, ha, hp⟩

theorem position_lt {wanted : String} {available : List String} {i : Nat}
    (h : position wanted available = some i) : i < available.length :=
  (List.findIdx?_eq_some_iff_getElem.1 h).1

theorem choose_eq_some {fallback : String} {available : List String} (h : fallback ∈ available)
    (requested : String) :
    ∃ i, choose requested available fallback = some i ∧ i < available.length := by
  have hfallback : (position (comparable fallback) available).isSome = true :=
    exists_findIdx?_of_mem h (by simp)
  obtain ⟨i, hi⟩ : ∃ i, choose requested available fallback = some i := by
    rw [← Option.isSome_iff_exists, choose]
    simp [hfallback]
  refine ⟨i, hi, ?_⟩
  simp only [choose, Option.orElse_eq_orElse, Option.or_eq_some_iff, Option.orElse_eq_or] at hi
  rcases hi with hi | ⟨-, hi | ⟨-, hi | ⟨-, hi⟩⟩⟩
  · exact position_lt hi
  · exact position_lt hi
  · exact (List.findIdx?_eq_some_iff_getElem.1 hi).1
  · exact position_lt hi

end Phrasebook.Language
