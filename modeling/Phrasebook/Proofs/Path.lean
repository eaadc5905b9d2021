import Mathlib.Data.List.Basic
import Phrasebook.Path

namespace Phrasebook.Path

def lead (p : Path) : List Component :=
  if p.isAbsolute then [.root] else if p.pieces.head? = some [dot] then [.current] else []

def steps (p : Path) : List Component := p.pieces.filterMap Component.ofPiece?

theorem components_eq (p : Path) : p.components = p.lead ++ p.steps := by
  unfold components lead steps
  dsimp only
  split
  · rfl
  · split
    · rfl
    · rfl

theorem isAbsolute_iff {p : Path} : p.isAbsolute = true ↔ p.bytes.head? = some slash := beq_iff_eq

theorem bytes_ne_nil_of_isAbsolute {p : Path} (h : p.isAbsolute = true) : p.bytes ≠ [] := by
  intro hnil
  rw [isAbsolute_iff, hnil] at h
  cases h

section

variable {p q : Path}

theorem join_of_isAbsolute (h : q.isAbsolute = true) : p.join q = q := if_pos (.inl h)

theorem join_of_bytes_eq_nil (h : p.bytes = []) : p.join q = q := if_pos (.inr h)

theorem bytes_join (hq : ¬q.isAbsolute = true) (hp : p.bytes ≠ []) :
    ∃ front, (p.bytes = front ++ [slash] ∨ p.bytes = front) ∧
      (p.join q).bytes = front ++ slash :: q.bytes := by
  have hor : ¬(q.isAbsolute = true ∨ p.bytes = []) := not_or.2 ⟨hq, hp⟩
  unfold join
  rw [if_neg hor]
  split
  · next hlast =>
    obtain ⟨front, hfront⟩ := List.getLast?_eq_some_iff.1 hlast
    refine ⟨front, .inl hfront, ?_⟩
    change p.bytes ++ q.bytes = _
    rw [hfront, List.append_assoc]
    rfl
  · exact ⟨p.bytes, .inr rfl, rfl⟩

theorem isAbsolute_join (hq : ¬q.isAbsolute = true) (hp : p.bytes ≠ []) :
    (p.join q).isAbsolute = p.isAbsolute := by
  obtain ⟨front, hfront, hjoin⟩ := bytes_join hq hp
  unfold isAbsolute
  rw [hjoin]
  rcases hfront with hfront | hfront
  · rw [hfront]
    cases front with
    | nil => rfl
    | cons b front => rfl
  · rw [hfront] at hp ⊢
    cases front with
    | nil => exact absurd rfl hp
    | cons b front => rfl

theorem pieces_join (hq : ¬q.isAbsolute = true) (hp : p.bytes ≠ []) :
    ∃ front : List UInt8,
      (p.pieces = front.splitOn slash ++ [[]] ∨ p.pieces = front.splitOn slash) ∧
      (p.join q).pieces = front.splitOn slash ++ q.pieces := by
  obtain ⟨front, hfront, hjoin⟩ := bytes_join hq hp
  refine ⟨front, ?_, ?_⟩
  · rcases hfront with hfront | hfront
    · left
      rw [pieces, hfront, List.splitOn_append_cons_self]
      rfl
    · right
      rw [pieces, hfront]
  · rw [pieces, hjoin, List.splitOn_append_cons_self]
    rfl

theorem steps_join (hq : ¬q.isAbsolute = true) : (p.join q).steps = p.steps ++ q.steps := by
  by_cases hp : p.bytes = []
  · have hsteps : p.steps = [] := by
      rw [steps, pieces, hp]
      rfl
    rw [join_of_bytes_eq_nil hp, hsteps]
    rfl
  · obtain ⟨front, hfront, hjoin⟩ := pieces_join hq hp
    unfold steps
    rw [hjoin, List.filterMap_append]
    rcases hfront with hfront | hfront
    · rw [hfront, List.filterMap_append]
      exact congrArg (· ++ _) (List.append_nil _).symm
    · rw [hfront]

theorem lead_join (hq : ¬q.isAbsolute = true) (hp : p.bytes ≠ []) : (p.join q).lead = p.lead := by
  have hhead : (p.join q).pieces.head? = p.pieces.head? := by
    obtain ⟨front, hfront, hjoin⟩ := pieces_join hq hp
    obtain ⟨piece, pieces, hcons⟩ := List.exists_cons_of_ne_nil (List.splitOn_ne_nil slash front)
    rw [hjoin, hcons]
    rcases hfront with hfront | hfront
    · rw [hfront, hcons]
      rfl
    · rw [hfront, hcons]
      rfl
  unfold lead
  rw [isAbsolute_join hq hp, hhead]

theorem components_of_bytes_eq_nil (hp : p.bytes = []) : p.components = [] := by
  unfold components isAbsolute pieces
  rw [hp]
  rfl

theorem components_join_steps (hq : ¬q.isAbsolute = true) (hp : p.bytes ≠ []) :
    (p.join q).components = p.components ++ q.steps := by
  rw [components_eq, components_eq, lead_join hq hp, steps_join hq, List.append_assoc]

theorem components_join (hq : ¬q.isAbsolute = true) (hlead : q.lead = []) :
    (p.join q).components = p.components ++ q.components := by
  by_cases hp : p.bytes = []
  · rw [join_of_bytes_eq_nil hp, components_of_bytes_eq_nil hp]
    rfl
  · rw [components_join_steps hq hp, components_eq (p := q), hlead]
    rfl

end

theorem not_mem_of_mem_splitOn {α : Type} [BEq α] [LawfulBEq α] {a : α} {piece : List α}
    {as : List α} (h : piece ∈ as.splitOn a) : a ∉ piece := by
  induction as generalizing piece with
  | nil => exact List.mem_singleton.1 h ▸ List.not_mem_nil
  | cons b as ih =>
    rw [List.splitOn_cons_eq_if_modifyHead] at h
    split at h
    · rcases List.mem_cons.1 h with rfl | h
      · exact List.not_mem_nil
      · exact ih h
    · next hb =>
      obtain ⟨first, rest, hcons⟩ := List.exists_cons_of_ne_nil (List.splitOn_ne_nil a as)
      rw [hcons] at h ih
      rcases List.mem_cons.1 h with rfl | h
      · rw [List.mem_cons, not_or]
        exact ⟨fun hab => hb (beq_iff_eq.2 hab.symm), ih List.mem_cons_self⟩
      · exact ih (List.mem_cons_of_mem first h)

structure IsName (bs : List UInt8) : Prop where
  ne_nil : bs ≠ []
  ne_dot : bs ≠ [dot]
  ne_dots : bs ≠ [dot, dot]
  slash_not_mem : slash ∉ bs

theorem mem_steps {p : Path} {c : Component} (h : c ∈ p.steps) :
    c = .parent ∨ ∃ bs, c = .name bs ∧ IsName bs := by
  obtain ⟨piece, hpiece, hc⟩ := List.mem_filterMap.1 h
  unfold Component.ofPiece? at hc
  split at hc
  · cases hc
  · next hne =>
    split at hc
    · exact .inl (Option.some.inj hc).symm
    · next hdots =>
      obtain ⟨hnil, hdot⟩ := not_or.1 hne
      have hslash := not_mem_of_mem_splitOn hpiece
      exact .inr ⟨piece, (Option.some.inj hc).symm, hnil, hdot, hdots, hslash⟩

theorem mem_lead {p : Path} {c : Component} (h : c ∈ p.lead) : c = .root ∨ c = .current := by
  unfold lead at h
  split at h
  · exact .inl (List.mem_singleton.1 h)
  · split at h
    · exact .inr (List.mem_singleton.1 h)
    · cases h

theorem isName_of_mem_components {p : Path} {bs : List UInt8} (h : .name bs ∈ p.components) :
    IsName bs := by
  rw [components_eq] at h
  rcases List.mem_append.1 h with h | h
  · rcases mem_lead h with h | h <;> cases h
  · rcases mem_steps h with h | ⟨_, heq, hname⟩
    · cases h
    · cases heq
      exact hname

theorem lead_of_names {p : Path} {names : List (List UInt8)}
    (h : p.components = names.map .name) : ¬p.isAbsolute = true ∧ p.lead = [] := by
  rw [components_eq] at h
  unfold lead at h ⊢
  split at h
  · cases names <;> cases h
  · next hrelative =>
    split at h
    · cases names <;> cases h
    · next hcurrent => exact ⟨hrelative, by rw [if_neg hrelative, if_neg hcurrent]⟩

theorem below?_eq_some_iff {p q : Path} {cs : List Component} :
    p.below? q = some cs ↔ p.components = q.components ++ cs := by
  rw [below?, List.isPrefixOf?_eq_some_iff_append_eq]
  exact eq_comm

theorem below?_eq_none_iff {p q : Path} :
    p.below? q = none ↔ ¬q.components <+: p.components := by
  rw [Option.eq_none_iff_forall_ne_some]
  constructor
  · rintro h ⟨cs, hcs⟩
    exact h cs (below?_eq_some_iff.2 hcs.symm)
  · intro h cs hcs
    exact h ⟨cs, (below?_eq_some_iff.1 hcs).symm⟩

end Phrasebook.Path
