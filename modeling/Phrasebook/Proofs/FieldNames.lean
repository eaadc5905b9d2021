import Mathlib.Data.List.Nodup
import Mathlib.Data.List.Perm.Subperm
import Phrasebook.Proofs.Identifier

namespace Phrasebook.Identifier

def keywords : List String :=
  ["abstract", "as", "async", "await", "become", "box", "break", "const", "continue", "crate",
    "do", "dyn", "else", "enum", "extern", "false", "final", "fn", "for", "gen", "if", "impl",
    "in", "let", "loop", "macro", "match", "mod", "move", "mut", "override", "priv", "pub", "ref",
    "return", "self", "Self", "static", "struct", "super", "trait", "true", "try", "type",
    "typeof", "unsafe", "unsized", "use", "virtual", "where", "while", "yield"]

def pathKeywords : List String := ["crate", "self", "Self", "super"]

inductive IsFieldName : String → Prop
  | plain {name : String} : isIdentifier name = true → name ∉ keywords → IsFieldName name
  | raw {word : String} : word ∈ keywords → word ∉ pathKeywords → IsFieldName ("r#" ++ word)

/-- The word for a key when others are taken: its base, or the base with the least free number from
2 on. -/
inductive Picks (taken : List String) (key : String) : String → Prop
  | free : base key ∉ taken → Picks taken key (base key)
  | next {n : Nat} : base key ∈ taken → 2 ≤ n → numbered (base key) n ∉ taken →
      (∀ m, 2 ≤ m → m < n → numbered (base key) m ∈ taken) →
      Picks taken key (numbered (base key) n)

/-- One legal name for each key, no two of them alike, written from a word that the key picks beside
those before it. -/
structure Names (keys names : List String) : Prop where
  length : names.length = keys.length
  nodup : names.Nodup
  legal : ∀ name ∈ names, IsFieldName name
  picks : ∃ words : List String, names = words.map render ∧ ∀ {i key}, keys[i]? = some key →
    ∃ word, words[i]? = some word ∧ Picks (words.take i) key word

theorem numbered_injective (name : String) : Function.Injective (numbered name) := by
  intro m n h
  have htext : toString m = toString n := (String.append_right_inj _).1 h
  have hdigits := congrArg (fun s => Nat.ofDigitChars 10 s.toList 0) htext
  simpa [Nat.toString_eq_repr, Nat.toList_repr] using hdigits

theorem exists_free (used : Std.TreeSet String) (name : String) :
    ∃ n ∈ List.range' 2 (used.size + 1), numbered name n ∉ used := by
  by_contra! hused
  have hnodup : ((List.range' 2 (used.size + 1)).map (numbered name)).Nodup :=
    List.Nodup.map (numbered_injective name) List.nodup_range'
  have hsub : (List.range' 2 (used.size + 1)).map (numbered name) ⊆ used.toList := by
    intro s hs
    obtain ⟨n, hn, rfl⟩ := List.mem_map.1 hs
    exact Std.TreeSet.mem_toList.2 (hused n hn)
  have hle := (hnodup.subperm hsub).length_le
  rw [List.length_map, List.length_range', Std.TreeSet.length_toList] at hle
  omega

theorem fresh_eq_numbered {used : Std.TreeSet String} {name : String} (h : name ∈ used) :
    ∃ n, 2 ≤ n ∧ numbered name n ∉ used ∧ (∀ m, 2 ≤ m → m < n → numbered name m ∈ used) ∧
      fresh used name = numbered name n := by
  obtain ⟨k, hk, hfree⟩ := exists_free used name
  cases hfind : (List.range' 2 (used.size + 1)).find? (numbered name · ∉ used) with
  | none => exact absurd (decide_eq_true hfree) (List.find?_eq_none.1 hfind k hk)
  | some n =>
    obtain ⟨hn, hmem, hleast⟩ := List.find?_range'_eq_some.1 hfind
    refine ⟨n, (List.mem_range'_1.1 hmem).1, of_decide_eq_true hn, ?_, ?_⟩
    · intro m hm hlt
      simpa using hleast m hm hlt
    · rw [fresh, if_pos h, hfind]
      rfl

def Holds (used : Std.TreeSet String) (taken : List String) : Prop := ∀ s, s ∈ used ↔ s ∈ taken

section

variable {used : Std.TreeSet String} {taken : List String}

theorem Holds.insert (h : Holds used taken) (word : String) :
    Holds (used.insert word) (taken ++ [word]) := by
  intro s
  rw [Std.TreeSet.mem_insert, Std.LawfulEqCmp.compare_eq_iff_eq, h s, List.mem_append,
    List.mem_singleton, or_comm, eq_comm]

theorem picks_fresh (h : Holds used taken) (key : String) :
    Picks taken key (fresh used (base key)) := by
  by_cases hbase : base key ∈ used
  · obtain ⟨n, hn, hfree, hleast, heq⟩ := fresh_eq_numbered hbase
    rw [heq]
    exact .next ((h _).1 hbase) hn (mt (h _).2 hfree) fun m hm hlt => (h _).1 (hleast m hm hlt)
  · rw [fresh, if_neg hbase]
    exact .free (mt (h _).2 hbase)

theorem picks_assign (h : Holds used taken) (keys : List String) {i : Nat} {key : String}
    (hkey : keys[i]? = some key) : ∃ word, (assign used keys)[i]? = some word ∧
      Picks (taken ++ (assign used keys).take i) key word := by
  induction keys generalizing used taken i with
  | nil => cases hkey
  | cons head keys ih =>
    cases i with
    | zero =>
      cases hkey
      refine ⟨_, rfl, ?_⟩
      rw [List.take_zero, List.append_nil]
      exact picks_fresh h key
    | succ i =>
      obtain ⟨word, hword, hpicks⟩ := ih (h.insert (fresh used (base head))) hkey
      refine ⟨word, hword, ?_⟩
      rw [List.append_assoc] at hpicks
      exact hpicks

end

theorem Picks.not_mem {taken : List String} {key word : String} (h : Picks taken key word) :
    word ∉ taken := by
  cases h with
  | free h => exact h
  | next _ _ h _ => exact h

theorem underscore_mem_numbered (name : String) (n : Nat) : '_' ∈ (numbered name n).toList := by
  simp [numbered, String.toList_append]

theorem not_underscore_mem : ∀ w ∈ suffixedKeywords, '_' ∉ w.toList := by decide

theorem Picks.not_suffixed {taken : List String} {key word : String} (h : Picks taken key word) :
    word ∉ suffixedKeywords := by
  cases h with
  | free _ =>
    unfold base
    split
    · next hsuffixed => exact (suffixed_not_keyword _ hsuffixed).1
    · next hother => exact hother
  | next _ _ _ _ => exact fun hmem => not_underscore_mem _ hmem (underscore_mem_numbered _ _)

theorem isIdentifier_append {s t : String} (hs : isIdentifier s = true) (ht : IsWord t) :
    isIdentifier (s ++ t) = true := by
  unfold isIdentifier at hs ⊢
  rw [String.toList_append]
  cases hchars : s.toList with
  | nil =>
    rw [hchars] at hs
    cases hs
  | cons c r =>
    rw [hchars] at hs
    simp only [isIdentifierChars, Bool.and_eq_true, Bool.not_eq_true', beq_eq_false_iff_ne] at hs
    obtain ⟨⟨hstart, hparts⟩, hlone⟩ := hs
    have htail : t.toList.all isPart = true := List.all_eq_true.2 ht
    have hmore : c :: r ++ t.toList ≠ ['_'] := by
      intro heq
      obtain ⟨rfl, hnil⟩ := List.cons.inj heq
      exact hlone (congrArg (List.cons '_') (List.append_eq_nil_iff.1 hnil).1)
    rw [List.cons_append] at hmore ⊢
    rw [isIdentifierChars, hstart, List.all_append, hparts, htail, beq_eq_false_iff_ne.2 hmore]
    rfl

theorem isIdentifier_base (key : String) : isIdentifier (base key) = true := by
  unfold base
  split
  · exact isIdentifier_append (isIdentifier_sanitize key) isWord_underscore
  · exact isIdentifier_sanitize key

theorem Picks.isIdentifier {taken : List String} {key word : String} (h : Picks taken key word) :
    isIdentifier word = true := by
  cases h with
  | free _ => exact isIdentifier_base key
  | next _ _ _ _ =>
    exact isIdentifier_append (isIdentifier_append (isIdentifier_base key) isWord_underscore)
      (isWord_toString _)

theorem mem_rawKeywords_iff {word : String} (h : word ∉ suffixedKeywords) :
    word ∈ rawKeywords ↔ word ∈ keywords := by
  have hsplit : ∀ w ∈ keywords, w ∈ rawKeywords ∨ w ∈ suffixedKeywords := by decide +kernel
  have hraw : ∀ w ∈ rawKeywords, w ∈ keywords := by decide +kernel
  exact ⟨hraw word, fun hword => (hsplit word hword).resolve_right h⟩

theorem isFieldName_render {word : String} (h : isIdentifier word = true)
    (hsuffixed : word ∉ suffixedKeywords) : IsFieldName (render word) := by
  have hpath : ∀ w ∈ pathKeywords, w ∈ suffixedKeywords := by decide
  rw [render, if_neg hsuffixed]
  split
  · next hraw =>
    exact .raw ((mem_rawKeywords_iff hsuffixed).1 hraw) fun hword => hsuffixed (hpath word hword)
  · next hraw => exact .plain h fun hword => hraw ((mem_rawKeywords_iff hsuffixed).2 hword)

section

variable {keys : List String} {i : Nat} {key word : String}

theorem picks_of_key (h : keys[i]? = some key) :
    ∃ word, (assign ∅ keys)[i]? = some word ∧ Picks ((assign ∅ keys).take i) key word := by
  have hempty : Holds ∅ [] := fun s => iff_of_false Std.TreeSet.not_mem_emptyc List.not_mem_nil
  exact picks_assign hempty keys h

theorem picks_of_word (h : (assign ∅ keys)[i]? = some word) :
    ∃ key, Picks ((assign ∅ keys).take i) key word := by
  have hlt : i < keys.length := length_assign ∅ keys ▸ (List.getElem?_eq_some_iff.1 h).1
  obtain ⟨_, hword, hpick⟩ := picks_of_key (List.getElem?_eq_getElem hlt)
  cases h.symm.trans hword
  exact ⟨_, hpick⟩

theorem word_of_mem (h : word ∈ assign ∅ keys) :
    isIdentifier word = true ∧ word ∉ suffixedKeywords := by
  obtain ⟨i, hi⟩ := List.getElem?_of_mem h
  obtain ⟨key, hpick⟩ := picks_of_word hi
  exact ⟨hpick.isIdentifier, hpick.not_suffixed⟩

theorem nodup_assign (keys : List String) : (assign ∅ keys).Nodup := by
  refine List.pairwise_iff_getElem.2 fun i j hi hj hlt heq => ?_
  obtain ⟨key, hpick⟩ := picks_of_word (List.getElem?_eq_getElem hj)
  exact hpick.not_mem (heq ▸ List.mem_take_iff_getElem.2 ⟨i, by omega, rfl⟩)

end

/-- Any keys have names for their fields. -/
theorem names_fieldNames (keys : List String) : Names keys (fieldNames keys) where
  length := length_fieldNames keys
  nodup :=
    (nodup_map_render_iff (nodup_assign keys) (isWord_assign ∅ keys)).2 fun _ hw hmem =>
      absurd hw (word_of_mem hmem).2
  legal := by
    intro name hname
    obtain ⟨word, hmem, rfl⟩ := List.mem_map.1 hname
    exact isFieldName_render (word_of_mem hmem).1 (word_of_mem hmem).2
  picks := ⟨assign ∅ keys, rfl, picks_of_key⟩

/-- A number that is taken as a base is passed over. -/
example : fieldNames ["a-b", "a_b_2", "a_b", "type", "self", "self_"] =
    ["a_b", "a_b_2", "a_b_3", "r#type", "self_", "self__2"] := by
  decide +kernel

end Phrasebook.Identifier
