import Phrasebook.Proofs.Repetition

namespace Phrasebook

namespace Json

namespace Tree

/-- Whether parts of a document can be held where some brackets may still be opened. -/
structure Fits (n depth : Nat) (ls : List Literal) (ss : List (List Mark)) : Prop where
  depth_le : depth ≤ n
  numbers : ∀ l ∈ ls, l.number?.isSome
  strings : ∀ s ∈ ss, (Mark.text? s).isSome

theorem fits_nil (n : Nat) : Fits n 0 [] [] := ⟨Nat.zero_le n, nofun, nofun⟩

theorem fits_append {n d d' : Nat} {ls ls' : List Literal} {ss ss' : List (List Mark)} :
    Fits n (max d d') (ls ++ ls') (ss ++ ss') ↔ Fits n d ls ss ∧ Fits n d' ls' ss' := by
  constructor
  · rintro ⟨hd, hl, hs⟩
    rw [List.forall_mem_append] at hl hs
    exact ⟨⟨by omega, hl.1, hs.1⟩, ⟨by omega, hl.2, hs.2⟩⟩
  · rintro ⟨⟨hd, hl, hs⟩, hd', hl', hs'⟩
    exact ⟨by omega, List.forall_mem_append.2 ⟨hl, hl'⟩, List.forall_mem_append.2 ⟨hs, hs'⟩⟩

theorem fits_cons {n d : Nat} {ls : List Literal} {s : List Mark} {ss : List (List Mark)} :
    Fits n d ls (s :: ss) ↔ (Mark.text? s).isSome ∧ Fits n d ls ss := by
  constructor
  · rintro ⟨hd, hl, hs⟩
    rw [List.forall_mem_cons] at hs
    exact ⟨hs.1, hd, hl, hs.2⟩
  · rintro ⟨hs, hd, hl, hss⟩
    exact ⟨hd, hl, List.forall_mem_cons.2 ⟨hs, hss⟩⟩

theorem fits_succ {n d : Nat} {ls : List Literal} {ss : List (List Mark)} :
    Fits (n + 1) (d + 1) ls ss ↔ Fits n d ls ss :=
  ⟨fun ⟨hd, hl, hs⟩ => ⟨Nat.le_of_succ_le_succ hd, hl, hs⟩,
    fun ⟨hd, hl, hs⟩ => ⟨Nat.succ_le_succ hd, hl, hs⟩⟩

mutual

theorem isSome_value? (n : Nat) (t : Tree) :
    (t.value? n).isSome ↔ Fits n t.depth t.literals t.strings := by
  match n, t with
  | n, null | n, boolean b =>
    simp only [value?, depth, literals, strings]
    exact iff_of_true rfl (fits_nil n)
  | n, number l =>
    simp only [value?, depth, literals, strings, Option.isSome_map]
    exact ⟨fun h => ⟨Nat.zero_le n, List.forall_mem_singleton.2 h, nofun⟩,
      fun h => h.numbers l List.mem_cons_self⟩
  | n, string ms =>
    simp only [value?, depth, literals, strings, Option.isSome_map]
    exact ⟨fun h => ⟨Nat.zero_le n, nofun, List.forall_mem_singleton.2 h⟩,
      fun h => h.strings ms List.mem_cons_self⟩
  | 0, array ts | 0, object ms =>
    exact iff_of_false Bool.false_ne_true fun h => Nat.not_succ_le_zero _ h.depth_le
  | n + 1, array ts =>
    rw [value?, Option.isSome_map, depth, literals, strings, fits_succ]
    exact isSome_elements? n ts
  | n + 1, object ms =>
    rw [value?, Option.isSome_map, depth, literals, strings, fits_succ]
    exact isSome_members? n ms

theorem isSome_elements? (n : Nat) (ts : List Tree) : (elements? n ts).isSome ↔
    Fits n (depthOfElements ts) (literalsOfElements ts) (stringsOfElements ts) := by
  match ts with
  | [] =>
    rw [elements?, depthOfElements, literalsOfElements, stringsOfElements]
    exact iff_of_true rfl (fits_nil n)
  | t :: ts =>
    rw [elements?, depthOfElements, literalsOfElements, stringsOfElements, fits_append,
      ← isSome_value? n t, ← isSome_elements? n ts]
    cases t.value? n <;> cases elements? n ts <;> simp

theorem isSome_members? (n : Nat) (ms : List (List Mark × Tree)) : (members? n ms).isSome ↔
    Fits n (depthOfMembers ms) (literalsOfMembers ms) (stringsOfMembers ms) := by
  match ms with
  | [] =>
    rw [members?, depthOfMembers, literalsOfMembers, stringsOfMembers]
    exact iff_of_true rfl (fits_nil n)
  | (name, t) :: ms =>
    rw [members?, depthOfMembers, literalsOfMembers, stringsOfMembers, List.cons_append, fits_cons,
      fits_append, ← isSome_value? n t, ← isSome_members? n ms]
    cases Mark.text? name <;> cases t.value? n <;> cases members? n ms <;> simp

end

end Tree

theorem exists_place {front back : List (List Mark × Tree)} {name : List Mark} {t : Tree}
    {s : List Char} (h : PartSpelling (.members (front ++ (name, t) :: back)) s) :
    ∃ u w v, s = u ++ w ++ v ∧ PartSpelling (.value t) w ∧
      ∀ {t' w'}, PartSpelling (.value t') w' →
        PartSpelling (.members (front ++ (name, t') :: back)) (u ++ w' ++ v) := by
  induction front generalizing s with
  | nil =>
    cases h with
    | @lastMember _ _ a n b c w d ha hn hb hc hw hd =>
      refine ⟨a ++ n ++ b ++ ':' :: c, w, d, rfl, hw, fun hw' => ?_⟩
      exact .lastMember ha hn hb hc hw' hd
    | @member _ _ _ a n b c w d r ha hn hb hc hw hd hne hr =>
      refine ⟨a ++ n ++ b ++ ':' :: c, w, d ++ ',' :: r, by simp only [List.append_assoc], hw,
        fun hw' => ?_⟩
      have hmember := PartSpelling.member ha hn hb hc hw' hd hne hr
      simpa only [List.append_assoc, List.nil_append] using hmember
  | cons m front ih =>
    rw [List.cons_append] at h
    generalize hrest : front ++ (name, t) :: back = rest at h
    cases h with
    | lastMember _ _ _ _ _ _ => simp at hrest
    | @member m x _ a n b c w d r ha hn hb hc hw hd hne hr =>
      subst hrest
      obtain ⟨u, w', v, rfl, hw', hplace⟩ := ih hr
      refine ⟨a ++ n ++ b ++ ':' :: c ++ w ++ d ++ ',' :: u, w', v,
        by simp only [List.append_assoc, List.cons_append], hw', fun hw'' => ?_⟩
      have hmember := PartSpelling.member ha hn hb hc hw hd (by simp) (hplace hw'')
      simpa only [List.append_assoc, List.cons_append] using hmember

theorem DocumentSpelling.exists_place {front back : List (List Mark × Tree)} {name : List Mark}
    {t : Tree} {cs : List Char}
    (h : DocumentSpelling (.object (front ++ (name, t) :: back)) cs) :
    ∃ u w v, cs = u ++ w ++ v ∧ PartSpelling (.value t) w ∧
      ∀ {t' w'}, PartSpelling (.value t') w' →
        DocumentSpelling (.object (front ++ (name, t') :: back)) (u ++ w' ++ v) := by
  obtain ⟨ha, hs, hb⟩ := h
  next a s b =>
  cases hs with | object hs =>
  obtain ⟨u, w, v, rfl, hw, hplace⟩ := Json.exists_place hs
  refine ⟨a ++ '\x7b' :: u, w, v ++ '\x7d' :: b, by simp, hw, fun hw' => ?_⟩
  simpa using DocumentSpelling.document ha (.object (hplace hw')) hb

theorem isSome_documentMembers? {ms : List (List Mark × Tree)} :
    (Tree.documentMembers? ms).isSome ↔
      Tree.Fits 127 (Tree.object ms).depth (Tree.object ms).literals (Tree.object ms).strings := by
  rw [Tree.documentMembers?, Tree.isSome_members?, Tree.depth, Tree.literals, Tree.strings,
    Tree.fits_succ]

end Json

namespace Format

open Json (Mark Tree PartSpelling DocumentSpelling)

structure Tolerates (path : Path) (ms : List (List Mark × Tree)) (text : String) : Prop where
  accepted_iff : (∃ c, Format.json.parse path text = .ok c) ↔
    Tree.Fits 127 (Tree.object ms).depth (Tree.object ms).literals (Tree.object ms).strings
  /-- There is no other way to fail. -/
  refused : (∃ c, Format.json.parse path text = .ok c) ∨
    ∃ problem, Format.json.parse path text = .error (.malformedJson path problem)
  /-- Where the key is blank, it is the key that is at fault. -/
  reported : ∀ {c name t}, Format.json.parse path text = .ok c → (name, t) ∈ ms →
    t.isScalar = false → ∃ key, Mark.text? name = some key ∧
      (if Text.isBlankText key then .unusableRow path none .blankKey
        else .invalidValue path key t.kind) ∈ c.errors
  /-- No entry depends on such a value, which might as well be null. -/
  replaced : ∀ {c front name t back}, Format.json.parse path text = .ok c →
    ms = front ++ (name, t) :: back → t.isScalar = false → ∃ u w v, text.toList = u ++ w ++ v ∧
      PartSpelling (.value t) w ∧
      DocumentSpelling (.object (front ++ (name, .null) :: back))
        (u ++ ['n', 'u', 'l', 'l'] ++ v) ∧
      ∃ c', Format.json.parse path (.ofList (u ++ ['n', 'u', 'l', 'l'] ++ v)) = .ok c' ∧
        c'.entries = c.entries

theorem entries_of_values {path : Path} {before behind : List (String × Json.Value)} {key : String}
    {v v' : Json.Value} {c c' : Contents} (hv : v.scalarText? = none) (hv' : v'.scalarText? = none)
    (h : Sorts path ((before ++ (key, v) :: behind).map fun m => .member m.1 m.2) c)
    (h' : Sorts path ((before ++ (key, v') :: behind).map fun m => .member m.1 m.2) c') :
    c'.entries = c.entries := by
  have hentry {v : Json.Value} (hv : v.scalarText? = none) :
      (Item.member key v).accepted? = none := by
    rw [Item.accepted?, Item.text?, hv]
    cases (Item.member key v).key? <;> rfl
  rw [h.entries, h'.entries]
  simp only [List.map_append, List.map_cons, List.filterMap_append, Item.keys,
    List.filterMap_cons_none (hentry hv), List.filterMap_cons_none (hentry hv')]
  rfl

theorem tolerates {ms : List (List Mark × Tree)} {text : String}
    (h : DocumentSpelling (.object ms) text.toList) (path : Path) : Tolerates path ms text := by
  have hread := Json.toOption_parseObject h
  constructor
  case accepted_iff =>
    rw [← Json.isSome_documentMembers?, Option.isSome_iff_exists]
    constructor
    · rintro ⟨c, hc⟩
      obtain ⟨vs, hvs, -⟩ := exists_members h hc
      exact ⟨vs, hvs⟩
    · rintro ⟨vs, hvs⟩
      exact ⟨_, parse_json_of_members h hvs path⟩
  case refused =>
    simp only [parse]
    cases Json.parseObject text.toList with
    | ok vs => exact .inl ⟨_, rfl⟩
    | error problem => exact .inr ⟨problem, rfl⟩
  case reported =>
    intro c name t hc hmem hscalar
    obtain ⟨vs, hvs, hsorts⟩ := exists_members h hc
    obtain ⟨front, back, rfl⟩ := List.append_of_mem hmem
    obtain ⟨before, key, v, behind, -, hkey, hv, -, rfl⟩ := Tree.members?_split hvs
    refine ⟨key, hkey, ?_⟩
    obtain ⟨hkind, htext⟩ := Tree.kind_of_value? hv
    rw [hscalar] at htext
    rw [hsorts.errors]
    refine List.mem_append_left _ (List.mem_filterMap.2 ⟨.member key v, by simp, ?_⟩)
    have hnone : v.scalarText?.isNone = true := by simpa using htext
    rw [Item.error?, ← hkind, hnone]
    split <;> rfl
  case replaced =>
    intro c front name t back hc hms hscalar
    subst hms
    obtain ⟨vs, hvs, hsorts⟩ := exists_members h hc
    obtain ⟨before, key, v, behind, hbefore, hkey, hv, hbehind, rfl⟩ := Tree.members?_split hvs
    obtain ⟨u, w, v', htext, hw, hplace⟩ := h.exists_place
    have hspelling := hplace .null
    have hvs' : Tree.documentMembers? (front ++ (name, .null) :: back) =
        some (before ++ (key, .null) :: behind) := by
      rw [Tree.documentMembers?, Tree.members?_append, hbefore, Option.bind_some, Tree.members?,
        hkey, hbehind]
      rfl
    refine ⟨u, w, v', htext, hw, hspelling, ?_⟩
    have hlist : DocumentSpelling (.object (front ++ (name, .null) :: back))
        (String.ofList (u ++ ['n', 'u', 'l', 'l'] ++ v')).toList := by
      rwa [String.toList_ofList]
    have hparse := parse_json_of_members hlist hvs' path
    refine ⟨_, hparse, entries_of_values ?_ rfl hsorts (Contents.sorts_ofOutcomes path _)⟩
    have hnone := (Tree.kind_of_value? hv).2
    rw [hscalar] at hnone
    simpa using hnone

def numberedMembers (l : Json.Literal) : List (List Mark × Tree) :=
  [([.char 'a'], .array [.number l]), ([.char 'b'], .string [.char 'x'])]

def numberedText (l : Json.Literal) : String :=
  .ofList (['\x7b', '"', 'a', '"', ':', ' ', '['] ++ l.chars ++
    [']', ',', ' ', '"', 'b', '"', ':', ' ', '"', 'x', '"', '\x7d'])

theorem spelling_numbered (l : Json.Literal) :
    DocumentSpelling (.object (numberedMembers l)) (numberedText l).toList := by
  have hnone : Json.Blanks [] := Json.Reader.blanks_nil
  have hspace : Json.Blanks [' '] := ⟨List.forall_mem_singleton.2 rfl⟩
  have hstring {c : Char} (hcontrol : 0x20 ≤ c.toNat) (hquote : c ≠ '"') (hslash : c ≠ '\\') :
      Json.StringSpelling [.char c] ['"', c, '"'] :=
    .string (.cons (.plain hcontrol hquote hslash) .nil)
  have harray :
      PartSpelling (.value (.array [.number l])) ('[' :: ([] ++ l.chars ++ []) ++ [']']) :=
    .array (.lastElement hnone .number hnone)
  have hlast := PartSpelling.lastMember hspace
    (hstring (c := 'b') (by decide) (by decide) (by decide)) hnone hspace
    (.string (hstring (c := 'x') (by decide) (by decide) (by decide))) hnone
  have hmembers := PartSpelling.member hnone
    (hstring (c := 'a') (by decide) (by decide) (by decide)) hnone hspace harray hnone
    (List.cons_ne_nil _ _) hlast
  have hdocument := DocumentSpelling.document hnone (.object hmembers) hnone
  rw [numberedText, numberedMembers, String.toList_ofList]
  simpa using hdocument

def smallLiteral : Json.Literal := .one none

def hugeLiteral : Json.Literal := .one (some (.nines 2))

theorem tolerates_numbered :
    DocumentSpelling (.object (numberedMembers smallLiteral)) (numberedText smallLiteral).toList ∧
    Format.json.parse (.ofString "T.en.json") (numberedText smallLiteral) =
      .ok ⟨[⟨"b", "x"⟩], [.invalidValue (.ofString "T.en.json") "a" "an array"]⟩ ∧
    Tolerates (.ofString "T.en.json") (numberedMembers smallLiteral) (numberedText smallLiteral) :=
  ⟨spelling_numbered smallLiteral, by decide +kernel,
    tolerates (spelling_numbered smallLiteral) (.ofString "T.en.json")⟩

theorem exists_refused_document : ¬∀ (path : Path) (text : String) (ms : List (List Mark × Tree)),
    DocumentSpelling (.object ms) text.toList → ∃ c, Format.json.parse path text = .ok c := by
  intro h
  obtain ⟨c, hc⟩ := h (.ofString "T.en.json") _ _ (spelling_numbered hugeLiteral)
  have hrefused : (Format.json.parse (.ofString "T.en.json")
      (numberedText hugeLiteral)).toOption = none := by decide +kernel
  rw [hc] at hrefused
  cases hrefused

end Format

end Phrasebook
