import Phrasebook.Proofs.Marks

namespace Phrasebook.Json

namespace Tree

theorem kind_of_value? {n : Nat} {t : Tree} {v : Value} (h : t.value? n = some v) :
    v.kind = t.kind ∧ v.scalarText?.isSome = t.isScalar := by
  match n, t with
  | n, null | n, boolean b =>
    simp only [value?, Option.some.injEq] at h
    subst h
    exact ⟨rfl, rfl⟩
  | n, number l =>
    simp only [value?] at h
    obtain ⟨x, -, rfl⟩ := Option.map_eq_some_iff.1 h
    exact ⟨rfl, rfl⟩
  | n, string ms =>
    simp only [value?] at h
    obtain ⟨x, -, rfl⟩ := Option.map_eq_some_iff.1 h
    exact ⟨rfl, rfl⟩
  | 0, array ts | 0, object ms => cases h
  | n + 1, array ts | n + 1, object ms =>
    obtain ⟨vs, -, rfl⟩ := Option.map_eq_some_iff.1 h
    exact ⟨rfl, rfl⟩

theorem members?_append (n : Nat) (front back : List (List Mark × Tree)) :
    members? n (front ++ back) =
      (members? n front).bind fun vs => (members? n back).map (vs ++ ·) := by
  induction front with
  | nil => cases h : members? n back <;> simp [members?, h]
  | cons m front ih =>
    obtain ⟨name, t⟩ := m
    rw [List.cons_append, members?, members?, ih]
    cases Mark.text? name <;> cases t.value? n <;> cases members? n front <;>
      cases members? n back <;> rfl

theorem members?_split {n : Nat} {front back : List (List Mark × Tree)} {name : List Mark}
    {t : Tree} {vs : List (String × Value)}
    (h : members? n (front ++ (name, t) :: back) = some vs) : ∃ before key v behind,
      members? n front = some before ∧ Mark.text? name = some key ∧ t.value? n = some v ∧
        members? n back = some behind ∧ vs = before ++ (key, v) :: behind := by
  rw [members?_append] at h
  obtain ⟨before, hfront, h⟩ := Option.bind_eq_some_iff.1 h
  obtain ⟨rest, hrest, rfl⟩ := Option.map_eq_some_iff.1 h
  obtain ⟨key, hkey, hrest⟩ := Option.bind_eq_some_iff.1 hrest
  obtain ⟨v, hv, hrest⟩ := Option.bind_eq_some_iff.1 hrest
  obtain ⟨behind, hback, hrest⟩ := Option.bind_eq_some_iff.1 hrest
  cases hrest
  exact ⟨before, key, v, behind, hfront, hkey, hv, hback, rfl⟩

end Tree

namespace Reader

/-! Where values stand. -/

theorem eq_of_isSpace {c : Char} (h : isSpace c = true) :
    c = ' ' ∨ c = '\n' ∨ c = '\t' ∨ c = '\r' := by
  simpa only [isSpace, Bool.or_eq_true, decide_eq_true_eq, or_assoc] using h

theorem Delimits.blanks {b r : List Char} (hb : Blanks b) (hr : Delimits r) :
    Delimits (b ++ r) := by
  obtain ⟨hb⟩ := hb
  cases b with
  | nil => exact hr
  | cons c b =>
    rintro _ ⟨⟩
    rcases eq_of_isSpace (hb c List.mem_cons_self) with rfl | rfl | rfl | rfl <;> decide

theorem Delimits.cons {c : Char} (h : c.isDigit = false ∧ c ≠ '.' ∧ c ≠ 'e' ∧ c ≠ 'E')
    (r : List Char) : Delimits (c :: r) := fun _ hd => Option.some.inj hd ▸ h

theorem blanks_nil : Blanks [] := ⟨List.forall_mem_nil _⟩

theorem isSpace_of_isDigit {c : Char} (h : c.isDigit = true) : isSpace c = false := by
  by_contra hspace
  rcases eq_of_isSpace (Bool.of_not_eq_false hspace) with rfl | rfl | rfl | rfl <;> cases h

def Opens (s : List Char) : Prop := ∃ c u, s = c :: u ∧ isSpace c = false ∧ c ≠ ']'

theorem exists_digit (l : Literal) : ∃ d u, l.unsigned = d :: u ∧ d.isDigit = true := by
  obtain ⟨d, ds, hcons⟩ := List.exists_cons_of_ne_nil l.integer_ne_nil
  refine ⟨d, ds ++ l.point ++ l.power, ?_, l.isDigit_integer d (hcons ▸ List.mem_cons_self)⟩
  rw [Literal.unsigned, hcons, List.cons_append, List.cons_append]

theorem opens_value {t : Tree} {s : List Char} (h : PartSpelling (.value t) s) : Opens s := by
  cases h with
  | null | true | false => exact ⟨_, _, rfl, by decide, by decide⟩
  | @number l =>
    obtain ⟨d, u, hcons, hd⟩ := exists_digit l
    rw [Literal.chars]
    split
    · exact ⟨_, _, rfl, by decide, by decide⟩
    · refine ⟨d, u, hcons, isSpace_of_isDigit hd, ?_⟩
      rintro rfl
      cases hd
  | string hs =>
    obtain ⟨_⟩ := hs
    exact ⟨_, _, rfl, by decide, by decide⟩
  | array _ | object _ => exact ⟨_, _, rfl, by decide, by decide⟩

/-! One step. -/

section

variable (fuel depth : Nat) {first : Bool} {cs u r : List Char}

theorem elements_more (h : nextElement first cs = .ok (true, u)) :
    (elements (fuel + 1) depth first cs).toOption = (value fuel depth u).toOption.bind fun p =>
      (elements fuel depth false p.2).toOption.map fun q => (p.1 :: q.1, q.2) := by
  rw [elements, h]
  change Except.toOption (value fuel depth u >>= _) = _
  rw [toOption_bind]
  refine congrArg (Option.bind _) (funext fun p => ?_)
  change Except.toOption (elements fuel depth false p.2 >>= _) = _
  cases elements fuel depth false p.2 <;> rfl

theorem elements_close (h : nextElement first cs = .ok (false, r)) :
    elements (fuel + 1) depth first cs = .ok ([], r) := by
  rw [elements, h]
  rfl

theorem members_more (h : nextMember first cs = .ok (true, u)) :
    (members (fuel + 1) depth first cs).toOption = (string u).toOption.bind fun n =>
      (colon n.2).toOption.bind fun v => (value fuel depth v).toOption.bind fun p =>
        (members fuel depth false p.2).toOption.map fun q => ((n.1, p.1) :: q.1, q.2) := by
  rw [members, h]
  change Except.toOption (string u >>= _) = _
  rw [toOption_bind]
  refine congrArg (Option.bind _) (funext fun n => ?_)
  change Except.toOption (colon n.2 >>= _) = _
  rw [toOption_bind]
  refine congrArg (Option.bind _) (funext fun v => ?_)
  rw [toOption_bind]
  refine congrArg (Option.bind _) (funext fun p => ?_)
  change Except.toOption (members fuel depth false p.2 >>= _) = _
  cases members fuel depth false p.2 <;> rfl

theorem members_close (h : nextMember first cs = .ok (false, r)) :
    members (fuel + 1) depth first cs = .ok ([], r) := by
  rw [members, h]
  rfl

end

theorem nextElement_lead {first : Bool} {l a s : List Char} (hl : Lead first l) (ha : Blanks a)
    (hs : Opens s) : nextElement first (l ++ (a ++ s)) = .ok (true, s) := by
  obtain ⟨c, u, rfl, hspace, hclose⟩ := hs
  cases hl with
  | first =>
    rw [List.nil_append, nextElement, skipSpace_blanks ha hspace]
    simp
  | next hb =>
    rw [List.append_assoc, List.singleton_append, nextElement, skipSpace_blanks hb rfl]
    simp [skipSpace_blanks ha hspace, hclose]

theorem nextElement_close (first : Bool) {b : List Char} (h : Blanks b) (r : List Char) :
    nextElement first (b ++ ']' :: r) = .ok (false, r) := by
  rw [nextElement, skipSpace_blanks h rfl]
  rfl

theorem toOption_wrap {α β : Type} (x : Except Failure (Taken α)) (f : α → β) :
    (x >>= fun p => (.ok (f p.1, p.2) : Except Failure (Taken β))).toOption =
      x.toOption.map fun p => (f p.1, p.2) := by
  cases x <;> rfl

section

variable (fuel depth : Nat) {b : List Char} (hb : Blanks b)

include hb

theorem value_digit {c : Char} (hc : c.isDigit = true) (r : List Char) :
    value (fuel + 1) depth (b ++ c :: r) =
      number false (c :: r) >>= fun p => .ok (.number p.1, p.2) := by
  rw [value, skipSpace_blanks hb (isSpace_of_isDigit hc)]
  split
  case h_9 heq =>
    cases heq
    rw [if_pos hc]
  case h_1 heq => cases heq
  all_goals
    next heq =>
    cases heq
    cases hc

theorem toOption_value_number (l : Literal) {r : List Char} (hr : Delimits r) :
    (value (fuel + 1) depth (b ++ (l.chars ++ r))).toOption =
      l.number?.map fun x => (.number x, r) := by
  have hnumber := toOption_number l hr
  rw [Literal.chars]
  cases hnegative : l.negative with
  | true =>
    rw [if_pos rfl, List.cons_append, value, skipSpace_blanks hb rfl]
    refine (toOption_wrap (number true (l.unsigned ++ r)) Value.number).trans ?_
    rw [← hnegative, hnumber, Option.map_map]
    rfl
  | false =>
    obtain ⟨d, u, hcons, hd⟩ := exists_digit l
    rw [if_neg Bool.false_ne_true, hcons, List.cons_append, value_digit _ _ hb hd,
      ← List.cons_append, ← hcons, toOption_wrap, ← hnegative, hnumber, Option.map_map]
    rfl

theorem toOption_value_string {ms : List Mark} {s : List Char} (hs : StringSpelling ms s)
    (r : List Char) : (value (fuel + 1) depth (b ++ (s ++ r))).toOption =
      (Mark.text? ms).map fun x => (.string x, r) := by
  obtain ⟨ht⟩ := hs
  rw [List.cons_append, List.cons_append, value, skipSpace_blanks hb rfl, List.append_assoc]
  refine (toOption_wrap _ Value.string).trans ?_
  rw [List.singleton_append, toOption_string ht, Option.map_map]
  rfl

end

/-! Parts in front of other text. -/

section

variable {fuel depth n : Nat} {first : Bool} {t : Tree} {cs u v w x r : List Char}
  (hvalue : (value fuel depth v).toOption = (t.value? n).map (·, u))

include hvalue

theorem elements_element {ts : List Tree} (hnext : nextElement first cs = .ok (true, v))
    (hrest : (elements fuel depth false u).toOption = (Tree.elements? n ts).map (·, r)) :
    (elements (fuel + 1) depth first cs).toOption = (Tree.elements? n (t :: ts)).map (·, r) := by
  rw [elements_more _ _ hnext, hvalue, Tree.elements?]
  cases t.value? n with
  | none => rfl
  | some x =>
    change Option.map _ (elements fuel depth false u).toOption = Option.map _ (Option.bind _ _)
    rw [hrest]
    cases Tree.elements? n ts <;> rfl

theorem members_member_of {name : List Mark} {ms : List (List Mark × Tree)}
    (hnext : nextMember first cs = .ok (true, w))
    (hname : (string w).toOption = (Mark.text? name).map (·, x)) (hcolon : colon x = .ok v)
    (hrest : (members fuel depth false u).toOption = (Tree.members? n ms).map (·, r)) :
    (members (fuel + 1) depth first cs).toOption =
      (Tree.members? n ((name, t) :: ms)).map (·, r) := by
  rw [members_more _ _ hnext, hname, Tree.members?]
  cases Mark.text? name with
  | none => rfl
  | some k =>
    change Option.bind (colon x).toOption _ = Option.map _ (Option.bind _ _)
    rw [hcolon]
    change Option.bind (value fuel depth v).toOption _ = _
    rw [hvalue]
    cases t.value? n with
    | none => rfl
    | some y =>
      change Option.map _ (members fuel depth false u).toOption = Option.map _ (Option.bind _ _)
      rw [hrest]
      cases Tree.members? n ms <;> rfl

end

def Reads : Part → List Char → Prop
  | .value t, s => ∀ {fuel n : Nat} {b r : List Char}, 2 * s.length ≤ fuel → Blanks b →
      Delimits r → (value fuel (n + 1) (b ++ (s ++ r))).toOption = (t.value? n).map (·, r)
  | .elements ts, s => ∀ {fuel n : Nat} {first : Bool} {l r : List Char},
      2 * s.length + 1 ≤ fuel → Lead first l → (first = false → ts ≠ []) →
      (elements fuel (n + 1) first (l ++ (s ++ ']' :: r))).toOption =
        (Tree.elements? n ts).map (·, r)
  | .members ms, s => ∀ {fuel n : Nat} {first : Bool} {l r : List Char},
      2 * s.length + 1 ≤ fuel → Lead first l → (first = false → ms ≠ []) →
      (members fuel (n + 1) first (l ++ (s ++ '\x7d' :: r))).toOption =
        (Tree.members? n ms).map (·, r)

theorem Opens.append {s : List Char} (h : Opens s) (u : List Char) : Opens (s ++ u) := by
  obtain ⟨c, v, rfl, hc⟩ := h
  exact ⟨c, v ++ u, rfl, hc⟩

theorem Opens.length_pos {s : List Char} (h : Opens s) : 0 < s.length := by
  obtain ⟨c, v, rfl, -⟩ := h
  exact Nat.succ_pos _

theorem reads_part {p : Part} {s : List Char} (h : PartSpelling p s) : Reads p s := by
  induction h with
  | null | true | false =>
    intro fuel n b r hfuel hb _
    obtain ⟨fuel, rfl⟩ := Nat.exists_eq_succ_of_ne_zero (Nat.ne_zero_of_lt hfuel)
    simp only [List.cons_append]
    rw [value, skipSpace_blanks hb rfl]
    rfl
  | @number l =>
    intro fuel n b r hfuel hb hr
    have hpos := (opens_value (.number (l := l))).length_pos
    obtain ⟨fuel, rfl⟩ := Nat.exists_eq_succ_of_ne_zero (by omega : fuel ≠ 0)
    rw [toOption_value_number _ _ hb l hr, Tree.value?, Option.map_map]
    rfl
  | string hs =>
    intro fuel n b r hfuel hb _
    have hpos := (opens_value (.string hs)).length_pos
    obtain ⟨fuel, rfl⟩ := Nat.exists_eq_succ_of_ne_zero (by omega : fuel ≠ 0)
    rw [toOption_value_string _ _ hb hs, Tree.value?, Option.map_map]
    rfl
  | array _ ih =>
    intro fuel n b r hfuel hb _
    simp only [List.length_append, List.length_cons] at hfuel
    obtain ⟨fuel, rfl⟩ := Nat.exists_eq_succ_of_ne_zero (by omega : fuel ≠ 0)
    simp only [List.cons_append, List.append_assoc, List.nil_append]
    rw [value, skipSpace_blanks hb rfl]
    cases n with
    | zero => rfl
    | succ n =>
      refine (toOption_wrap (elements fuel (n + 1) true _) Value.array).trans ?_
      have helements := ih (n := n) (r := r) (by omega : _ ≤ fuel) .first
        fun h => Bool.noConfusion h
      rw [List.nil_append] at helements
      rw [helements, Tree.value?, Option.map_map, Option.map_map]
      rfl
  | object _ ih =>
    intro fuel n b r hfuel hb _
    simp only [List.length_append, List.length_cons] at hfuel
    obtain ⟨fuel, rfl⟩ := Nat.exists_eq_succ_of_ne_zero (by omega : fuel ≠ 0)
    simp only [List.cons_append, List.append_assoc, List.nil_append]
    rw [value, skipSpace_blanks hb rfl]
    cases n with
    | zero => rfl
    | succ n =>
      refine (toOption_wrap (members fuel (n + 1) true _) Value.object).trans ?_
      have hmembers := ih (n := n) (r := r) (by omega : _ ≤ fuel) .first fun h => Bool.noConfusion h
      rw [List.nil_append] at hmembers
      rw [hmembers, Tree.value?, Option.map_map, Option.map_map]
      rfl
  | noElements ha =>
    intro fuel n first l r hfuel hl hfirst
    obtain ⟨fuel, rfl⟩ := Nat.exists_eq_succ_of_ne_zero (by omega : fuel ≠ 0)
    cases hl with
    | first =>
      rw [List.nil_append, elements_close _ _ (nextElement_close true ha r)]
      rfl
    | next _ => exact absurd rfl (hfirst rfl)
  | @lastElement t a s b ha hs hb ih =>
    intro fuel n first l r hfuel hl _
    have hopens := opens_value hs
    have hpos := hopens.length_pos
    simp only [List.length_append] at hfuel
    obtain ⟨fuel, rfl⟩ := Nat.exists_eq_add_of_le' (by omega : 2 ≤ fuel)
    simp only [List.append_assoc]
    refine elements_element (u := b ++ ']' :: r) ?_ (nextElement_lead hl ha (hopens.append _)) ?_
    · exact ih (b := []) (by omega) blanks_nil (.blanks hb (.cons (by decide) _))
    · rw [elements_close _ _ (nextElement_close false hb r)]
      rfl
  | @element t ts a s b u ha hs hb hne _ ih ihr =>
    intro fuel n first l r hfuel hl _
    have hopens := opens_value hs
    simp only [List.length_append, List.length_cons] at hfuel
    obtain ⟨fuel, rfl⟩ := Nat.exists_eq_succ_of_ne_zero (by omega : fuel ≠ 0)
    simp only [List.append_assoc, List.cons_append]
    refine elements_element (u := b ++ ',' :: (u ++ ']' :: r)) ?_
      (nextElement_lead hl ha (hopens.append _)) ?_
    · exact ih (b := []) (by omega) blanks_nil (.blanks hb (.cons (by decide) _))
    · have hrest := @ihr fuel n _ _ r (by omega) (.next hb) fun _ => hne
      rwa [List.append_assoc, List.singleton_append] at hrest
  | noMembers ha =>
    intro fuel n first l r hfuel hl hfirst
    obtain ⟨fuel, rfl⟩ := Nat.exists_eq_succ_of_ne_zero (by omega : fuel ≠ 0)
    cases hl with
    | first =>
      rw [List.nil_append, members_close _ _ (nextMember_close true ha r)]
      rfl
    | next _ => exact absurd rfl (hfirst rfl)
  | @lastMember name t a _ b c s d ha hn hb hc hs hd ih =>
    intro fuel n first l r hfuel hl _
    obtain ⟨hname⟩ := hn
    simp only [List.length_append, List.length_cons] at hfuel
    obtain ⟨fuel, rfl⟩ := Nat.exists_eq_add_of_le' (by omega : 2 ≤ fuel)
    simp only [List.append_assoc, List.cons_append, List.nil_append]
    refine members_member_of (u := d ++ '\x7d' :: r) ?_ (nextMember_lead hl ha _)
      (toOption_string hname _) (colon_blanks hb _) ?_
    · exact ih (by omega) hc (.blanks hd (.cons (by decide) _))
    · rw [members_close _ _ (nextMember_close false hd r)]
      rfl
  | @member name t ms a _ b c s d u ha hn hb hc hs hd hne _ ih ihr =>
    intro fuel n first l r hfuel hl _
    obtain ⟨hname⟩ := hn
    simp only [List.length_append, List.length_cons] at hfuel
    obtain ⟨fuel, rfl⟩ := Nat.exists_eq_succ_of_ne_zero (by omega : fuel ≠ 0)
    simp only [List.append_assoc, List.cons_append, List.nil_append]
    refine members_member_of (u := d ++ ',' :: (u ++ '\x7d' :: r)) ?_ (nextMember_lead hl ha _)
      (toOption_string hname _) (colon_blanks hb _) ?_
    · exact ih (by omega) hc (.blanks hd (.cons (by decide) _))
    · have hrest := @ihr fuel n _ _ r (by omega) (.next hd) fun _ => hne
      rwa [List.append_assoc, List.singleton_append] at hrest

/-! What is read is spelled by a tree. -/

theorem exists_blanks (cs : List Char) : ∃ b, Blanks b ∧ cs = b ++ skipSpace cs :=
  ⟨cs.takeWhile isSpace, ⟨fun _ => List.mem_takeWhile_imp⟩, List.takeWhile_append_dropWhile.symm⟩

theorem blanks_append {a b : List Char} (ha : Blanks a) (hb : Blanks b) : Blanks (a ++ b) := by
  obtain ⟨ha⟩ := ha
  obtain ⟨hb⟩ := hb
  exact ⟨List.forall_mem_append.2 ⟨ha, hb⟩⟩

theorem eq_of_word {es cs r : List Char} (h : word es cs = .ok r) : cs = es ++ r := by
  induction es generalizing cs with
  | nil =>
    cases h
    rfl
  | cons e es ih =>
    cases cs with
    | nil => cases h
    | cons c cs =>
      rw [word] at h
      split at h
      · next heq => rw [heq, ih h, List.cons_append]
      · cases h

theorem exists_colon {cs r : List Char} (h : colon cs = .ok r) :
    ∃ b, Blanks b ∧ cs = b ++ ':' :: r := by
  obtain ⟨b, hb, hcs⟩ := exists_blanks cs
  refine ⟨b, hb, hcs.trans ?_⟩
  unfold colon at h
  split at h
  · cases h
  · next heq =>
    cases h
    rw [heq]
  · cases h

section

variable {first : Bool} {cs u r : List Char}

theorem exists_of_nextElement (h : nextElement first cs = .ok (true, u)) :
    ∃ l a, Lead first l ∧ Blanks a ∧ cs = l ++ (a ++ u) := by
  obtain ⟨b, hb, hcs⟩ := exists_blanks cs
  unfold nextElement at h
  split at h
  · cases h
  · cases h
  · next c v _ heq =>
    rw [heq] at hcs
    split at h
    · next hfirst =>
      cases h
      exact ⟨[], b, hfirst ▸ .first, hb, hcs⟩
    · next hfirst =>
      split at h
      · next hcomma =>
        obtain ⟨a, ha, hv⟩ := exists_blanks v
        split at h
        · cases h
        · cases h
        · cases h
          refine ⟨b ++ [','], a, Bool.of_not_eq_true hfirst ▸ .next hb, ha, ?_⟩
          rw [← hv, hcs, hcomma, List.append_assoc, List.singleton_append]
      · cases h

theorem exists_of_nextElement_close (h : nextElement first cs = .ok (false, r)) :
    ∃ b, Blanks b ∧ cs = b ++ ']' :: r := by
  obtain ⟨b, hb, hcs⟩ := exists_blanks cs
  refine ⟨b, hb, hcs.trans ?_⟩
  unfold nextElement at h
  split at h
  · cases h
  · next heq =>
    cases h
    rw [heq]
  · split at h
    · cases h
    · split at h
      · split at h <;> cases h
      · cases h

theorem exists_of_nextMember (h : nextMember first cs = .ok (true, u)) :
    ∃ l a, Lead first l ∧ Blanks a ∧ cs = l ++ (a ++ '"' :: u) := by
  obtain ⟨b, hb, hcs⟩ := exists_blanks cs
  unfold nextMember at h
  split at h
  · cases h
  · cases h
  · next c v _ heq =>
    rw [heq] at hcs
    split at h
    · next hfirst =>
      split at h
      · next hquote =>
        cases h
        exact ⟨[], b, hfirst ▸ .first, hb, hquote ▸ hcs⟩
      · cases h
    · next hfirst =>
      split at h
      · next hcomma =>
        obtain ⟨a, ha, hv⟩ := exists_blanks v
        split at h
        · cases h
        · next hquote =>
          cases h
          refine ⟨b ++ [','], a, Bool.of_not_eq_true hfirst ▸ .next hb, ha, ?_⟩
          rw [← hquote, ← hv, hcs, hcomma, List.append_assoc, List.singleton_append]
        · cases h
        · cases h
      · cases h

theorem exists_of_nextMember_close (h : nextMember first cs = .ok (false, r)) :
    ∃ b, Blanks b ∧ cs = b ++ '\x7d' :: r := by
  obtain ⟨b, hb, hcs⟩ := exists_blanks cs
  refine ⟨b, hb, hcs.trans ?_⟩
  unfold nextMember at h
  split at h
  · cases h
  · next heq =>
    cases h
    rw [heq]
  · split at h
    · split at h <;> cases h
    · split at h
      · split at h <;> cases h
      · cases h

end

def Closes (close : Char) (P : List Char → Prop) (first : Bool) (cs r : List Char) : Prop :=
  (∃ b, Blanks b ∧ cs = b ++ close :: r) ∨
    ∃ l s, Lead first l ∧ P s ∧ cs = l ++ (s ++ close :: r)

def IsElements (s : List Char) : Prop := ∃ ts, ts ≠ [] ∧ PartSpelling (.elements ts) s

def IsMembers (s : List Char) : Prop := ∃ ms, ms ≠ [] ∧ PartSpelling (.members ms) s

structure Sound (fuel : Nat) : Prop where
  value {depth : Nat} {cs r : List Char} {v : Value} : Reader.value fuel depth cs = .ok (v, r) →
    ∃ b s t, Blanks b ∧ PartSpelling (.value t) s ∧ cs = b ++ (s ++ r)
  elements {depth : Nat} {first : Bool} {cs r : List Char} {vs : List Value} :
    Reader.elements fuel depth first cs = .ok (vs, r) → Closes ']' IsElements first cs r
  members {depth : Nat} {first : Bool} {cs r : List Char} {ms : List (String × Value)} :
    Reader.members fuel depth first cs = .ok (ms, r) → Closes '\x7d' IsMembers first cs r

theorem Closes.elements {cs r : List Char} (h : Closes ']' IsElements true cs r) :
    ∃ ts s, PartSpelling (.elements ts) s ∧ cs = s ++ ']' :: r := by
  obtain ⟨b, hb, hcs⟩ | ⟨_, s, ⟨⟩, ⟨ts, -, hs⟩, hcs⟩ := h
  · exact ⟨[], b, .noElements hb, hcs⟩
  · exact ⟨ts, s, hs, hcs⟩

theorem Closes.members {cs r : List Char} (h : Closes '\x7d' IsMembers true cs r) :
    ∃ ms s, PartSpelling (.members ms) s ∧ cs = s ++ '\x7d' :: r := by
  obtain ⟨b, hb, hcs⟩ | ⟨_, s, ⟨⟩, ⟨ms, -, hs⟩, hcs⟩ := h
  · exact ⟨[], b, .noMembers hb, hcs⟩
  · exact ⟨ms, s, hs, hcs⟩

theorem sound_value {fuel : Nat} (h : Sound fuel) {depth : Nat} {cs r : List Char} {v : Value}
    (hread : value (fuel + 1) depth cs = .ok (v, r)) :
    ∃ b s t, Blanks b ∧ PartSpelling (.value t) s ∧ cs = b ++ (s ++ r) := by
  obtain ⟨b, hb, hcs⟩ := exists_blanks cs
  suffices h : ∃ s t, PartSpelling (.value t) s ∧ skipSpace cs = s ++ r by
    obtain ⟨s, t, hs, heq⟩ := h
    exact ⟨b, s, t, hb, hs, heq ▸ hcs⟩
  rw [value] at hread
  split at hread
  · cases hread
  · next heq =>
    obtain ⟨_, hword, hread⟩ := bind_eq_ok.1 hread
    cases hread
    exact ⟨_, _, .null, by rw [heq, eq_of_word hword]; rfl⟩
  · next heq =>
    obtain ⟨_, hword, hread⟩ := bind_eq_ok.1 hread
    cases hread
    exact ⟨_, _, .true, by rw [heq, eq_of_word hword]; rfl⟩
  · next heq =>
    obtain ⟨_, hword, hread⟩ := bind_eq_ok.1 hread
    cases hread
    exact ⟨_, _, .false, by rw [heq, eq_of_word hword]; rfl⟩
  · next heq =>
    obtain ⟨⟨n, _⟩, hnumber, hread⟩ := bind_eq_ok.1 hread
    cases hread
    obtain ⟨l, hnegative, hl⟩ := exists_literal hnumber
    refine ⟨_, _, .number (l := l), ?_⟩
    rw [Literal.chars, if_pos hnegative, heq, hl, List.cons_append]
  · next heq =>
    obtain ⟨⟨n, _⟩, hstring, hread⟩ := bind_eq_ok.1 hread
    cases hread
    obtain ⟨ms, s, hs, hstring⟩ := exists_string hstring
    exact ⟨s, _, .string hs, heq.trans hstring⟩
  · next heq =>
    split at hread
    · cases hread
    · obtain ⟨⟨vs, _⟩, helements, hread⟩ := bind_eq_ok.1 hread
      cases hread
      obtain ⟨ts, s, hs, rfl⟩ := (h.elements helements).elements
      exact ⟨_, _, .array hs, by simp [heq]⟩
  · next heq =>
    split at hread
    · cases hread
    · obtain ⟨⟨ms, _⟩, hmembers, hread⟩ := bind_eq_ok.1 hread
      cases hread
      obtain ⟨ms, s, hs, rfl⟩ := (h.members hmembers).members
      exact ⟨_, _, .object hs, by simp [heq]⟩
  · next heq =>
    split at hread
    · obtain ⟨⟨n, _⟩, hnumber, hread⟩ := bind_eq_ok.1 hread
      cases hread
      obtain ⟨l, hnegative, hl⟩ := exists_literal hnumber
      refine ⟨_, _, .number (l := l), ?_⟩
      rw [Literal.chars, if_neg (by rw [hnegative]; exact Bool.false_ne_true), heq, hl]
    · cases hread

theorem sound_elements {fuel : Nat} (h : Sound fuel) {depth : Nat} {first : Bool}
    {cs r : List Char} {vs : List Value}
    (hread : elements (fuel + 1) depth first cs = .ok (vs, r)) :
    Closes ']' IsElements first cs r := by
  obtain ⟨⟨more, u⟩, hnext, hread⟩ := bind_eq_ok.1 hread
  cases more with
  | false =>
    cases hread
    exact .inl (exists_of_nextElement_close hnext)
  | true =>
    obtain ⟨⟨v, w⟩, hvalue, hread⟩ := bind_eq_ok.1 hread
    obtain ⟨⟨vs, _⟩, helements, hread⟩ := bind_eq_ok.1 hread
    cases hread
    obtain ⟨l, a, hl, ha, hcs⟩ := exists_of_nextElement hnext
    obtain ⟨b, s, t, hb, hs, rfl⟩ := h.value hvalue
    obtain ⟨d, hd, rfl⟩ | ⟨_, u, _ | hd, ⟨ts, hne, hu⟩, rfl⟩ := h.elements helements
    · refine .inr ⟨l, _, hl,
        ⟨[t], List.cons_ne_nil _ _, .lastElement (blanks_append ha hb) hs hd⟩, ?_⟩
      simp only [hcs, List.append_assoc]
    · refine .inr ⟨l, _, hl,
        ⟨t :: ts, List.cons_ne_nil _ _, .element (blanks_append ha hb) hs hd hne hu⟩, ?_⟩
      simp only [hcs, List.append_assoc, List.cons_append, List.nil_append]

theorem sound_members {fuel : Nat} (h : Sound fuel) {depth : Nat} {first : Bool}
    {cs r : List Char} {ms : List (String × Value)}
    (hread : members (fuel + 1) depth first cs = .ok (ms, r)) :
    Closes '\x7d' IsMembers first cs r := by
  obtain ⟨⟨more, u⟩, hnext, hread⟩ := bind_eq_ok.1 hread
  cases more with
  | false =>
    cases hread
    exact .inl (exists_of_nextMember_close hnext)
  | true =>
    obtain ⟨⟨name, u'⟩, hname, hread⟩ := bind_eq_ok.1 hread
    obtain ⟨w, hcolon, hread⟩ := bind_eq_ok.1 hread
    obtain ⟨⟨v, w'⟩, hvalue, hread⟩ := bind_eq_ok.1 hread
    obtain ⟨⟨ms, _⟩, hmembers, hread⟩ := bind_eq_ok.1 hread
    cases hread
    obtain ⟨l, a, hl, ha, hcs⟩ := exists_of_nextMember hnext
    obtain ⟨marks, n, hn, htext⟩ := exists_string hname
    obtain ⟨b, hb, rfl⟩ := exists_colon hcolon
    obtain ⟨c, s, t, hc, hs, rfl⟩ := h.value hvalue
    rw [htext] at hcs
    obtain ⟨d, hd, rfl⟩ | ⟨_, u, _ | hd, ⟨ts, hne, hu⟩, rfl⟩ := h.members hmembers
    · refine .inr ⟨l, _, hl, ⟨_, List.cons_ne_nil _ _, .lastMember ha hn hb hc hs hd⟩, ?_⟩
      simp only [hcs, List.append_assoc, List.cons_append]
    · refine .inr ⟨l, _, hl, ⟨_, List.cons_ne_nil _ _, .member ha hn hb hc hs hd hne hu⟩, ?_⟩
      simp only [hcs, List.append_assoc, List.cons_append, List.nil_append]

theorem sound (fuel : Nat) : Sound fuel := by
  induction fuel with
  | zero => exact ⟨nofun, nofun, nofun⟩
  | succ fuel ih => exact ⟨sound_value ih, sound_elements ih, sound_members ih⟩

/-! Documents. -/

theorem exists_of_finish {b : List Char} (h : finish b = .ok ()) : Blanks b := by
  unfold finish at h
  split at h
  · next hnil => exact ⟨List.dropWhile_eq_nil_iff.1 hnil⟩
  · cases h

theorem toOption_objectDocument {ms : List (List Mark × Tree)} {cs : List Char}
    (h : DocumentSpelling (.object ms) cs) :
    (objectDocument cs).toOption = Tree.documentMembers? ms := by
  rw [Tree.documentMembers?]
  obtain ⟨ha, hs, hb⟩ := h
  next a s b =>
  cases hs with | @object _ s hs =>
  have hmembers := @reads_part _ _ hs (enough (a ++ '\x7b' :: (s ++ '\x7d' :: b))) 126 true [] b
    ?_ .first fun h => Bool.noConfusion h
  · simp only [List.append_assoc, List.cons_append, List.nil_append] at hmembers ⊢
    rw [objectDocument, skipSpace_blanks ha rfl]
    refine (toOption_bind _ _).trans ?_
    refine (congrArg (Option.bind · _) hmembers).trans ?_
    cases Tree.members? 126 ms with
    | none => rfl
    | some vs =>
      change Except.toOption (finish b >>= _) = _
      rw [finish_blanks hb]
      rfl
  · simp only [enough, List.length_append, List.length_cons]
    omega

theorem exists_object {cs : List Char} {vs : List (String × Value)}
    (h : objectDocument cs = .ok vs) : ∃ ms, DocumentSpelling (.object ms) cs := by
  obtain ⟨a, ha, hcs⟩ := exists_blanks cs
  unfold objectDocument at h
  split at h
  · next heq =>
    obtain ⟨⟨vs, b⟩, hmembers, h⟩ := bind_eq_ok.1 h
    obtain ⟨_, hfinish, -⟩ := bind_eq_ok.1 h
    obtain ⟨ms, s, hs, rfl⟩ := ((sound _).members hmembers).members
    refine ⟨ms, ?_⟩
    have hspelling := DocumentSpelling.document ha (.object hs) (exists_of_finish hfinish)
    rw [heq] at hcs
    simpa only [hcs, List.append_assoc, List.cons_append, List.nil_append] using hspelling
  · obtain ⟨_, -, h⟩ := bind_eq_ok.1 h
    cases h

end Reader

theorem toOption_parseObject {ms : List (List Mark × Tree)} {text : List Char}
    (h : DocumentSpelling (.object ms) text) :
    (parseObject text).toOption = Tree.documentMembers? ms := by
  rw [← Reader.toOption_objectDocument h, parseObject]
  cases Reader.objectDocument text <;> rfl

theorem exists_of_parseObject {text : List Char} {vs : List (String × Value)}
    (h : parseObject text = .ok vs) :
    ∃ ms, DocumentSpelling (.object ms) text ∧ Tree.documentMembers? ms = some vs := by
  have hread : Reader.objectDocument text = .ok vs := by
    rw [parseObject] at h
    cases hread : Reader.objectDocument text with
    | error e =>
      rw [hread] at h
      cases h
    | ok _ =>
      rw [hread] at h
      cases h
      rfl
  obtain ⟨ms, hms⟩ := Reader.exists_object hread
  exact ⟨ms, hms, (toOption_parseObject hms).symm.trans (congrArg Except.toOption h)⟩

end Phrasebook.Json
