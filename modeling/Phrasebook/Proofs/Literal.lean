import Mathlib.Data.List.TakeWhile
import Phrasebook.Json.Literal

/-!
Reading numbers. In front of any text that does not go on with a number, the reader takes a literal
as a whole and returns the number that it is read as, and it takes nothing that is no literal.
-/

namespace Phrasebook.Json

section

variable {ε α β : Type}

theorem toOption_bind (x : Except ε α) (f : α → Except ε β) :
    (x >>= f).toOption = x.toOption.bind fun a => (f a).toOption := by
  cases x <;> rfl

theorem bind_eq_ok {x : Except ε α} {f : α → Except ε β} {b : β} :
    x >>= f = .ok b ↔ ∃ a, x = .ok a ∧ f a = .ok b := by
  cases x with
  | ok a => exact ⟨fun h => ⟨a, rfl, h⟩, fun ⟨_, rfl, h⟩ => h⟩
  | error e => exact ⟨nofun, fun ⟨_, h, _⟩ => nomatch h⟩

end

theorem le_decimalFrom (n : Nat) (ds : List Char) : n ≤ decimalFrom n ds := by
  induction ds generalizing n with
  | nil => exact Nat.le_refl n
  | cons d ds ih => exact Nat.le_trans (by omega) (ih (n * 10 + Reader.digitValue d))

namespace Number

theorem absorb_of_le {s : Nat} {ds : List Char} (h : decimalFrom s ds ≤ largest) :
    absorb s (ds.map Reader.digitValue) = (decimalFrom s ds, 0) := by
  induction ds generalizing s with
  | nil => rfl
  | cons d ds ih =>
    have hstep := Nat.le_trans (le_decimalFrom _ ds) h
    rw [List.map_cons, absorb, if_neg (Nat.not_lt.2 hstep), ih h]
    rfl

theorem absorb_of_lt {s : Nat} {ds : List Char} (h : largest < decimalFrom s ds)
    (hs : s ≤ largest) : (absorb s (ds.map Reader.digitValue)).2 ≠ 0 := by
  induction ds generalizing s with
  | nil => exact absurd h (Nat.not_lt.2 hs)
  | cons d ds ih =>
    rw [List.map_cons, absorb]
    split
    · exact Nat.succ_ne_zero _
    · next hlt => exact ih h (Nat.not_lt.1 hlt)

end Number

/-- Just the integers that fit in 64 bits are read as a whole. -/
theorem absorb_integer (ds : List Char) : (Number.absorb 0 (ds.map Reader.digitValue)).2 = 0 ↔
    decimal ds ≤ Number.largest := by
  constructor
  · intro h
    by_contra hlt
    exact Number.absorb_of_lt (Nat.not_le.1 hlt) (Nat.zero_le _) h
  · intro h
    rw [Number.absorb_of_le h]

namespace Reader

def Stops (r : List Char) : Prop := ∀ c ∈ r.head?, c.isDigit = false

def Delimits (r : List Char) : Prop :=
  ∀ c ∈ r.head?, c.isDigit = false ∧ c ≠ '.' ∧ c ≠ 'e' ∧ c ≠ 'E'

theorem delimits_nil : Delimits [] := fun _ hc => absurd hc (Option.not_mem_none _)

theorem Delimits.stops {r : List Char} (h : Delimits r) : Stops r := fun c hc => (h c hc).1

theorem digits_append {ds r : List Char} (hds : ∀ c ∈ ds, c.isDigit = true) (hr : Stops r) :
    digits (ds ++ r) = (ds.map digitValue, r) := by
  have hrest : r.takeWhile Char.isDigit = [] ∧ r.dropWhile Char.isDigit = r := by
    cases r with
    | nil => exact ⟨rfl, rfl⟩
    | cons c r =>
      have hc := hr c rfl
      exact ⟨List.takeWhile_cons_of_neg (by simp [hc]), List.dropWhile_cons_of_neg (by simp [hc])⟩
  rw [digits, List.takeWhile_append_of_pos hds, List.dropWhile_append_of_pos hds, hrest.1, hrest.2,
    List.append_nil]

section

variable {ds r : List Char} (hds : ∀ c ∈ ds, c.isDigit = true) {n : Nat}

include hds

theorem exponentDigits_of_le (hr : Stops r) (h : decimalFrom n ds ≤ Nat.pow 2 31 - 1) :
    exponentDigits n (ds ++ r) = (decimalFrom n ds, true, r) := by
  induction ds generalizing n with
  | nil =>
    cases r with
    | nil => rfl
    | cons c r =>
      rw [List.nil_append, exponentDigits, hr c rfl]
      rfl
  | cons d ds ih =>
    obtain ⟨hd, hds⟩ := List.forall_mem_cons.1 hds
    have hstep := Nat.le_trans (le_decimalFrom _ ds) h
    rw [List.cons_append, exponentDigits, if_pos hd, if_pos hstep, ih hds h]
    rfl

theorem exponentDigits_of_lt (hn : n ≤ Nat.pow 2 31 - 1)
    (h : Nat.pow 2 31 - 1 < decimalFrom n ds) : ∃ m ds', (∀ c ∈ ds', c.isDigit = true) ∧
      exponentDigits n (ds ++ r) = (m, false, ds' ++ r) := by
  induction ds generalizing n with
  | nil => exact absurd h (Nat.not_lt.2 hn)
  | cons d ds ih =>
    obtain ⟨hd, hds⟩ := List.forall_mem_cons.1 hds
    rw [List.cons_append, exponentDigits, if_pos hd]
    split
    · next hstep => exact ih hds hstep h
    · exact ⟨n, ds, hds, rfl⟩

end

theorem toOption_binary (negative : Bool) (s : Nat) (e : Int) (r : List Char) :
    (binary negative s e r).toOption =
      (Number.scale s e).map fun x => (.float negative x, r) := by
  unfold binary
  cases Number.scale s e <;> rfl

theorem dropWhile_digits {ds r : List Char} (hds : ∀ c ∈ ds, c.isDigit = true) (hr : Stops r) :
    (ds ++ r).dropWhile Char.isDigit = r :=
  congrArg Prod.snd (digits_append hds hr)

def afterSign (negative : Bool) (s : Nat) (start : Int) (down : Bool) (cs : List Char) :
    Except Failure (Taken Number) :=
  match cs with
  | [] => .error (.ahead .endInValue [])
  | c :: r =>
    if c.isDigit then
      match exponentDigits 0 (c :: r) with
      | (value, true, r) => binary negative s (if down then start - value else start + value) r
      | (_, false, r) =>
        if s ≠ 0 ∧ !down then .error (.here .numberOutOfRange r)
        else .ok (.float negative .zero, r.dropWhile Char.isDigit)
    else .error (.ahead .invalidNumber (c :: r))

section

variable (negative : Bool) (s : Nat) (start : Int)

theorem exponent_minus (cs : List Char) :
    exponent negative s start ('-' :: cs) = afterSign negative s start true cs := rfl

theorem exponent_plus (cs : List Char) :
    exponent negative s start ('+' :: cs) = afterSign negative s start false cs := rfl

theorem exponent_unsigned {cs : List Char} (hplus : cs.head? ≠ some '+')
    (hminus : cs.head? ≠ some '-') :
    exponent negative s start cs = afterSign negative s start false cs := by
  cases cs with
  | nil => rfl
  | cons c cs =>
    rw [exponent]
    · rfl
    · rintro _ ⟨⟩
      exact hplus rfl
    · rintro _ ⟨⟩
      exact hminus rfl

theorem exponent_eq (e : Exponent) (r : List Char) :
    exponent negative s start (e.sign ++ (e.digits ++ r)) =
      afterSign negative s start e.isDown (e.digits ++ r) := by
  rw [Exponent.isDown]
  rcases e.isSign with hsign | hsign | hsign <;> rw [hsign]
  · obtain ⟨d, ds, hcons⟩ := List.exists_cons_of_ne_nil e.ne_nil
    have hd : d.isDigit = true := e.isDigit d (hcons ▸ List.mem_cons_self)
    rw [hcons]
    apply exponent_unsigned
    · rintro ⟨⟩
      cases hd
    · rintro ⟨⟩
      cases hd
  · exact exponent_plus ..
  · exact exponent_minus ..

theorem toOption_exponent (e : Exponent) {r : List Char} (hr : Stops r) :
    (exponent negative s start (e.sign ++ (e.digits ++ r))).toOption =
      (e.raise? s start).map fun x => (.float negative x, r) := by
  obtain ⟨d, ds, hcons⟩ := List.exists_cons_of_ne_nil e.ne_nil
  have hd : d.isDigit = true := e.isDigit d (hcons ▸ List.mem_cons_self)
  have hdigits : ∀ c ∈ d :: ds, c.isDigit = true := hcons ▸ e.isDigit
  rw [exponent_eq, Exponent.raise?, Exponent.size, hcons, List.cons_append, afterSign, if_pos hd,
    ← List.cons_append]
  by_cases hle : decimal (d :: ds) ≤ Nat.pow 2 31 - 1
  · rw [exponentDigits_of_le hdigits hr hle, if_pos hle]
    exact toOption_binary ..
  · obtain ⟨m, ds', hds', heq⟩ :=
      exponentDigits_of_lt (r := r) hdigits (Nat.zero_le _) (Nat.not_le.1 hle)
    rw [heq, if_neg hle]
    dsimp only
    split
    · rfl
    · rw [dropWhile_digits hds' hr]
      rfl

end

section

variable (l : Literal) {r : List Char} (hr : Delimits r)

include hr

theorem stops_power : Stops (l.power ++ r) := by
  unfold Literal.power
  cases l.exponent with
  | none => exact hr.stops
  | some e =>
    rintro c ⟨⟩
    rcases e.isLetter with h | h <;> rw [h] <;> rfl

theorem stops_point : Stops (l.point ++ (l.power ++ r)) := by
  unfold Literal.point
  split
  · exact stops_power l hr
  · rintro c ⟨⟩
    rfl

theorem toOption_power (s : Nat) (start : Int) (hs : l.significand = (s, start)) :
    Except.toOption (match l.power ++ r with
      | 'e' :: r => exponent l.negative s start r
      | 'E' :: r => exponent l.negative s start r
      | r => binary l.negative s start r) =
    l.binary?.map fun x => (.float l.negative x, r) := by
  unfold Literal.power Literal.binary?
  rw [hs]
  cases l.exponent with
  | none =>
    change Except.toOption (match r with
      | 'e' :: r => exponent l.negative s start r
      | 'E' :: r => exponent l.negative s start r
      | r => binary l.negative s start r) = _
    split
    · exact absurd rfl (hr _ rfl).2.2.1
    · exact absurd rfl (hr _ rfl).2.2.2
    · exact toOption_binary ..
  | some e =>
    have hcons : (Option.map Exponent.chars (some e)).getD [] ++ r =
        e.letter :: (e.sign ++ (e.digits ++ r)) := by
      rw [Option.map_some, Option.getD_some, Exponent.chars, List.cons_append, List.append_assoc]
    rw [hcons]
    rcases e.isLetter with h | h <;> rw [h] <;> exact toOption_exponent _ _ _ e hr.stops

theorem toOption_afterInteger {s dropped : Nat}
    (habsorb : Number.absorb 0 (l.integer.map digitValue) = (s, dropped)) :
    (afterInteger l.negative s dropped (l.point ++ (l.power ++ r))).toOption =
      l.number?.map (·, r) := by
  have hsignificand : l.significand = ((Number.absorb s (l.fraction.map digitValue)).1,
      dropped - (((l.fraction.map digitValue).length -
        (Number.absorb s (l.fraction.map digitValue)).2 : Nat) : Int)) := by
    rw [Literal.significand, habsorb, List.length_map]
  have hbinary (h : ¬(l.isInteger = true ∧ decimal l.integer ≤ Number.largest)) :
      l.number?.map (·, r) = l.binary?.map fun x => (.float l.negative x, r) := by
    rw [Literal.number?, if_neg h, Option.map_map]
    rfl
  cases hfraction : l.fraction with
  | cons f fs =>
    have hpoint : l.point = '.' :: f :: fs := by rw [Literal.point, hfraction, if_neg nofun]
    have hdigits : digits (f :: fs ++ (l.power ++ r)) = ((f :: fs).map digitValue, l.power ++ r) :=
      digits_append (hfraction ▸ l.isDigit_fraction) (stops_power l hr)
    rw [hbinary (by simp [Literal.isInteger, hfraction]), ← toOption_power l hr _ _ hsignificand,
      hpoint, List.cons_append, hfraction]
    simp only [afterInteger, hdigits]
    rfl
  | nil =>
    have hpoint : l.point = [] := by rw [Literal.point, if_pos hfraction]
    rw [hfraction] at hsignificand
    rw [hpoint, List.nil_append]
    cases hexponent : l.exponent with
    | some e =>
      rw [hbinary (by simp [Literal.isInteger, hexponent]),
        ← toOption_power l hr _ _ hsignificand]
      have hpower : l.power = e.chars := by rw [Literal.power, hexponent]; rfl
      rw [hpower, Exponent.chars]
      rcases e.isLetter with h | h <;> rw [h] <;> simp [afterInteger, Number.absorb]
    | none =>
      have hpower : l.power = [] := by rw [Literal.power, hexponent]; rfl
      have hplain : afterInteger l.negative s dropped r =
          if dropped = 0 then .ok (.ofInteger l.negative s, r)
          else binary l.negative s dropped r := by
        unfold afterInteger
        split
        · exact absurd rfl (hr _ rfl).2.1
        · exact absurd rfl (hr _ rfl).2.2.1
        · exact absurd rfl (hr _ rfl).2.2.2
        · rfl
      rw [hpower, List.nil_append, hplain]
      by_cases hle : decimal l.integer ≤ Number.largest
      · have hkept := (Number.absorb_of_le hle).symm.trans habsorb
        obtain ⟨rfl, rfl⟩ := Prod.mk.inj hkept
        rw [if_pos rfl, Literal.number?, if_pos ⟨by simp [Literal.isInteger, *], hle⟩]
        rfl
      · have hdropped : dropped ≠ 0 := by
          rw [← absorb_integer, habsorb] at hle
          exact hle
        rw [if_neg hdropped, hbinary fun h => hle h.2, toOption_binary, Literal.binary?, hexponent,
          hsignificand]
        simp [Number.absorb]

/-- A literal is read as a whole, whatever text that delimits it comes next. -/
theorem toOption_number :
    (number l.negative (l.unsigned ++ r)).toOption = l.number?.map (·, r) := by
  have hrest := stops_point l hr
  have hafter := toOption_afterInteger l hr (Prod.eta _).symm
  rw [Literal.unsigned, List.append_assoc, List.append_assoc]
  obtain ⟨d, ds, hcons⟩ := List.exists_cons_of_ne_nil l.integer_ne_nil
  by_cases hzero : d = '0'
  · have hinteger : l.integer = ['0'] := l.leading (by rw [hcons, hzero]; rfl)
    have hnone : ¬(l.point ++ (l.power ++ r)).head?.any Char.isDigit = true := by
      rw [Option.any_eq_true]
      rintro ⟨c, hc, hdigit⟩
      exact absurd hdigit (by simp [hrest c hc])
    rw [← hafter, hinteger, List.singleton_append, number, if_neg hnone]
    rfl
  · have hdigit : d.isDigit = true := l.isDigit_integer d (hcons ▸ List.mem_cons_self)
    have hdigits := digits_append l.isDigit_integer hrest
    rw [← hafter]
    rw [hcons] at hdigits ⊢
    rw [List.cons_append, number, if_pos hdigit, ← List.cons_append, hdigits]
    exact fun h => hzero h

end

def Counts (cs r : List Char) : Prop :=
  ∃ ds, (∀ c ∈ ds, c.isDigit = true) ∧ ds ≠ [] ∧ cs = ds ++ r

theorem Counts.dropWhile {cs r : List Char} (h : Counts cs r) :
    Counts cs (r.dropWhile Char.isDigit) := by
  obtain ⟨ds, hds, hne, rfl⟩ := h
  refine ⟨ds ++ r.takeWhile Char.isDigit, ?_, List.append_ne_nil_of_left_ne_nil hne _, ?_⟩
  · exact List.forall_mem_append.2 ⟨hds, fun _ => List.mem_takeWhile_imp⟩
  · rw [List.append_assoc, List.takeWhile_append_dropWhile]

theorem counts_of_exponentDigits {n m : Nat} {fits : Bool} {c : Char} {cs r : List Char}
    (hc : c.isDigit = true) (h : exponentDigits n (c :: cs) = (m, fits, r)) :
    Counts (c :: cs) r := by
  induction cs generalizing n c with
  | nil =>
    rw [exponentDigits, if_pos hc] at h
    split at h <;> cases h <;>
      exact ⟨[c], List.forall_mem_singleton.2 hc, List.cons_ne_nil _ _, rfl⟩
  | cons d cs ih =>
    have single : Counts (c :: d :: cs) (d :: cs) :=
      ⟨[c], List.forall_mem_singleton.2 hc, List.cons_ne_nil _ _, rfl⟩
    rw [exponentDigits, if_pos hc] at h
    split at h
    · by_cases hd : d.isDigit = true
      · obtain ⟨ds, hds, hne, heq⟩ := ih hd h
        exact ⟨c :: ds, List.forall_mem_cons.2 ⟨hc, hds⟩, List.cons_ne_nil _ _,
          congrArg (c :: ·) heq⟩
      · rw [exponentDigits, if_neg hd] at h
        cases h
        exact single
    · cases h
      exact single

theorem eq_of_binary {negative : Bool} {s : Nat} {e : Int} {cs r : List Char} {x : Number}
    (h : binary negative s e cs = .ok (x, r)) : cs = r := by
  unfold binary at h
  split at h
  · cases h
    rfl
  · cases h

section

variable {negative : Bool} {s : Nat} {start : Int} {cs r : List Char} {x : Number}

theorem counts_of_afterSign {down : Bool} (h : afterSign negative s start down cs = .ok (x, r)) :
    Counts cs r := by
  unfold afterSign at h
  split at h
  · cases h
  · split at h
    · next hc =>
      split at h
      · next hdigits => exact eq_of_binary h ▸ counts_of_exponentDigits hc hdigits
      · next hdigits =>
        split at h
        · cases h
        · cases h
          exact (counts_of_exponentDigits hc hdigits).dropWhile
    · cases h

theorem exists_exponent (h : exponent negative s start cs = .ok (x, r)) {letter : Char}
    (hletter : letter = 'e' ∨ letter = 'E') : ∃ e : Exponent, letter :: cs = e.chars ++ r := by
  obtain ⟨sign, rest, hsign, rfl, ds, hds, hne, rfl⟩ : ∃ sign rest,
      (sign = [] ∨ sign = ['+'] ∨ sign = ['-']) ∧ cs = sign ++ rest ∧ Counts rest r := by
    by_cases hplus : cs.head? = some '+'
    · obtain ⟨rest, rfl⟩ := List.head?_eq_some_iff.1 hplus
      exact ⟨['+'], rest, .inr (.inl rfl), rfl, counts_of_afterSign h⟩
    · by_cases hminus : cs.head? = some '-'
      · obtain ⟨rest, rfl⟩ := List.head?_eq_some_iff.1 hminus
        exact ⟨['-'], rest, .inr (.inr rfl), rfl, counts_of_afterSign h⟩
      · rw [exponent_unsigned _ _ _ hplus hminus] at h
        exact ⟨[], cs, .inl rfl, rfl, counts_of_afterSign h⟩
  exact ⟨⟨letter, sign, ds, hletter, hsign, hds, hne⟩, by
    rw [Exponent.chars, List.cons_append, List.append_assoc]⟩

end

theorem eq_of_digits {cs r : List Char} {ds : List Nat} (h : digits cs = (ds, r)) :
    cs = cs.takeWhile Char.isDigit ++ r ∧ ds = (cs.takeWhile Char.isDigit).map digitValue := by
  cases h
  exact ⟨List.takeWhile_append_dropWhile.symm, rfl⟩

theorem exists_tail {negative : Bool} {s dropped : Nat} {cs r : List Char} {x : Number}
    (h : afterInteger negative s dropped cs = .ok (x, r)) :
    ∃ (fraction : List Char) (e : Option Exponent), (∀ c ∈ fraction, c.isDigit = true) ∧
      cs = (if fraction = [] then [] else '.' :: fraction) ++
        ((e.map Exponent.chars).getD [] ++ r) := by
  have tail {s : Nat} {start : Int} {cs : List Char} (h : Except.ok (x, r) = (match cs with
      | 'e' :: r => exponent negative s start r
      | 'E' :: r => exponent negative s start r
      | r => binary negative s start r)) :
      ∃ e : Option Exponent, cs = (e.map Exponent.chars).getD [] ++ r := by
    split at h
    · obtain ⟨e, he⟩ := exists_exponent h.symm (.inl rfl)
      exact ⟨some e, he⟩
    · obtain ⟨e, he⟩ := exists_exponent h.symm (.inr rfl)
      exact ⟨some e, he⟩
    · exact ⟨none, eq_of_binary h.symm⟩
  unfold afterInteger at h
  split at h
  · next rest =>
    split at h
    · cases h
    · cases h
    · next ds r' _ hne hdigits =>
      obtain ⟨hrest, hds⟩ := eq_of_digits hdigits
      obtain ⟨e, he⟩ := tail h.symm
      have hfraction : rest.takeWhile Char.isDigit ≠ [] := by
        intro hnil
        rw [hnil] at hds
        exact hne hds
      refine ⟨rest.takeWhile Char.isDigit, e, fun _ => List.mem_takeWhile_imp, ?_⟩
      rw [if_neg hfraction, List.cons_append, ← he, ← hrest]
  · obtain ⟨e, he⟩ := exists_exponent h (.inl rfl)
    exact ⟨[], some e, nofun, he⟩
  · obtain ⟨e, he⟩ := exists_exponent h (.inr rfl)
    exact ⟨[], some e, nofun, he⟩
  · split at h
    · cases h
      exact ⟨[], none, nofun, rfl⟩
    · exact ⟨[], none, nofun, eq_of_binary h⟩

theorem exists_literal {negative : Bool} {cs r : List Char} {x : Number}
    (h : number negative cs = .ok (x, r)) :
    ∃ l : Literal, l.negative = negative ∧ cs = l.unsigned ++ r := by
  have whole {integer : List Char} {s dropped : Nat} {rest : List Char}
      (hall : ∀ c ∈ integer, c.isDigit = true) (hne : integer ≠ [])
      (hleading : integer.head? = some '0' → integer = ['0'])
      (h : afterInteger negative s dropped rest = .ok (x, r)) :
      ∃ l : Literal, l.negative = negative ∧ integer ++ rest = l.unsigned ++ r := by
    obtain ⟨fraction, e, hfraction, rfl⟩ := exists_tail h
    exact ⟨⟨negative, integer, fraction, e, hall, hfraction, hne, hleading⟩, rfl, by
      simp only [Literal.unsigned, Literal.point, Literal.power, List.append_assoc]⟩
  unfold number at h
  split at h
  · cases h
  · next rest =>
    split at h
    · cases h
    · exact @whole ['0'] _ _ _ (List.forall_mem_singleton.2 rfl) (List.cons_ne_nil _ _)
        (fun _ => rfl) h
  · next c rest hzero =>
    split at h
    · next hc =>
      have hdigits := (eq_of_digits (Prod.eta (digits (c :: rest))).symm).1
      rw [List.takeWhile_cons_of_pos hc] at hdigits
      obtain ⟨l, hl, heq⟩ := whole
        (List.forall_mem_cons.2 ⟨hc, fun _ => List.mem_takeWhile_imp⟩) (List.cons_ne_nil _ _)
        (fun hhead => absurd (Option.some.inj hhead) hzero) h
      exact ⟨l, hl, hdigits.trans heq⟩
    · cases h

end Reader

theorem Literal.leading_one : ['1'].head? = some '0' → ['1'] = ['0'] := by decide

def Literal.one (e : Option Exponent) : Literal :=
  ⟨false, ['1'], [], e, List.forall_mem_singleton.2 rfl, List.forall_mem_nil _,
    List.cons_ne_nil _ _, leading_one⟩

def Exponent.nines (n : Nat) : Exponent :=
  ⟨'e', [], List.replicate (n + 1) '9', .inl rfl, .inl rfl,
    fun _ hc => List.eq_of_mem_replicate hc ▸ rfl, List.cons_ne_nil _ _⟩

end Phrasebook.Json
