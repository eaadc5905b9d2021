import Mathlib.Data.List.Basic
import Phrasebook.Session

namespace Phrasebook

def StoreCall.isSave : StoreCall → Bool
  | load => false
  | save _ => true

namespace Session

namespace Request

def isUse : Request → Bool
  | current => true
  | change _ => true
  | row _ => true
  | writeStore _ => false
  | readStore => false

def chosen? : Request → Option String
  | change language => some language
  | _ => none

def written? : Request → Option String
  | writeStore language => some language
  | _ => none

theorem chosen?_of_not_isUse {r : Request} (h : r.isUse = false) : r.chosen? = none := by
  cases r with
  | change language => cases h
  | _ => rfl

end Request

open Request

def isUsed (rs : List Request) : Bool := rs.any isUse

def choices (rs : List Request) : List String := rs.filterMap chosen?

def lastWritten? (rs : List Request) : Option String := (rs.filterMap written?).getLast?

def beforeUse (rs : List Request) : List Request := rs.takeWhile fun r => !r.isUse

def fromUse (rs : List Request) : List Request := rs.dropWhile fun r => !r.isUse

def initial (default : String) (held : Option String) (rs : List Request) : String :=
  ((lastWritten? (beforeUse rs)).or held).getD default

def activeAfter (default : String) (held : Option String) (rs : List Request) : String :=
  (choices rs).getLast?.getD (initial default held rs)

def switches (active : String) : List String → List String
  | [] => []
  | language :: languages =>
    if active = language then switches active languages
    else language :: switches language languages

def saves (default : String) (held : Option String) (rs : List Request) : List String :=
  switches (initial default held rs) (choices rs)

theorem choices_append (rs rs' : List Request) : choices (rs ++ rs') = choices rs ++ choices rs' :=
  List.filterMap_append

def Alone (rs : List Request) : Prop := ∀ r ∈ rs, r.written? = none

instance (rs : List Request) : Decidable (Alone rs) :=
  inferInstanceAs (Decidable (∀ r ∈ rs, r.written? = none))

theorem alone_cons {r : Request} {rs : List Request} :
    Alone (r :: rs) ↔ r.written? = none ∧ Alone rs := List.forall_mem_cons

theorem alone_append {rs rs' : List Request} : Alone (rs ++ rs') ↔ Alone rs ∧ Alone rs' :=
  List.forall_mem_append

theorem lastWritten?_of_alone {rs : List Request} (h : Alone rs) : lastWritten? rs = none := by
  rw [lastWritten?, List.filterMap_eq_nil_iff.2 h]
  rfl

theorem not_isUse_of_not_isUsed {rs : List Request} (h : isUsed rs = false) :
    ∀ r ∈ rs, r.isUse = false := fun r hr => by simpa using List.any_eq_false.1 h r hr

theorem choices_of_not_isUsed {rs : List Request} (h : isUsed rs = false) : choices rs = [] :=
  List.filterMap_eq_nil_iff.2 fun r hr => chosen?_of_not_isUse (not_isUse_of_not_isUsed h r hr)

theorem isUsed_beforeUse (rs : List Request) : isUsed (beforeUse rs) = false := by
  rw [isUsed, List.any_eq_false]
  intro r hr hused
  have hnot := List.all_eq_true.1 List.all_takeWhile r hr
  rw [hused] at hnot
  cases hnot

theorem beforeUse_append_fromUse (rs : List Request) : beforeUse rs ++ fromUse rs = rs :=
  List.takeWhile_append_dropWhile

theorem choices_fromUse (rs : List Request) : choices (fromUse rs) = choices rs := by
  have h := choices_append (beforeUse rs) (fromUse rs)
  rw [beforeUse_append_fromUse, choices_of_not_isUsed (isUsed_beforeUse rs), List.nil_append] at h
  exact h.symm

theorem beforeUse_append {rs : List Request} (h : isUsed rs = true) (rs' : List Request) :
    beforeUse (rs ++ rs') = beforeUse rs := by
  induction rs with
  | nil => cases h
  | cons r rs ih =>
    by_cases hr : r.isUse = true
    · simp [beforeUse, hr]
    · have hrs : isUsed rs = true := by simpa [isUsed, hr] using h
      simpa [beforeUse, hr] using ih hrs

theorem exists_fromUse_eq_cons {rs : List Request} (h : isUsed rs = true) :
    ∃ r rest, r.isUse = true ∧ fromUse rs = r :: rest := by
  induction rs with
  | nil => cases h
  | cons r rs ih =>
    by_cases hr : r.isUse = true
    · exact ⟨r, rs, hr, by simp [fromUse, hr]⟩
    · have hrs : isUsed rs = true := by simpa [isUsed, hr] using h
      obtain ⟨r', rest, hr', hrest⟩ := ih hrs
      exact ⟨r', rest, hr', by simpa [fromUse, hr] using hrest⟩

namespace World

def opened (default : String) (held : Option String) : World := ⟨.start default, ⟨held⟩, []⟩

theorem run_cons (w : World) (r : Request) (rs : List Request) :
    w.run (r :: rs) = (w.serve r).2.run rs := rfl

theorem run_append (w : World) (rs rs' : List Request) : w.run (rs ++ rs') = (w.run rs).run rs' :=
  List.foldl_append

theorem run_of_not_isUsed (w : World) {rs : List Request} (h : isUsed rs = false) :
    w.run rs = { w with store := ⟨(lastWritten? rs).or w.store.held⟩ } := by
  induction rs generalizing w with
  | nil => rfl
  | cons r rs ih =>
    obtain ⟨hr, hrs⟩ : r.isUse = false ∧ isUsed rs = false := by simpa [isUsed] using h
    rw [run_cons, ih _ hrs]
    cases r with
    | writeStore language =>
      have hlast : lastWritten? (.writeStore language :: rs) =
          some ((lastWritten? rs).getD language) := List.getLast?_cons
      rw [hlast]
      cases lastWritten? rs <;> simp [serve]
    | readStore => rfl
    | current => cases hr
    | change language => cases hr
    | row t => cases hr

theorem serve_activate (w : World) {r : Request} (hr : r.isUse = true) :
    (w.activate.2.serve r).2 = (w.serve r).2 := by
  obtain ⟨⟨default, active, changes⟩, store, calls⟩ := w
  cases active with
  | some language => rfl
  | none =>
    cases r with
    | writeStore language => cases hr
    | readStore => cases hr
    | _ => rfl

theorem change_of_active (default a : String) (changes : UInt64) (store : Store)
    (calls : List StoreCall) (language : String) :
    change language ⟨⟨default, some a, changes⟩, store, calls⟩ =
      if a = language then ⟨⟨default, some a, changes⟩, store, calls⟩
      else ⟨⟨default, some language, changes + 1⟩, ⟨some language⟩,
        calls ++ [.save language]⟩ := rfl

/-- With an active language only the changes asked for matter, and the store holds what was saved
last if no one else writes into it. -/
theorem run_of_active (default a : String) (changes : UInt64) (store : Store)
    (calls : List StoreCall) (rs : List Request) :
    ∃ store', run ⟨⟨default, some a, changes⟩, store, calls⟩ rs =
        ⟨⟨default, some ((choices rs).getLast?.getD a),
            changes + .ofNat (switches a (choices rs)).length⟩,
          store', calls ++ (switches a (choices rs)).map .save⟩ ∧
      (Alone rs → store'.held = (switches a (choices rs)).getLast?.or store.held) := by
  induction rs generalizing a changes store calls with
  | nil => exact ⟨store, by simp [run, choices, switches]⟩
  | cons r rs ih =>
    rw [run_cons, alone_cons]
    cases r with
    | current | row _ | readStore =>
      obtain ⟨store', hrun, hheld⟩ := ih a changes store calls
      exact ⟨store', hrun, fun h => hheld h.2⟩
    | writeStore language =>
      obtain ⟨store', hrun, -⟩ := ih a changes ⟨some language⟩ calls
      exact ⟨store', hrun, fun h => by cases h.1⟩
    | change language =>
      have hchoices : choices (.change language :: rs) = language :: choices rs := rfl
      simp only [serve, hchoices, List.getLast?_cons, Option.getD_some, switches, change_of_active]
      split
      · next heq =>
        obtain rfl := heq
        obtain ⟨store', hrun, hheld⟩ := ih a changes store calls
        exact ⟨store', hrun, fun h => hheld h.2⟩
      · obtain ⟨store', hrun, hheld⟩ :=
          ih language (changes + 1) ⟨some language⟩ (calls ++ [.save language])
        refine ⟨store', hrun.trans ?_, fun h => ?_⟩
        · simp [UInt64.add_assoc, UInt64.add_comm 1]
        · rw [hheld h.2, List.getLast?_cons]
          cases (switches language (choices rs)).getLast? <;> rfl

theorem run_of_isUsed (default : String) (held : Option String) {rs : List Request}
    (h : isUsed rs = true) : ∃ store, (opened default held).run rs =
        ⟨⟨default, some (activeAfter default held rs), .ofNat (saves default held rs).length⟩,
          store, .load :: (saves default held rs).map .save⟩ ∧
      (Alone rs → store.held = (saves default held rs).getLast?.or held) := by
  obtain ⟨r, rest, hr, hfrom⟩ := exists_fromUse_eq_cons h
  have hsplit : (opened default held).run rs =
      run ⟨⟨default, some (initial default held rs), 0⟩, ⟨(lastWritten? (beforeUse rs)).or held⟩,
        [.load]⟩ (fromUse rs) := by
    conv_lhs => rw [← beforeUse_append_fromUse rs]
    rw [run_append, run_of_not_isUsed _ (isUsed_beforeUse rs), hfrom, run_cons, run_cons,
      ← serve_activate _ hr]
    rfl
  obtain ⟨store, hrun, hheld⟩ := run_of_active default (initial default held rs) 0
    ⟨(lastWritten? (beforeUse rs)).or held⟩ [.load] (fromUse rs)
  rw [choices_fromUse] at hrun hheld
  refine ⟨store, hsplit.trans (hrun.trans ?_), fun halone => ?_⟩
  · simp [activeAfter, saves]
  · obtain ⟨hbefore, hfromUse⟩ := alone_append.1 ((beforeUse_append_fromUse rs).symm ▸ halone)
    rw [hheld hfromUse, lastWritten?_of_alone hbefore]
    rfl

theorem run_concat_of_chosen?_eq_none (w : World) {rs : List Request} {r : Request}
    (hr : r.isUse = true) (hnone : r.chosen? = none) :
    w.run (rs ++ [r]) = (w.run rs).activate.2 := by
  rw [run_append]
  cases r with
  | current | row _ => rfl
  | change language => cases hnone
  | writeStore language => cases hr
  | readStore => cases hr

theorem active_activate (w : World) : w.activate.2.session.active = some w.activate.1 := by
  obtain ⟨⟨default, active, changes⟩, store, calls⟩ := w
  cases active <;> rfl

theorem active_run (default : String) (held : Option String) {rs : List Request}
    (h : isUsed rs = true) :
    ((opened default held).run rs).session.active = some (activeAfter default held rs) := by
  obtain ⟨store, hrun, -⟩ := run_of_isUsed default held h
  rw [hrun]

theorem activate_run (default : String) (held : Option String) (rs : List Request) {r : Request}
    (hr : r.isUse = true) (hnone : r.chosen? = none) :
    ((opened default held).run rs).activate.1 = activeAfter default held (rs ++ [r]) := by
  have hused : isUsed (rs ++ [r]) = true := by simp [isUsed, hr]
  have hactive := active_run default held hused
  rw [run_concat_of_chosen?_eq_none _ hr hnone, active_activate] at hactive
  exact Option.some.inj hactive

end World

open World

theorem countP_isSave (languages : List String) :
    (languages.map StoreCall.save).countP StoreCall.isSave = languages.length := by
  rw [List.countP_map, List.countP_eq_length]
  exact fun _ _ => rfl

theorem changes_run (default : String) (held : Option String) (rs : List Request) :
    ((opened default held).run rs).session.changes =
      .ofNat (((opened default held).run rs).calls.countP StoreCall.isSave) := by
  cases h : isUsed rs with
  | false =>
    rw [run_of_not_isUsed _ h]
    rfl
  | true =>
    obtain ⟨store, hrun, -⟩ := run_of_isUsed default held h
    rw [hrun, List.countP_cons_of_neg (by simp [StoreCall.isSave]), countP_isSave]

structure Lifecycle (default : String) (held : Option String) (rs : List Request) : Prop where
  unused : isUsed rs = false → ((opened default held).run rs).session = .start default ∧
    ((opened default held).run rs).calls = []
  /-- It begins with what the store holds at the first use. -/
  initial_eq : initial default held rs =
    ((opened default held).run (beforeUse rs)).store.held.getD default
  active : isUsed rs = true →
    ((opened default held).run rs).session.active = some (activeAfter default held rs)
  current : (((opened default held).run rs).serve .current).1 =
    .language (activeAfter default held (rs ++ [.current]))
  row : ∀ t, (((opened default held).run rs).serve (.row t)).1 =
    .row (t.rowFor (activeAfter default held (rs ++ [.row t])))
  /-- There is one load, and it comes before all saves. -/
  calls : isUsed rs = true →
    ((opened default held).run rs).calls = .load :: (saves default held rs).map .save
  /-- A change to the active language does no more than a look at it. -/
  change_same : ∀ language, activeAfter default held (rs ++ [.current]) = language →
    (opened default held).run (rs ++ [.change language]) =
      (opened default held).run (rs ++ [.current])
  change_other : ∀ language, activeAfter default held (rs ++ [.current]) ≠ language →
    let w := (opened default held).run (rs ++ [.current])
    (opened default held).run (rs ++ [.change language]) =
      ⟨⟨w.session.default, some language, w.session.changes + 1⟩, ⟨some language⟩,
        w.calls ++ [.save language]⟩
  counted : ((opened default held).run rs).session.changes =
    .ofNat (((opened default held).run rs).calls.countP StoreCall.isSave)
  generation : ((opened default held).run rs).calls.countP StoreCall.isSave < UInt64.size →
    ((opened default held).run rs).session.generation =
      ((opened default held).run rs).calls.countP StoreCall.isSave
  /-- What others write after the first use is not noticed. -/
  undisturbed : ∀ before after language, rs = before ++ after → isUsed before = true →
    ((opened default held).run (before ++ .writeStore language :: after)).session =
        ((opened default held).run rs).session ∧
      ((opened default held).run (before ++ .writeStore language :: after)).calls =
        ((opened default held).run rs).calls

theorem lifecycle_run (default : String) (held : Option String) (rs : List Request) :
    Lifecycle default held rs := by
  constructor
  case unused =>
    intro h
    rw [run_of_not_isUsed _ h]
    exact ⟨rfl, rfl⟩
  case initial_eq =>
    rw [run_of_not_isUsed _ (isUsed_beforeUse rs)]
    rfl
  case active => exact active_run default held
  case current =>
    rw [← activate_run default held rs rfl rfl]
    rfl
  case row =>
    intro t
    rw [← activate_run default held rs rfl rfl]
    rfl
  case calls =>
    intro h
    obtain ⟨store, hrun, -⟩ := run_of_isUsed default held h
    rw [hrun]
  case change_same =>
    intro language heq
    rw [← activate_run default held rs rfl rfl] at heq
    rw [run_concat_of_chosen?_eq_none (r := .current) _ rfl rfl, run_append]
    exact if_pos heq
  case change_other =>
    intro language hne
    rw [← activate_run default held rs rfl rfl] at hne
    rw [run_concat_of_chosen?_eq_none (r := .current) _ rfl rfl, run_append]
    exact if_neg hne
  case counted => exact changes_run default held rs
  case generation =>
    intro h
    rw [Session.generation, changes_run, UInt64.toNat_ofNat_of_lt' h]
  case undisturbed =>
    rintro before after language rfl h
    have hused : isUsed (before ++ after) = true := by simp_all [isUsed]
    have hused' : isUsed (before ++ .writeStore language :: after) = true := by simp_all [isUsed]
    have hchoices : choices (before ++ .writeStore language :: after) =
        choices (before ++ after) := by
      rw [choices_append, choices_append]
      rfl
    obtain ⟨store, hrun, -⟩ := run_of_isUsed default held hused
    obtain ⟨store', hrun', -⟩ := run_of_isUsed default held hused'
    rw [hrun, hrun']
    simp only [activeAfter, saves, initial, hchoices, beforeUse_append h, and_self]

/-- The store held a language, or one that is not the default has been chosen. -/
def Persists (default : String) (held : Option String) (languages : List String) : Prop :=
  held.isSome = true ∨ ∃ language ∈ languages, language ≠ default

instance (default : String) (held : Option String) (languages : List String) :
    Decidable (Persists default held languages) := inferInstanceAs (Decidable (_ ∨ _))

theorem switches_eq_nil_iff {active : String} {languages : List String} :
    switches active languages = [] ↔ ∀ language ∈ languages, language = active := by
  induction languages with
  | nil => simp [switches]
  | cons language languages ih =>
    rw [switches, List.forall_mem_cons]
    split
    · next h => rw [ih, and_iff_right h.symm]
    · next h => simp [Ne.symm h]

theorem getLast?_switches (active : String) (languages : List String) :
    (switches active languages).getLast?.getD active = languages.getLast?.getD active := by
  induction languages generalizing active with
  | nil => rfl
  | cons language languages ih =>
    rw [switches, List.getLast?_cons, Option.getD_some]
    split
    · next h => exact h ▸ ih active
    · rw [List.getLast?_cons, Option.getD_some]
      exact ih language

theorem initial_of_alone (default : String) (held : Option String) {rs : List Request}
    (h : Alone rs) : initial default held rs = held.getD default := by
  have hbefore := (alone_append.1 ((beforeUse_append_fromUse rs).symm ▸ h)).1
  rw [initial, lastWritten?_of_alone hbefore, Option.none_or]

theorem held_run_change (default : String) (held : Option String) {rs : List Request}
    (h : Alone rs) (language : String) :
    ((opened default held).run (rs ++ [.change language])).store.held =
      (switches (held.getD default) (choices rs ++ [language])).getLast?.or held := by
  have halone : Alone (rs ++ [.change language]) := alone_append.2 ⟨h, alone_cons.2 ⟨rfl, nofun⟩⟩
  have hused : isUsed (rs ++ [.change language]) = true := by simp [isUsed, Request.isUse]
  obtain ⟨store, hrun, hheld⟩ := run_of_isUsed default held hused
  rw [hrun, hheld halone, saves, initial_of_alone default held halone, choices_append]
  rfl

/-- A session with no other writer keeps the language that is chosen, unless the store was empty and
only the default has been chosen: then the store stays empty, and the next session begins with its
own default. -/
theorem store_after_change (default : String) (held : Option String) (rs : List Request)
    (h : Alone rs) (language : String) :
    let store := ((opened default held).run (rs ++ [.change language])).store
    (Persists default held (choices rs ++ [language]) → store.held = some language ∧
      ∀ other, ((opened other store.held).serve .current).1 = .language language) ∧
    (¬Persists default held (choices rs ++ [language]) → store.held = none ∧
      ∀ other, ((opened other store.held).serve .current).1 = .language other) := by
  intro store
  have hstore : store.held = _ := held_run_change default held h language
  have hlast := getLast?_switches (held.getD default) (choices rs ++ [language])
  rw [List.getLast?_concat, Option.getD_some] at hlast
  constructor
  · intro hpersists
    have hheld : store.held = some language := by
      rw [hstore]
      cases hswitch : (switches (held.getD default) (choices rs ++ [language])).getLast? with
      | some last =>
        rw [hswitch] at hlast
        exact congrArg some hlast
      | none =>
        rw [hswitch] at hlast
        cases held with
        | some found => exact congrArg some hlast
        | none =>
          obtain ⟨other, hother, hne⟩ := hpersists.resolve_left (by simp)
          have hnil := List.getLast?_eq_none_iff.1 hswitch
          exact absurd (switches_eq_nil_iff.1 hnil other hother) hne
    rw [hheld]
    exact ⟨rfl, fun _ => rfl⟩
  · intro hnot
    obtain ⟨hnone, hall⟩ := not_or.1 hnot
    obtain rfl : held = none := by simpa using hnone
    have hswitches : switches default (choices rs ++ [language]) = [] :=
      switches_eq_nil_iff.2 fun other hother => by_contra fun hne => hall ⟨other, hother, hne⟩
    have hheld : store.held = none := by
      rw [hstore, Option.getD_none, hswitches]
      rfl
    rw [hheld]
    exact ⟨rfl, fun _ => rfl⟩

theorem store_after_change_default :
    Alone [.change "fr"] ∧ Persists "en" none ["fr", "en"] ∧
      ((opened "en" none).run [.change "fr", .change "en"]).store.held = some "en" ∧
      Alone [.current] ∧ ¬Persists "en" none ["en"] ∧
      ((opened "en" none).run [.current, .change "en"]).store.held = none ∧
      ((opened "de" none).serve .current).1 = .language "de" := by
  have hleft : Persists "en" none ["fr", "en"] := by decide
  have hnever : ¬Persists "en" none ["en"] := by decide
  obtain ⟨hkept, -⟩ := (store_after_change "en" none [.change "fr"] (by decide) "en").1 hleft
  obtain ⟨hlost, hnext⟩ := (store_after_change "en" none [.current] (by decide) "en").2 hnever
  exact ⟨by decide, hleft, hkept, by decide, hnever, hlost, hlost ▸ hnext "de"⟩

theorem exists_choice_not_kept : ¬∀ (default : String) (held : Option String) (rs : List Request)
    (language : String), Alone rs →
      ((opened default held).run (rs ++ [.change language])).store.held = some language := by
  intro h
  have hheld := h "en" none [] "en" (by decide)
  revert hheld
  decide

end Session

end Phrasebook
