import Mathlib.Data.List.Nodup
import Mathlib.Data.List.Perm.Basic
import Mathlib.Data.List.ReduceOption
import Phrasebook.Compile.Task

universe u v

namespace Phrasebook.Compile

variable {α : Type u} {β : Type v}

def tagged (l : String × List α) : List (String × α) := l.2.map (l.1, ·)

def shown (name : String) (l : String × List α) : String × List α :=
  (l.1, if l.1 = name then l.2.take 1 else [])

def hidden (name : String) (l : String × List α) : String × List α :=
  (l.1, if l.1 = name then l.2.drop 1 else l.2)

theorem hidden_of_ne {name : String} {l : String × List α} (h : l.1 ≠ name) :
    hidden name l = l := by
  rw [hidden, if_neg h]

/-- What the types do, one list for each of them, as the turns of a schedule mix it. -/
def weave : Schedule → List (String × List α) → List (String × α)
  | [], ls => ls.flatMap tagged
  | name :: names, ls => (ls.map (shown name)).flatMap tagged ++ weave names (ls.map (hidden name))

/-- What is left of the weave without the silent steps. -/
def woven (schedule : Schedule) (ls : List (String × List (Option α))) : List (String × α) :=
  (weave schedule ls).filterMap fun x => x.2.map (x.1, ·)

theorem map_snd_tagged (l : String × List α) : (tagged l).map (·.2) = l.2 := by
  rw [tagged, List.map_map]
  exact List.map_id' _

theorem tagged_shown_hidden (name : String) (l : String × List α) :
    tagged (shown name l) ++ tagged (hidden name l) = tagged l := by
  by_cases hname : l.1 = name
  · simp only [shown, hidden, tagged, if_pos hname, ← List.map_append, List.take_append_drop]
  · simp only [shown, hidden, tagged, if_neg hname]
    rfl

theorem filter_tagged (p : String → Bool) (l : String × List α) :
    (tagged l).filter (fun x => p x.1) = if p l.1 then tagged l else [] := by
  rw [tagged, List.filter_map]
  by_cases hp : p l.1 = true
  · rw [if_pos hp]
    exact congrArg _ (List.filter_eq_self.2 fun _ _ => hp)
  · rw [if_neg hp, List.map_eq_nil_iff]
    exact List.filter_eq_nil_iff.2 fun _ _ => hp

theorem filter_flatMap_tagged (p : String → Bool) (ls : List (String × List α)) :
    (ls.flatMap tagged).filter (fun x => p x.1) = (ls.filter fun l => p l.1).flatMap tagged := by
  induction ls with
  | nil => rfl
  | cons l ls ih =>
    rw [List.flatMap_cons, List.filter_append, filter_tagged, ih]
    by_cases hp : p l.1 = true
    · rw [if_pos hp, List.filter_cons_of_pos (p := fun l : String × List α => p l.1) hp,
        List.flatMap_cons]
    · rw [if_neg hp, List.filter_cons_of_neg (p := fun l : String × List α => p l.1) hp,
        List.nil_append]

theorem filter_weave (p : String → Bool) (schedule : Schedule) (ls : List (String × List α)) :
    (weave schedule ls).filter (fun x => p x.1) = weave schedule (ls.filter fun l => p l.1) := by
  induction schedule generalizing ls with
  | nil => exact filter_flatMap_tagged p ls
  | cons name names ih =>
    rw [weave, weave, List.filter_append, filter_flatMap_tagged, ih, List.filter_map,
      List.filter_map]
    rfl

theorem map_weave (f : α → β) (schedule : Schedule) (ls : List (String × List α)) :
    (weave schedule ls).map (Prod.map id f) =
      weave schedule (ls.map (Prod.map id (List.map f))) := by
  have htagged (ls : List (String × List α)) : (ls.flatMap tagged).map (Prod.map id f) =
      (ls.map (Prod.map id (List.map f))).flatMap tagged := by
    simp [tagged, List.map_flatMap, List.flatMap_map, Function.comp_def]
  induction schedule generalizing ls with
  | nil => exact htagged ls
  | cons name names ih =>
    rw [weave, weave, List.map_append, htagged, ih, List.map_map, List.map_map, List.map_map,
      List.map_map]
    congr 3
    · funext l
      simp [shown, apply_ite (List.map f), List.map_take]
    · funext l
      simp [hidden, apply_ite (List.map f)]

theorem weave_singleton (schedule : Schedule) (l : String × List α) :
    weave schedule [l] = tagged l := by
  induction schedule generalizing l with
  | nil => exact List.flatMap_singleton _ _
  | cons name names ih =>
    rw [weave, List.map_singleton, List.map_singleton, List.flatMap_singleton, ih,
      tagged_shown_hidden]

/-- The order of the turns matters for nothing else but the order. -/
theorem perm_weave (schedule : Schedule) (ls : List (String × List α)) :
    (weave schedule ls).Perm (ls.flatMap tagged) := by
  induction schedule generalizing ls with
  | nil => exact .refl _
  | cons name names ih =>
    refine ((ih _).append_left _).trans ?_
    rw [List.flatMap_map, List.flatMap_map]
    refine (List.flatMap_append_perm ls _ _).trans (.of_eq ?_)
    exact congrArg ls.flatMap (funext (tagged_shown_hidden name))

theorem filter_woven (p : String → Bool) (schedule : Schedule)
    (ls : List (String × List (Option α))) : (woven schedule ls).filter (fun x => p x.1) =
      woven schedule (ls.filter fun l => p l.1) := by
  rw [woven, woven, ← filter_weave, List.filter_filterMap, List.filterMap_filter]
  apply List.filterMap_congr
  rintro ⟨name, a⟩ -
  cases a with
  | none => simp
  | some a => by_cases hp : p name = true <;> simp [hp]

theorem map_woven (f : α → β) (schedule : Schedule) (ls : List (String × List (Option α))) :
    (woven schedule ls).map (Prod.map id f) =
      woven schedule (ls.map (Prod.map id (List.map (Option.map f)))) := by
  rw [woven, woven, ← map_weave, List.map_filterMap, List.filterMap_map]
  apply List.filterMap_congr
  rintro ⟨name, a⟩ -
  cases a <;> rfl

theorem filterMap_tagged (l : String × List (Option α)) :
    (tagged l).filterMap (fun x => x.2.map (x.1, ·)) = tagged (l.1, l.2.reduceOption) := by
  rw [tagged, tagged, List.filterMap_map, List.reduceOption, List.map_filterMap]
  rfl

theorem perm_woven (schedule : Schedule) (ls : List (String × List (Option α))) :
    (woven schedule ls).Perm (ls.flatMap fun l => tagged (l.1, l.2.reduceOption)) := by
  refine ((perm_weave schedule ls).filterMap _).trans (.of_eq ?_)
  rw [List.filterMap_flatMap]
  exact congrArg ls.flatMap (funext filterMap_tagged)

theorem woven_perm_woven (schedule schedule' : Schedule) (ls : List (String × List (Option α))) :
    (woven schedule ls).Perm (woven schedule' ls) :=
  (perm_woven schedule ls).trans (perm_woven schedule' ls).symm

theorem map_snd_woven_cons (name : String) (names : Schedule)
    (ls : List (String × List (Option α))) : (woven (name :: names) ls).map (·.2) =
      (ls.flatMap fun l => (shown name l).2.reduceOption) ++
        (woven names (ls.map (hidden name))).map (·.2) := by
  rw [woven, weave, List.filterMap_append, List.map_append, List.filterMap_flatMap,
    List.flatMap_map, List.map_flatMap]
  refine congrArg (· ++ _) (congrArg ls.flatMap (funext fun l => ?_))
  rw [filterMap_tagged, map_snd_tagged]

theorem woven_inOrder (ls : List (String × List (Option α))) :
    woven .inOrder ls = ls.flatMap fun l => tagged (l.1, l.2.reduceOption) := by
  rw [woven, Schedule.inOrder, weave, List.filterMap_flatMap]
  exact congrArg ls.flatMap (funext filterMap_tagged)

theorem map_snd_woven_inOrder (ls : List (String × List (Option α))) :
    (woven .inOrder ls).map (·.2) = ls.flatMap (·.2.reduceOption) := by
  rw [woven_inOrder, List.map_flatMap]
  exact congrArg ls.flatMap (funext fun l => map_snd_tagged _)

theorem mem_woven {schedule : Schedule} {ls : List (String × List (Option α))} {x : String × α} :
    x ∈ woven schedule ls ↔ ∃ l ∈ ls, l.1 = x.1 ∧ some x.2 ∈ l.2 := by
  obtain ⟨name, a⟩ := x
  rw [(perm_woven schedule ls).mem_iff, List.mem_flatMap]
  refine exists_congr fun l => and_congr_right fun _ => ?_
  simp only [tagged, List.mem_map, List.reduceOption_mem_iff, Prod.mk.injEq]
  constructor
  · rintro ⟨_, hmem, rfl, rfl⟩
    exact ⟨rfl, hmem⟩
  · rintro ⟨rfl, hmem⟩
    exact ⟨a, hmem, rfl, rfl⟩

/-- Every type does what it does in its own order. -/
theorem filter_woven_name {ls : List (String × List (Option α))} (hnodup : (ls.map (·.1)).Nodup)
    {l : String × List (Option α)} (hl : l ∈ ls) (schedule : Schedule) :
    ((woven schedule ls).filter (·.1 = l.1)).map (·.2) = l.2.reduceOption := by
  have hone : ls.filter (fun l' => decide (l'.1 = l.1)) = [l] := by
    induction ls with
    | nil => cases hl
    | cons l' ls ih =>
      obtain ⟨hnone, hnodup⟩ := List.nodup_cons.1 hnodup
      rw [List.filter_cons]
      rcases List.mem_cons.1 hl with rfl | hl
      · rw [decide_eq_true rfl, if_pos rfl, List.filter_eq_nil_iff.2]
        intro other hother heq
        exact hnone (List.mem_map.2 ⟨other, hother, of_decide_eq_true heq⟩)
      · rw [decide_eq_false fun heq => hnone (List.mem_map.2 ⟨l, hl, heq.symm⟩), ih hnodup hl]
        rfl
  rw [filter_woven (fun name => decide (name = l.1)), hone, woven, weave_singleton,
    filterMap_tagged, map_snd_tagged]

end Phrasebook.Compile
