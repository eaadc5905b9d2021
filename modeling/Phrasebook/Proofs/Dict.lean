import Mathlib.Data.List.Forall2
import Phrasebook.Dict

universe u v w

namespace Phrasebook.Dict

variable {α : Type u} {β : Type v}

theorem mem_iff_lookup {l : List (String × α)} (h : l.Pairwise (fun p q => p.1 < q.1))
    {k : String} {v : α} : (k, v) ∈ l ↔ l.lookup k = some v := by
  induction l with
  | nil => simp
  | cons p l ih =>
    obtain ⟨hp, hl⟩ := List.pairwise_cons.1 h
    rw [List.mem_cons, lookup_cons_eq_ite, ih hl]
    by_cases hk : k = p.1
    · rw [if_pos hk]
      constructor
      · rintro (rfl | hmem)
        · rfl
        · exact absurd hk (String.ne_of_lt (hp _ ((ih hl).2 hmem))).symm
      · intro hv
        apply Or.inl
        rw [hk, ← Option.some.inj hv]
    · rw [if_neg hk]
      constructor
      · rintro (rfl | hmem)
        · exact absurd rfl hk
        · exact hmem
      · exact .inr

theorem mem_toList_iff {d : Dict α} {k : String} {v : α} :
    (k, v) ∈ d.toList ↔ d.get? k = some v := mem_iff_lookup d.ascending

theorem mem_keys_iff {d : Dict α} {k : String} : k ∈ d.keys ↔ ∃ v, d.get? k = some v := by
  simp only [keys, List.mem_map, Prod.exists, mem_toList_iff]
  constructor
  · rintro ⟨_, v, hv, rfl⟩
    exact ⟨v, hv⟩
  · rintro ⟨v, hv⟩
    exact ⟨k, v, hv, rfl⟩

theorem mem_values_iff {d : Dict α} {v : α} : v ∈ d.values ↔ ∃ k, d.get? k = some v := by
  simp only [values, List.mem_map, Prod.exists, mem_toList_iff, exists_eq_right]

theorem mem_keys_insert {d : Dict α} {k j : String} {v : α} :
    j ∈ (d.insert k v).keys ↔ j = k ∨ j ∈ d.keys := by
  simp only [mem_keys_iff, get?_insert]
  by_cases h : j = k <;> simp [h]

theorem ascending_keys (d : Dict α) : d.keys.Pairwise (· < ·) := List.pairwise_map.2 d.ascending

theorem getElem?_values {d : Dict α} {i : Nat} {k : String} (h : d.keys[i]? = some k) :
    d.values[i]? = d.get? k := by
  rw [keys, List.getElem?_map, Option.map_eq_some_iff] at h
  obtain ⟨⟨_, v⟩, hpair, rfl⟩ := h
  rw [values, List.getElem?_map, hpair, Option.map_some]
  exact (mem_toList_iff.1 (List.mem_of_getElem? hpair)).symm

theorem get?_filter (d : Dict α) (p : String → α → Bool) (k : String) :
    (d.filter p).get? k = (d.get? k).filter (p k) := by
  apply Option.ext
  intro v
  rw [← mem_toList_iff, Option.filter_eq_some_iff, ← mem_toList_iff]
  exact List.mem_filter

theorem get?_erase (d : Dict α) (k j : String) :
    (d.erase k).get? j = if j = k then none else d.get? j := by
  rw [erase, get?_filter]
  by_cases h : j = k
  · simp [h]
  · rw [if_neg h]
    cases d.get? j <;> simp [h]

theorem get?_mapValues (f : String → α → β) (d : Dict α) (k : String) :
    (d.mapValues f).get? k = (d.get? k).map (f k) := by
  apply Option.ext
  intro v
  rw [← mem_toList_iff, Option.map_eq_some_iff]
  simp only [mapValues, List.mem_map, Prod.mk.injEq, Prod.exists, mem_toList_iff]
  constructor
  · rintro ⟨_, a, ha, rfl, hv⟩
    exact ⟨a, ha, hv⟩
  · rintro ⟨a, ha, hv⟩
    exact ⟨k, a, ha, rfl, hv⟩

theorem get?_filterMap (f : String → α → Option β) (d : Dict α) (k : String) :
    (d.filterMap f).get? k = (d.get? k).bind (f k) := by
  apply Option.ext
  intro v
  rw [← mem_toList_iff, Option.bind_eq_some_iff]
  simp only [filterMap, List.mem_filterMap, Option.map_eq_some_iff, Prod.mk.injEq, Prod.exists,
    mem_toList_iff]
  constructor
  · rintro ⟨_, a, ha, _, hv, rfl, rfl⟩
    exact ⟨a, ha, hv⟩
  · rintro ⟨a, ha, hv⟩
    exact ⟨k, a, ha, v, hv, rfl, rfl⟩

theorem keys_filterMap_sublist (f : String → α → Option β) (d : Dict α) :
    (d.filterMap f).keys.Sublist d.keys := by
  change ((d.toList.filterMap fun p => (f p.1 p.2).map ((p.1, ·))).map (·.1)).Sublist
    (d.toList.map (·.1))
  generalize d.toList = l
  induction l with
  | nil => exact .slnil
  | cons p l ih =>
    rw [List.filterMap_cons]
    cases f p.1 p.2 with
    | none => exact ih.cons _
    | some b => exact ih.cons_cons _

theorem get?_foldl_insert {l : List (String × α)} (h : (l.map (·.1)).Nodup) (d : Dict α)
    {k : String} {v : α} : (l.foldl (fun d p => d.insert p.1 p.2) d).get? k = some v ↔
      (k, v) ∈ l ∨ k ∉ l.map (·.1) ∧ d.get? k = some v := by
  induction l generalizing d with
  | nil => simp
  | cons p l ih =>
    obtain ⟨j, w⟩ := p
    obtain ⟨hj, hl⟩ := List.nodup_cons.1 h
    rw [List.foldl_cons, ih hl, get?_insert, List.mem_cons, List.map_cons, List.mem_cons]
    by_cases hk : k = j
    · subst hk
      have hmem : (k, v) ∉ l := fun hmem => hj (List.mem_map.2 ⟨_, hmem, rfl⟩)
      simp [hmem, hj, eq_comm]
    · simp [hk]

theorem get?_ofList {l : List (String × α)} (h : (l.map (·.1)).Nodup) {k : String} {v : α} :
    (ofList l).get? k = some v ↔ (k, v) ∈ l := by
  rw [ofList, get?_foldl_insert h]
  simp

theorem nodup_toList (d : Dict α) : d.toList.Nodup :=
  d.ascending.imp fun hlt heq => String.ne_of_lt hlt (congrArg Prod.fst heq)

theorem ext_get? {d e : Dict α} (h : ∀ k, d.get? k = e.get? k) : d = e := by
  have hmem : ∀ p : String × α, p ∈ d.toList ↔ p ∈ e.toList := by
    rintro ⟨k, v⟩
    rw [mem_toList_iff, mem_toList_iff, h k]
  have hlist : d.toList = e.toList :=
    ((List.perm_ext_iff_of_nodup d.nodup_toList e.nodup_toList).2 hmem).eq_of_pairwise
      (fun _ _ _ _ hlt hgt => absurd hgt (String.lt_asymm hlt)) d.ascending e.ascending
  obtain ⟨l, hl⟩ := d
  obtain ⟨l', hl'⟩ := e
  obtain rfl : l = l' := hlist
  rfl

theorem find?_toList {d : Dict α} {p : String × α → Bool} {k : String} {v : α}
    (h : d.toList.find? p = some (k, v)) :
    d.get? k = some v ∧ p (k, v) = true ∧
      ∀ j w, d.get? j = some w → p (j, w) = true → k ≤ j := by
  obtain ⟨hp, before, behind, hlist, hbefore⟩ := List.find?_eq_some_iff_append.1 h
  have hascending := d.ascending
  refine ⟨mem_toList_iff.1 (hlist ▸ List.mem_append_right _ List.mem_cons_self), hp, ?_⟩
  intro j w hj hjp
  have hmem := mem_toList_iff.2 hj
  rw [hlist] at hmem hascending
  obtain ⟨-, hbehind, -⟩ := List.pairwise_append.1 hascending
  rcases List.mem_append.1 hmem with hmem | hmem
  · exact absurd (hbefore _ hmem) (by simp [hjp])
  · rcases List.mem_cons.1 hmem with heq | hmem
    · cases heq
      exact String.le_refl k
    · exact String.not_lt.1 (String.lt_asymm ((List.pairwise_cons.1 hbehind).1 _ hmem))

theorem filter_mapValues (f : String → α → β) (p : String → Bool) (d : Dict α) :
    ((d.mapValues f).filter fun k _ => p k) = (d.filter fun k _ => p k).mapValues f := by
  apply ext_get?
  intro k
  rw [get?_filter, get?_mapValues, get?_mapValues, get?_filter]
  cases d.get? k with
  | none => rfl
  | some v => by_cases h : p k = true <;> simp [Option.filter_some, h]

theorem exists_of_forall₂ {R : String × α → β → Prop} {d : Dict α} {vs : List β}
    (h : List.Forall₂ R d.toList vs) : ∃ e : Dict β, e.keys = d.keys ∧ e.values = vs ∧
      ∀ {k a b}, d.get? k = some a → e.get? k = some b → R (k, a) b := by
  have hlength : d.keys.length = vs.length := (List.length_map _).trans h.length_eq
  have hkeys : (d.keys.zip vs).map Prod.fst = d.keys := List.map_fst_zip (Nat.le_of_eq hlength)
  have hvalues : (d.keys.zip vs).map Prod.snd = vs := List.map_snd_zip (Nat.le_of_eq hlength.symm)
  have hascending : (d.keys.zip vs).Pairwise fun p q => p.1 < q.1 :=
    List.pairwise_map.1 (hkeys.symm ▸ d.ascending_keys)
  refine ⟨⟨_, hascending⟩, hkeys, hvalues, ?_⟩
  intro k a b ha hb
  have hpair : ((k, a), b) ∈ d.toList.zip vs := by
    obtain ⟨i, hi⟩ := List.getElem?_of_mem (mem_toList_iff.2 hb)
    obtain ⟨hkey, hvalue⟩ := List.getElem?_zip_eq_some.1 hi
    obtain ⟨⟨_, a'⟩, hpair, rfl⟩ :=
      Option.map_eq_some_iff.1 ((List.getElem?_map ..).symm.trans hkey)
    obtain rfl : a' = a :=
      Option.some.inj ((mem_toList_iff.1 (List.mem_of_getElem? hpair)).symm.trans ha)
    exact List.mem_of_getElem? (List.getElem?_zip_eq_some.2 ⟨hpair, hvalue⟩)
  exact (List.forall₂_iff_zip.1 h).2 hpair

theorem forall₂_of_keys {R : String × α → String × β → Prop} {d : Dict α} {e : Dict β}
    (hkeys : e.keys = d.keys)
    (h : ∀ {k a b}, d.get? k = some a → e.get? k = some b → R (k, a) (k, b)) :
    List.Forall₂ R d.toList e.toList := by
  have hlength : d.toList.length = e.toList.length :=
    (List.length_map _).symm.trans ((congrArg List.length hkeys.symm).trans (List.length_map _))
  refine List.forall₂_iff_zip.2 ⟨hlength, ?_⟩
  rintro ⟨k, a⟩ ⟨j, b⟩ hpair
  obtain ⟨i, hi⟩ := List.getElem?_of_mem hpair
  obtain ⟨ha, hb⟩ := List.getElem?_zip_eq_some.1 hi
  have hj : e.keys[i]? = some j := (List.getElem?_map ..).trans (hb ▸ rfl)
  have hk : d.keys[i]? = some k := (List.getElem?_map ..).trans (ha ▸ rfl)
  obtain rfl : k = j := Option.some.inj (hk.symm.trans (hkeys ▸ hj))
  exact h (mem_toList_iff.1 (List.mem_of_getElem? ha)) (mem_toList_iff.1 (List.mem_of_getElem? hb))

def Related (R : α → β → Prop) (d : Dict α) (e : Dict β) : Prop :=
  List.Forall₂ (fun p q => p.1 = q.1 ∧ R p.2 q.2) d.toList e.toList

section

variable {R : α → β → Prop}

theorem forall₂_place {l : List (String × α)} {l' : List (String × β)}
    (h : List.Forall₂ (fun p q => p.1 = q.1 ∧ R p.2 q.2) l l') (k : String) {a : α} {b : β}
    (hab : R a b) :
    List.Forall₂ (fun p q => p.1 = q.1 ∧ R p.2 q.2) (place k a l) (place k b l') := by
  induction h with
  | nil => exact .cons ⟨rfl, hab⟩ .nil
  | cons hpq hrest ih =>
    unfold place
    rw [hpq.1]
    split
    · exact .cons ⟨rfl, hab⟩ (.cons hpq hrest)
    · split
      · exact .cons ⟨rfl, hab⟩ hrest
      · exact .cons hpq ih

theorem rel_lookup {l : List (String × α)} {l' : List (String × β)}
    (h : List.Forall₂ (fun p q => p.1 = q.1 ∧ R p.2 q.2) l l') (k : String) :
    Option.Rel R (l.lookup k) (l'.lookup k) := by
  induction h with
  | nil => exact .none
  | cons hpq _ ih =>
    rw [lookup_cons_eq_ite, lookup_cons_eq_ite, hpq.1]
    split
    · exact .some hpq.2
    · exact ih

variable {d : Dict α} {e : Dict β} (h : Related R d e)

include h

theorem Related.get? (k : String) : Option.Rel R (d.get? k) (e.get? k) := rel_lookup h k

theorem Related.insert (k : String) {a : α} {b : β} (hab : R a b) :
    Related R (d.insert k a) (e.insert k b) := forall₂_place h k hab

theorem Related.filter (keep : String → Bool) :
    Related R (d.filter fun k _ => keep k) (e.filter fun k _ => keep k) := by
  refine List.rel_filter ?_ h
  intro p q hpq
  change keep p.1 = true ↔ keep q.1 = true
  rw [hpq.1]

theorem Related.map_toList {γ : Type w} {f : String × α → γ} {g : String × β → γ}
    (hfg : ∀ k a b, R a b → f (k, a) = g (k, b)) : d.toList.map f = e.toList.map g := by
  rw [← List.forall₂_eq_eq_eq]
  refine List.rel_map ?_ h
  rintro ⟨k, a⟩ ⟨_, b⟩ ⟨rfl, hab⟩
  exact hfg k a b hab

end

end Phrasebook.Dict
