universe u v

namespace Phrasebook

structure Dict (α : Type u) where
  toList : List (String × α)
  ascending : toList.Pairwise (fun p q => p.1 < q.1)

namespace Dict

variable {α : Type u} {β : Type v}

theorem lt_of_not_lt_of_ne {a b : String} (h : ¬a < b) (hne : a ≠ b) : b < a :=
  String.not_le.1 fun h' => hne (String.le_antisymm h' (String.not_lt.1 h))

def place (k : String) (v : α) : List (String × α) → List (String × α)
  | [] => [(k, v)]
  | p :: l =>
    if k < p.1 then (k, v) :: p :: l else if k = p.1 then (k, v) :: l else p :: place k v l

theorem mem_place {k : String} {v : α} {p : String × α} {l : List (String × α)} :
    p ∈ place k v l → p = (k, v) ∨ p ∈ l := by
  induction l with
  | nil => simp [place]
  | cons q l ih =>
    simp only [place]
    split
    · simp
    · split
      · simp only [List.mem_cons]
        rintro (h | h)
        · exact .inl h
        · exact .inr (.inr h)
      · simp only [List.mem_cons]
        rintro (h | h)
        · exact .inr (.inl h)
        · exact (ih h).imp_right .inr

theorem pairwise_place (k : String) (v : α) {l : List (String × α)}
    (h : l.Pairwise (fun p q => p.1 < q.1)) : (place k v l).Pairwise (fun p q => p.1 < q.1) := by
  induction l with
  | nil => simp [place]
  | cons q l ih =>
    obtain ⟨hq, hl⟩ := List.pairwise_cons.1 h
    simp only [place]
    split
    next hlt =>
      refine List.pairwise_cons.2 ⟨fun p hp => ?_, h⟩
      rcases List.mem_cons.1 hp with rfl | hp
      · exact hlt
      · exact String.lt_trans hlt (hq p hp)
    next hlt =>
      split
      next heq => exact List.pairwise_cons.2 ⟨fun p hp => heq ▸ hq p hp, hl⟩
      next hne =>
        refine List.pairwise_cons.2 ⟨fun p hp => ?_, ih hl⟩
        rcases mem_place hp with rfl | hp
        · exact lt_of_not_lt_of_ne hlt hne
        · exact hq p hp

theorem lookup_cons_eq_ite (j : String) (p : String × α) (l : List (String × α)) :
    (p :: l).lookup j = if j = p.1 then some p.2 else l.lookup j := by
  obtain ⟨k, v⟩ := p
  by_cases h : j = k
  · simp [h]
  · simp [List.lookup_cons, h, beq_false_of_ne h]

theorem lookup_place (k j : String) (v : α) (l : List (String × α)) :
    (place k v l).lookup j = if j = k then some v else l.lookup j := by
  induction l with
  | nil => exact lookup_cons_eq_ite j (k, v) []
  | cons p l ih =>
    simp only [place]
    split
    next => exact lookup_cons_eq_ite j (k, v) (p :: l)
    next =>
      split
      next heq =>
        subst heq
        simp only [lookup_cons_eq_ite]
        split <;> rfl
      next hne =>
        simp only [lookup_cons_eq_ite, ih]
        by_cases h : j = p.1
        · simp [h, Ne.symm hne]
        · simp [h]

def empty : Dict α := ⟨[], .nil⟩

instance : EmptyCollection (Dict α) := ⟨empty⟩

instance : Inhabited (Dict α) := ⟨empty⟩

def insert (d : Dict α) (k : String) (v : α) : Dict α :=
  ⟨place k v d.toList, pairwise_place k v d.ascending⟩

def get? (d : Dict α) (k : String) : Option α := d.toList.lookup k

def contains (d : Dict α) (k : String) : Bool := (d.get? k).isSome

def keys (d : Dict α) : List String := d.toList.map (·.1)

def values (d : Dict α) : List α := d.toList.map (·.2)

def size (d : Dict α) : Nat := d.toList.length

def filter (d : Dict α) (p : String → α → Bool) : Dict α :=
  ⟨d.toList.filter (fun q => p q.1 q.2), d.ascending.filter _⟩

def erase (d : Dict α) (k : String) : Dict α := d.filter (fun j _ => j != k)

def mapValues (f : String → α → β) (d : Dict α) : Dict β :=
  ⟨d.toList.map (fun p => (p.1, f p.1 p.2)),
    List.pairwise_map.2 d.ascending⟩

def filterMap (f : String → α → Option β) (d : Dict α) : Dict β :=
  ⟨d.toList.filterMap (fun p => (f p.1 p.2).map ((p.1, ·))), by
    refine List.pairwise_filterMap.2 (d.ascending.imp ?_)
    intro p q h p' hp q' hq
    obtain ⟨_, _, rfl⟩ := Option.map_eq_some_iff.1 hp
    obtain ⟨_, _, rfl⟩ := Option.map_eq_some_iff.1 hq
    exact h⟩

@[simp] theorem get?_empty (k : String) : (∅ : Dict α).get? k = none := rfl

theorem get?_insert (d : Dict α) (k j : String) (v : α) :
    (d.insert k v).get? j = if j = k then some v else d.get? j := lookup_place k j v d.toList

@[simp] theorem get?_insert_self (d : Dict α) (k : String) (v : α) :
    (d.insert k v).get? k = some v := by simp [get?_insert]

@[simp] theorem keys_mapValues (f : String → α → β) (d : Dict α) :
    (d.mapValues f).keys = d.keys := by simp [mapValues, keys]

theorem nodup_keys (d : Dict α) : d.keys.Nodup :=
  List.pairwise_map.2 (d.ascending.imp fun h => String.ne_of_lt h)

def ofList (l : List (String × α)) : Dict α := l.foldl (fun d p => d.insert p.1 p.2) ∅

end Dict

end Phrasebook
