import Mathlib.Data.List.Nodup
import Mathlib.Data.List.Count
import Phrasebook.Contents

namespace Phrasebook

theorem Entry.find?_key_eq_some_iff {entries : List Entry} (h : (entries.map (·.key)).Nodup)
    {key : String} {e : Entry} :
    entries.find? (·.key = key) = some e ↔ e ∈ entries ∧ e.key = key := by
  induction entries with
  | nil => simp
  | cons a entries ih =>
    obtain ⟨ha, hrest⟩ := List.nodup_cons.1 h
    rw [List.find?_cons]
    by_cases hkey : a.key = key
    · simp only [hkey, decide_true, Option.some.injEq, List.mem_cons]
      constructor
      · rintro rfl
        exact ⟨.inl rfl, hkey⟩
      · rintro ⟨rfl | he, hek⟩
        · rfl
        · exact absurd (List.mem_map.2 ⟨e, he, hek.trans hkey.symm⟩) ha
    · simp only [hkey, decide_false, ih hrest, List.mem_cons]
      constructor
      · rintro ⟨he, hek⟩
        exact ⟨.inr he, hek⟩
      · rintro ⟨rfl | he, hek⟩
        · exact absurd hek hkey
        · exact ⟨he, hek⟩

namespace Outcome

theorem keys_sublist (outcomes : List Outcome) :
    ((outcomes.filterMap entry?).map (·.key)).Sublist
      ((outcomes.filterMap occurrence?).map (·.key)) := by
  induction outcomes with
  | nil => exact .refl _
  | cons o outcomes ih =>
    cases o with
    | accepted o value => exact ih.cons_cons o.key
    | refused o e => exact ih.cons o.key
    | keyless e => exact ih

theorem exists_accepted_of_error?_eq_none {o : Outcome} (h : o.error? = none) :
    ∃ occurrence value, o = accepted occurrence value := by
  cases o with
  | accepted o value => exact ⟨o, value, rfl⟩
  | refused o e => cases h
  | keyless e => cases h

end Outcome

namespace Contents

theorem nodup_keys_ofOutcomes (path : Path) (outcomes : List Outcome) :
    ((ofOutcomes path outcomes).entries.map (·.key)).Nodup := by
  rw [List.nodup_iff_count_le_one]
  intro key
  by_cases h : ((outcomes.filterMap Outcome.occurrence?).map (·.key)).count key = 1
  · rw [← h]
    apply List.Sublist.count_le
    exact (List.filter_sublist.map _).trans (Outcome.keys_sublist outcomes)
  · rw [List.count_eq_zero_of_not_mem]
    · exact Nat.zero_le 1
    · intro hmem
      obtain ⟨e, he, rfl⟩ := List.mem_map.1 hmem
      exact h (by simpa using (List.mem_filter.1 he).2)

theorem mem_repeated_cons {seen : List String} {p o : Occurrence} {os : List Occurrence} :
    o ∈ repeated seen (p :: os) ↔
      o = p ∧ seen.count p.key = 1 ∨ o ∈ repeated (p.key :: seen) os := by
  simp only [repeated]
  split
  · next h => rw [List.mem_cons, and_iff_left h]
  · next h => simp only [h, and_false, false_or]

theorem mem_repeated_iff {seen : List String} {os : List Occurrence} {o : Occurrence} :
    o ∈ repeated seen os ↔ ∃ earlier later, os = earlier ++ o :: later ∧
      seen.count o.key + (earlier.map (·.key)).count o.key = 1 := by
  induction os generalizing seen with
  | nil => simp [repeated]
  | cons p os ih =>
    rw [mem_repeated_cons, ih]
    constructor
    · rintro (⟨rfl, hcount⟩ | ⟨earlier, later, rfl, hcount⟩)
      · exact ⟨[], os, rfl, hcount⟩
      · refine ⟨p :: earlier, later, rfl, ?_⟩
        rw [List.map_cons]
        simp only [List.count_cons] at hcount ⊢
        omega
    · rintro ⟨_ | ⟨q, earlier⟩, later, hos, hcount⟩
      · cases hos
        exact .inl ⟨rfl, hcount⟩
      · cases hos
        refine .inr ⟨earlier, later, rfl, ?_⟩
        rw [List.map_cons] at hcount
        simp only [List.count_cons] at hcount ⊢
        omega

theorem repeated_eq_nil_iff {seen : List String} {os : List Occurrence} (hseen : seen.Nodup) :
    repeated seen os = [] ↔ (∀ o ∈ os, o.key ∉ seen) ∧ (os.map (·.key)).Nodup := by
  induction os generalizing seen with
  | nil => simp [repeated]
  | cons o os ih =>
    have hcount : seen.count o.key = 1 ↔ o.key ∈ seen :=
      ⟨fun h => List.count_pos_iff.1 (h ▸ Nat.one_pos), List.count_eq_one_of_mem hseen⟩
    simp only [repeated, hcount]
    split
    · next hmem => simp [hmem]
    · next hnew =>
      rw [ih (List.nodup_cons.2 ⟨hnew, hseen⟩), List.map_cons, List.nodup_cons, List.mem_map]
      constructor
      · rintro ⟨hapart, hnodup⟩
        refine ⟨List.forall_mem_cons.2 ⟨hnew, fun p hp hmem =>
          hapart p hp (List.mem_cons_of_mem o.key hmem)⟩, ?_, hnodup⟩
        rintro ⟨p, hp, heq⟩
        exact hapart p hp (heq ▸ List.mem_cons_self)
      · rintro ⟨hall, hfirst, hnodup⟩
        refine ⟨fun p hp hmem => ?_, hnodup⟩
        rcases List.mem_cons.1 hmem with heq | hmem
        · exact hfirst ⟨p, hp, heq⟩
        · exact hall p (List.mem_cons_of_mem o hp) hmem

theorem accepted_of_clean {path : Path} {outcomes : List Outcome}
    (h : (ofOutcomes path outcomes).errors = []) {o : Outcome} (ho : o ∈ outcomes) :
    ∃ occurrence value, o = .accepted occurrence value ∧
      ⟨occurrence.key, value⟩ ∈ (ofOutcomes path outcomes).entries := by
  obtain ⟨herrors, hrepeated⟩ := List.append_eq_nil_iff.1 h
  obtain ⟨occurrence, value, rfl⟩ :=
    Outcome.exists_accepted_of_error?_eq_none (List.filterMap_eq_nil_iff.1 herrors o ho)
  obtain ⟨-, hkeys⟩ := (repeated_eq_nil_iff List.nodup_nil).1 (List.map_eq_nil_iff.1 hrepeated)
  refine ⟨occurrence, value, rfl, List.mem_filter.2 ⟨?_, ?_⟩⟩
  · exact List.mem_filterMap.2 ⟨_, ho, rfl⟩
  · rw [decide_eq_true_eq]
    apply List.count_eq_one_of_mem hkeys
    exact List.mem_map.2 ⟨occurrence, List.mem_filterMap.2 ⟨_, ho, rfl⟩, rfl⟩

end Contents

namespace Format

def pairs (format : Format) (text : String) : List (Option String × Option String) :=
  match format with
  | .json =>
    match Json.parseObject text.toList with
    | .ok members => members.map fun member => (some member.1, member.2.scalarText?)
    | .error _ => []
  | .csv => (Csv.parse text.toList).map fun record => (record.fields[0]?, record.fields[1]?)

theorem parse_eq_ofOutcomes {format : Format} {path : Path} {text : String} {c : Contents}
    (h : format.parse path text = .ok c) : ∃ outcomes, c = .ofOutcomes path outcomes := by
  cases format with
  | json =>
    simp only [parse] at h
    split at h
    · exact ⟨_, (Except.ok.inj h).symm⟩
    · cases h
  | csv => exact ⟨_, (Except.ok.inj h).symm⟩

theorem ofMember_eq_accepted {path : Path} {member : String × Json.Value}
    {occurrence : Occurrence} {value : String}
    (h : Contents.ofMember path member = .accepted occurrence value) :
    member.1 = occurrence.key ∧ member.2.scalarText? = some value := by
  unfold Contents.ofMember at h
  split at h
  · cases h
  · split at h
    · next htext =>
      cases h
      exact ⟨rfl, htext⟩
    · cases h

theorem ofRecord_eq_accepted {path : Path} {record : Csv.Record}
    {occurrence : Occurrence} {value : String}
    (h : Contents.ofRecord path record = .accepted occurrence value) :
    record.fields[0]? = some occurrence.key ∧ record.fields[1]? = some value := by
  unfold Contents.ofRecord at h
  split at h
  · next hfields =>
    split at h
    · cases h
    · cases h
      simp [hfields]
  · dsimp only at h
    split at h <;> cases h
  · cases h

theorem mem_entries_of_clean {format : Format} {path : Path} {text : String} {c : Contents}
    (h : format.parse path text = .ok c) (hclean : c.errors = [])
    {pair : Option String × Option String} (hpair : pair ∈ format.pairs text) :
    ∃ key value, pair = (some key, some value) ∧ ⟨key, value⟩ ∈ c.entries := by
  cases format with
  | json =>
    simp only [parse] at h
    simp only [pairs] at hpair
    split at h
    · next members hmembers =>
      cases h
      rw [hmembers] at hpair
      obtain ⟨member, hmember, rfl⟩ := List.mem_map.1 hpair
      obtain ⟨occurrence, value, hout, hentry⟩ :=
        Contents.accepted_of_clean hclean (List.mem_map.2 ⟨member, hmember, rfl⟩)
      obtain ⟨hkey, hvalue⟩ := ofMember_eq_accepted hout
      exact ⟨_, value, by rw [hkey, hvalue], hentry⟩
    · cases h
  | csv =>
    cases h
    obtain ⟨record, hrecord, rfl⟩ := List.mem_map.1 hpair
    obtain ⟨occurrence, value, hout, hentry⟩ :=
      Contents.accepted_of_clean hclean (List.mem_map.2 ⟨record, hrecord, rfl⟩)
    obtain ⟨hkey, hvalue⟩ := ofRecord_eq_accepted hout
    exact ⟨_, value, by rw [hkey, hvalue], hentry⟩

end Format

theorem Outcome.entry?_eq_some {o : Outcome} {e : Entry} (h : o.entry? = some e) :
    ∃ occurrence, o = accepted occurrence e.value ∧ occurrence.key = e.key := by
  cases o with
  | accepted occurrence value =>
    cases h
    exact ⟨occurrence, rfl, rfl⟩
  | refused o e => cases h
  | keyless e => cases h

namespace Contents

theorem exists_accepted_of_mem {path : Path} {outcomes : List Outcome} {e : Entry}
    (he : e ∈ (ofOutcomes path outcomes).entries) :
    ∃ occurrence, .accepted occurrence e.value ∈ outcomes ∧ occurrence.key = e.key := by
  obtain ⟨o, ho, hentry⟩ := List.mem_filterMap.1 (List.mem_of_mem_filter he)
  obtain ⟨occurrence, rfl, hkey⟩ := Outcome.entry?_eq_some hentry
  exact ⟨occurrence, ho, hkey⟩

theorem not_blank_of_ofMember {path : Path} {member : String × Json.Value}
    {occurrence : Occurrence} {value : String}
    (h : ofMember path member = .accepted occurrence value) :
    Text.isBlankText occurrence.key = false := by
  rw [← (Format.ofMember_eq_accepted h).1]
  by_contra hblank
  rw [ofMember, if_pos (Bool.not_eq_false _ ▸ hblank)] at h
  cases h

theorem not_blank_of_ofRecord {path : Path} {record : Csv.Record} {occurrence : Occurrence}
    {value : String} (h : ofRecord path record = .accepted occurrence value) :
    Text.isBlankText occurrence.key = false := by
  unfold ofRecord at h
  split at h
  · split at h
    · cases h
    · next hblank =>
      cases h
      exact Bool.eq_false_iff.2 hblank
  · dsimp only at h
    split at h <;> cases h
  · cases h

end Contents

theorem Format.not_blank_of_parse {format : Format} {path : Path} {text : String} {c : Contents}
    (h : format.parse path text = .ok c) {e : Entry} (he : e ∈ c.entries) :
    Text.isBlankText e.key = false := by
  cases format with
  | json =>
    simp only [parse] at h
    split at h
    · cases h
      obtain ⟨occurrence, hmem, hkey⟩ := Contents.exists_accepted_of_mem he
      obtain ⟨member, -, hmember⟩ := List.mem_map.1 hmem
      exact hkey ▸ Contents.not_blank_of_ofMember hmember
    · cases h
  | csv =>
    cases h
    obtain ⟨occurrence, hmem, hkey⟩ := Contents.exists_accepted_of_mem he
    obtain ⟨record, -, hrecord⟩ := List.mem_map.1 hmem
    exact hkey ▸ Contents.not_blank_of_ofRecord hrecord

namespace TextFile

theorem parse_eq_ok {f : TextFile} {c : Contents} (h : f.parse = .ok c) :
    ∃ text, f.decode = .ok text ∧ f.format.parse f.path text = .ok c := by
  unfold parse at h
  cases hdecode : f.decode with
  | error e =>
    rw [hdecode] at h
    cases h
  | ok text =>
    rw [hdecode] at h
    exact ⟨text, rfl, h⟩

theorem nodup_keys_of_parse {f : TextFile} {c : Contents} (h : f.parse = .ok c) :
    (c.entries.map (·.key)).Nodup := by
  obtain ⟨text, -, hparse⟩ := parse_eq_ok h
  obtain ⟨outcomes, rfl⟩ := Format.parse_eq_ofOutcomes hparse
  exact Contents.nodup_keys_ofOutcomes f.path outcomes

end TextFile

end Phrasebook
