import Mathlib.Data.List.Basic
import Phrasebook.FileTree

namespace Phrasebook.FileTree

theorem placeOf_cons (name : Name) (entries : Entries) (trail : Trail) :
    placeOf ((name, entries) :: trail) = placeOf trail ++ [name] := by
  rw [placeOf, List.map_cons, List.reverse_cons]
  rfl

theorem entriesBelow_append {place : Place} {name : Name} {entries inner : Entries}
    (h : (entriesBelow place entries).lookup name = some (.directory inner)) :
    entriesBelow (place ++ [name]) entries = inner := by
  induction place generalizing entries with
  | nil =>
    rw [entriesBelow] at h
    simp only [List.nil_append, entriesBelow, h]
  | cons first place ih =>
    simp only [List.cons_append, entriesBelow] at h ⊢
    split at h
    · exact ih h
    · cases h

def Leads (t : FileTree) : Trail → Prop
  | [] => True
  | (name, entries) :: trail =>
    (t.entriesAt trail).lookup name = some (.directory entries) ∧ Leads t trail

theorem leads_nil (t : FileTree) : Leads t [] := trivial

theorem Leads.tail {t : FileTree} {trail : Trail} (h : Leads t trail) : Leads t trail.tail := by
  cases trail with
  | nil => exact h
  | cons _ _ => exact h.2

theorem Leads.entriesAt_eq {t : FileTree} {trail : Trail} (h : Leads t trail) :
    t.entriesAt trail = entriesBelow (placeOf trail) t.root := by
  induction trail with
  | nil => rfl
  | cons step trail ih =>
    obtain ⟨name, entries⟩ := step
    obtain ⟨hlookup, htrail⟩ := h
    rw [ih htrail] at hlookup
    rw [placeOf_cons, entriesBelow_append hlookup]
    rfl

def IsWritable (node? : Option Node) : Prop :=
  node? = none ∨ ∃ content stamp, node? = some (.file content stamp)

theorem follow_eq_ok {t : FileTree} {create : Bool} {links : Nat} {trail : Trail}
    {pieces : List Name} {place : Place} {node? : Option Node} (hleads : Leads t trail)
    (h : t.follow create links trail pieces = .ok ⟨place, node?⟩) :
    (∃ entries, node? = some (.directory entries)) ∨
      ∃ above name, place = above ++ [name] ∧ (entriesBelow above t.root).lookup name = node? ∧
        IsWritable node? := by
  fun_induction follow t create links trail pieces with
  | case1 links trail =>
    cases h
    exact .inl ⟨_, rfl⟩
  | case2 links trail piece rest hskip ih => exact ih hleads h
  | case3 links trail rest _ ih => exact ih hleads.tail h
  | case4 => cases h
  | case5 links trail piece rest _ _ _ hlookup hnew =>
    cases h
    rw [hleads.entriesAt_eq] at hlookup
    exact .inr ⟨_, piece, rfl, hlookup, .inl rfl⟩
  | case6 => cases h
  | case7 links trail piece rest _ _ _ entries hlookup ih => exact ih ⟨hlookup, hleads⟩ h
  | case8 links trail piece _ _ _ content stamp hlookup =>
    cases h
    rw [hleads.entriesAt_eq] at hlookup
    exact .inr ⟨_, piece, rfl, hlookup, .inr ⟨content, stamp, rfl⟩⟩
  | case9 => cases h
  | case10 => cases h
  | case11 trail piece rest _ _ _ target hlookup fewer ih =>
    refine ih ?_ h
    split
    · exact leads_nil t
    · exact hleads

/-- What is passed on the way is a directory or a link, and so does not stand where a file may be
written. -/
theorem placeOf_ne_of_passed {t : FileTree} {place : Place} {name : Name} {node? : Option Node}
    (hhere : (entriesBelow place t.root).lookup name = node?) (hwritable : IsWritable node?)
    {trail : Trail} {piece : Name} {passed : Node} (hleads : Leads t trail)
    (hlookup : (t.entriesAt trail).lookup piece = some passed)
    (hkind : ∀ content stamp, passed ≠ .file content stamp) :
    placeOf trail ++ [piece] ≠ place ++ [name] := by
  intro heq
  obtain ⟨hplace, hpiece⟩ := List.append_inj' heq rfl
  cases hpiece
  rw [hleads.entriesAt_eq, hplace, hhere] at hlookup
  rcases hwritable with hnone | ⟨content, stamp, hsome⟩
  · cases hnone.symm.trans hlookup
  · exact hkind content stamp (Option.some.inj (hlookup.symm.trans hsome))

theorem lookup_map_entries {g : Name × Node → Name × Node} (hg : ∀ e, (g e).1 = e.1)
    (entries : Entries) (piece : Name) : (entries.map g).lookup piece =
      (entries.lookup piece).map fun inner => (g (piece, inner)).2 := by
  induction entries with
  | nil => rfl
  | cons e entries ih =>
    obtain ⟨key, inner⟩ := e
    obtain ⟨after, hafter⟩ : ∃ after, g (key, inner) = (key, after) :=
      ⟨(g (key, inner)).2, Prod.ext (hg (key, inner)) rfl⟩
    rw [List.map_cons, hafter, List.lookup_cons, List.lookup_cons, ih]
    by_cases h : piece = key
    · rw [h, beq_self_eq_true, Option.map_some, hafter]
    · rw [beq_false_of_ne h]

theorem lookup_without {piece name : Name} (h : piece ≠ name) (entries : Entries) :
    (without name entries).lookup piece = entries.lookup piece := by
  induction entries with
  | nil => rfl
  | cons e entries ih =>
    obtain ⟨key, inner⟩ := e
    rw [without] at ih ⊢
    by_cases hkey : key = name
    · rw [List.filter_cons_of_neg (by simp [hkey]), ih, List.lookup_cons, hkey, beq_false_of_ne h]
    · rw [List.filter_cons_of_pos (by simp [hkey]), List.lookup_cons, List.lookup_cons, ih]

theorem lookup_without_self (name : Name) (entries : Entries) :
    (without name entries).lookup name = none := by
  rw [List.lookup_eq_none_iff]
  intro e he
  simpa [bne_comm] using (List.mem_filter.1 he).2

def put (name : Name) (node : Node) (entries : Entries) : Entries :=
  without name entries ++ [(name, node)]

theorem lookup_put (name piece : Name) (node : Node) (entries : Entries) :
    (put name node entries).lookup piece =
      if piece = name then some node else entries.lookup piece := by
  rw [put, List.lookup_append]
  split
  · next h => rw [h, lookup_without_self, List.lookup_cons_self, Option.none_or]
  · next h =>
    rw [lookup_without h, List.lookup_cons, beq_false_of_ne h, List.lookup_nil, Option.or_none]

section

variable (name : Name) (node : Node)

def entriesAfter : (place here : Place) → Entries → Entries
  | place, [], entries => change (put name node) place entries
  | [], _ :: _, entries => entries
  | first :: place, next :: here, entries =>
    if first = next then entriesAfter place here entries else entries

def nodeAfter (place here : Place) : Node → Node
  | .directory entries => .directory (entriesAfter name node place here entries)
  | other => other

theorem nodeAfter_of_ne {place here : Place}
    (h : ∀ entries, entriesAfter name node place here entries = entries) :
    nodeAfter name node place here = id := by
  funext other
  cases other with
  | directory entries => exact congrArg _ (h entries)
  | _ => rfl

theorem nodeAfter_cons_self (first : Name) (place here : Place) :
    nodeAfter name node (first :: place) (first :: here) = nodeAfter name node place here := by
  funext other
  cases other with
  | directory entries => exact congrArg _ (if_pos rfl)
  | _ => rfl

theorem lookup_entriesAfter (place here : Place) (piece : Name) (entries : Entries) :
    (entriesAfter name node place here entries).lookup piece =
      if here ++ [piece] = place ++ [name] then some node
      else (entries.lookup piece).map (nodeAfter name node place (here ++ [piece])) := by
  induction here generalizing place with
  | nil =>
    cases place with
    | nil =>
      rw [entriesAfter, change, lookup_put, nodeAfter_of_ne name node fun _ => rfl, Option.map_id]
      simp
    | cons first place =>
      rw [entriesAfter, change, lookup_map_entries, if_neg (by simp)]
      · congr 1
        funext other
        cases other with
        | directory inner =>
          simp only [nodeAfter, entriesAfter, List.nil_append, eq_comm (a := first)]
          split <;> rfl
        | _ => rfl
      · rintro ⟨key, inner⟩
        split
        · split <;> rfl
        · rfl
  | cons next here ih =>
    cases place with
    | nil =>
      rw [entriesAfter, nodeAfter_of_ne name node fun _ => rfl, Option.map_id, if_neg (by simp)]
      rfl
    | cons first place =>
      by_cases h : first = next
      · rw [h, entriesAfter, if_pos rfl, ih, List.cons_append, List.cons_append,
          nodeAfter_cons_self]
        simp
      · have hsame (entries : Entries) (rest : Place) :
            entriesAfter name node (first :: place) (next :: rest) entries = entries := if_neg h
        rw [hsame, List.cons_append, nodeAfter_of_ne name node (hsame · _), Option.map_id, if_neg]
        · rfl
        · intro heq
          exact h (List.cons.inj heq).1.symm

def trailAfter (place : Place) : Trail → Trail
  | [] => []
  | (piece, entries) :: trail =>
    (piece, entriesAfter name node place (placeOf trail ++ [piece]) entries) ::
      trailAfter place trail

theorem tail_trailAfter (place : Place) (trail : Trail) :
    (trailAfter name node place trail).tail = trailAfter name node place trail.tail := by
  cases trail <;> rfl

theorem placeOf_trailAfter (place : Place) (trail : Trail) :
    placeOf (trailAfter name node place trail) = placeOf trail := by
  induction trail with
  | nil => rfl
  | cons step trail ih => rw [trailAfter, placeOf_cons, ih, placeOf_cons]

variable {t t' : FileTree} {place : Place}
  (hroot : t'.root = change (put name node) place t.root)

include hroot

theorem entriesAt_trailAfter (trail : Trail) : t'.entriesAt (trailAfter name node place trail) =
    entriesAfter name node place (placeOf trail) (t.entriesAt trail) := by
  cases trail with
  | nil =>
    change t'.root = entriesAfter name node place [] t.root
    rw [entriesAfter, hroot]
  | cons step trail =>
    rw [placeOf_cons]
    rfl

theorem lookup_trailAfter {trail : Trail} {piece : Name}
    (hne : placeOf trail ++ [piece] ≠ place ++ [name]) :
    (t'.entriesAt (trailAfter name node place trail)).lookup piece =
      ((t.entriesAt trail).lookup piece).map
        (nodeAfter name node place (placeOf trail ++ [piece])) := by
  rw [entriesAt_trailAfter name node hroot, lookup_entriesAfter, if_neg hne]

theorem lookup_trailAfter_self {trail : Trail} {piece : Name}
    (heq : placeOf trail ++ [piece] = place ++ [name]) :
    (t'.entriesAt (trailAfter name node place trail)).lookup piece = some node := by
  rw [entriesAt_trailAfter name node hroot, lookup_entriesAfter, if_pos heq]

theorem follow_trailAfter_self {content : List UInt8} {stamp : Nat}
    (hnode : node = .file content stamp) {links : Nat} {trail : Trail} {piece : Name}
    (hskip : ¬(piece = [] ∨ piece = [Path.dot])) (hup : piece ≠ [Path.dot, Path.dot])
    (hname : ¬(!isName piece) = true) (hplace : placeOf trail ++ [piece] = place ++ [name]) :
    t'.follow false links (trailAfter name node place trail) [piece] =
      .ok ⟨place ++ [name], some node⟩ := by
  rw [follow, if_neg hskip, if_neg hup, if_neg hname,
    lookup_trailAfter_self name node hroot hplace, placeOf_trailAfter, hplace, hnode]
  rfl

/-- A path that led to where a file may be written leads there through the directories and links
that it went through before. -/
theorem follow_trailAfter {content : List UInt8} {stamp : Nat} (hnode : node = .file content stamp)
    {node? : Option Node} (hhere : (entriesBelow place t.root).lookup name = node?)
    (hwritable : IsWritable node?) {create : Bool} {links : Nat} {trail : Trail}
    {pieces : List Name} (hleads : Leads t trail)
    (h : t.follow create links trail pieces = .ok ⟨place ++ [name], node?⟩) :
    t'.follow false links (trailAfter name node place trail) pieces =
      .ok ⟨place ++ [name], some node⟩ := by
  fun_induction follow t create links trail pieces with
  | case1 links trail =>
    obtain ⟨-, rfl⟩ := Finding.mk.inj (Except.ok.inj h)
    rcases hwritable with h | ⟨_, _, h⟩ <;> cases h
  | case2 links trail piece rest hskip ih =>
    rw [follow, if_pos hskip]
    exact ih hleads h
  | case3 links trail rest hskip ih =>
    rw [follow, if_neg hskip, if_pos rfl, tail_trailAfter]
    exact ih hleads.tail h
  | case4 => cases h
  | case5 links trail piece rest hskip hup hname hlookup hnew =>
    obtain ⟨-, rfl⟩ := hnew
    have hplace := (Finding.mk.inj (Except.ok.inj h)).1
    exact follow_trailAfter_self name node hroot hnode hskip hup hname hplace
  | case6 => cases h
  | case7 links trail piece rest hskip hup hname entries hlookup ih =>
    have hne := placeOf_ne_of_passed hhere hwritable hleads hlookup (by simp)
    rw [follow, if_neg hskip, if_neg hup, if_neg hname, lookup_trailAfter name node hroot hne,
      hlookup]
    exact ih ⟨hlookup, hleads⟩ h
  | case8 links trail piece hskip hup hname content stamp hlookup =>
    have hplace := (Finding.mk.inj (Except.ok.inj h)).1
    exact follow_trailAfter_self name node hroot hnode hskip hup hname hplace
  | case9 => cases h
  | case10 => cases h
  | case11 trail piece rest hskip hup hname target hlookup fewer ih =>
    have hne := placeOf_ne_of_passed hhere hwritable hleads hlookup (by simp)
    rw [follow, if_neg hskip, if_neg hup, if_neg hname, lookup_trailAfter name node hroot hne,
      hlookup]
    have hstart : trailAfter name node place (if target.isAbsolute then [] else trail) =
        if target.isAbsolute then [] else trailAfter name node place trail := by split <;> rfl
    simp only [dite_eq_ite, hstart] at ih
    refine ih ?_ h
    split
    · exact leads_nil t
    · exact hleads

end

theorem root_write (t : FileTree) (place : Place) (name : Name) (content : List UInt8) :
    { t.setNode (place ++ [name]) (.file content (t.clock + 1)) with clock := t.clock + 1 }.root =
      change (put name (.file content (t.clock + 1))) place t.root := by
  rw [setNode, List.getLast?_concat, List.dropLast_concat]
  rfl

theorem locate_empty {p : Path} (hpath : isPath p = true) (hpieces : p.pieces = [p.bytes])
    (hname : isName p.bytes = true) (hplain : p.bytes ∉ [[], [Path.dot], [Path.dot, Path.dot]])
    (create : Bool) :
    empty.locate create p = if create then .ok ⟨[p.bytes], none⟩ else .error .missing := by
  simp only [List.mem_cons, List.not_mem_nil, or_false, not_or] at hplain
  obtain ⟨hempty, hdot, hdots⟩ := hplain
  rw [locate, if_neg hempty, if_pos hpath, hpieces, follow, if_neg (not_or.2 ⟨hempty, hdot⟩),
    if_neg hdots, hname, Bool.not_true, if_neg Bool.false_ne_true]
  simp [entriesAt, empty, placeOf]

theorem locate_eq_ok {t : FileTree} {create : Bool} {p : Path} {f : Finding}
    (h : t.locate create p = .ok f) : p.bytes ≠ [] ∧ isPath p = true ∧
      t.follow create maxLinks [] p.pieces = .ok f := by
  unfold locate at h
  split at h
  · cases h
  · next hempty =>
    split at h
    · next hpath => exact ⟨hempty, hpath, h⟩
    · cases h

theorem read?_of_write? {t t' : FileTree} {p : Path} {content : List UInt8}
    (h : t.write? p content = some t') : t'.read? p = some content := by
  unfold write? at h
  split at h
  · cases h
  · cases h
  · next f hdir hlocate =>
    obtain ⟨place, node?⟩ := f
    cases h
    obtain ⟨hempty, hpath, hfollow⟩ := locate_eq_ok hlocate
    rcases follow_eq_ok (leads_nil t) hfollow with
      ⟨entries, rfl⟩ | ⟨above, name, rfl, hhere, hwritable⟩
    · exact absurd rfl (hdir _ _)
    · have hread := follow_trailAfter name _ (root_write t above name content) rfl hhere hwritable
        (leads_nil t) hfollow
      rw [trailAfter] at hread
      simp only [read?, find?, locate, if_neg hempty, if_pos hpath, hread]

end Phrasebook.FileTree
