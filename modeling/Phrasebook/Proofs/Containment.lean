import Phrasebook.Proofs.Naming
import Phrasebook.Proofs.SourceRoot

/-!
Files outside the source directory, where every `..` takes back the name before it. Such a file is
rejected, unless its path goes into the source directory as that is spelled and climbs out of it
again. The way out is not seen then, and the file is placed by its name as if it lay below.
-/

namespace Phrasebook

namespace Path

def enter (place : List Component) : Component → List Component
  | .root => .root :: place
  | .current => place
  | .parent =>
    match place with
    | .name _ :: above => above
    | .root :: above => .root :: above
    | _ => .parent :: place
  | .name bs => .name bs :: place

/-- The components without `.` and, but for those in front, without `..`. -/
def lexical (cs : List Component) : List Component := (cs.foldl enter []).reverse

def LiesBelow (p root : Path) : Prop :=
  lexical root.components <+: lexical p.components ∧
    lexical root.components ≠ lexical p.components

instance (p root : Path) : Decidable (p.LiesBelow root) := inferInstanceAs (Decidable (_ ∧ _))

/-- Whether components lead above the place where they begin, when so many names have been entered
since. -/
def climbs : Nat → List Component → Bool
  | _, [] => false
  | 0, .parent :: _ => true
  | n + 1, .parent :: cs => climbs n cs
  | n, .name _ :: cs => climbs (n + 1) cs
  | n, _ :: cs => climbs n cs

theorem climbs_append {n : Nat} {cs cs' : List Component} (h : climbs n (cs ++ cs') = false) :
    climbs n cs = false := by
  induction cs generalizing n with
  | nil => rfl
  | cons c cs ih =>
    cases c with
    | root => exact ih h
    | current => exact ih h
    | parent =>
      cases n with
      | zero => exact h
      | succ n => exact ih h
    | name bs => exact ih h

theorem foldl_enter {cs : List Component} (h : ∀ c ∈ cs, c = .parent ∨ ∃ bs, c = .name bs)
    (place : List Component) (names : List (List UInt8))
    (hclimbs : climbs names.length cs = false) :
    ∃ names' : List (List UInt8),
      cs.foldl enter (names.map .name ++ place) = names'.map .name ++ place := by
  induction cs generalizing names with
  | nil => exact ⟨names, rfl⟩
  | cons c cs ih =>
    have hcs := fun d hd => h d (List.mem_cons_of_mem c hd)
    rcases h c List.mem_cons_self with rfl | ⟨bs, rfl⟩
    · cases names with
      | nil => cases hclimbs
      | cons bs names => exact ih hcs names hclimbs
    · exact ih hcs (bs :: names) hclimbs

theorem lexical_append (root : List Component) {cs : List Component} {bs : List UInt8}
    (h : ∀ c ∈ cs, c = .parent ∨ ∃ bs, c = .name bs)
    (hclimbs : climbs 0 (cs ++ [.name bs]) = false) :
    ∃ names : List (List UInt8),
      lexical (root ++ (cs ++ [.name bs])) = lexical root ++ (names ++ [bs]).map .name := by
  obtain ⟨names, hnames⟩ := foldl_enter h (root.foldl enter []) [] (climbs_append hclimbs)
  refine ⟨names.reverse, ?_⟩
  rw [List.map_nil, List.nil_append] at hnames
  rw [lexical, List.foldl_append, List.foldl_append, hnames, lexical]
  simp [enter]

theorem isAbsolute_join_of_left {p : Path} (h : p.isAbsolute = true) (q : Path) :
    (p.join q).isAbsolute = true := by
  by_cases hq : q.isAbsolute = true
  · rw [join_of_isAbsolute hq]
    exact hq
  · rw [isAbsolute_join hq (bytes_ne_nil_of_isAbsolute h)]
    exact h

theorem components_of_isAbsolute {p : Path} (h : p.isAbsolute = true) :
    p.components = .root :: p.steps := by
  rw [components_eq, lead, if_pos h]
  rfl

end Path

def Options.ClimbsOut (o : Options) (p : Path) : Prop :=
  ∃ cs, (o.resolve p).below? o.sourceRoot = some cs ∧ Path.climbs 0 cs = true

theorem Options.liesBelow_of_not_climbs {o : Options} {p : Path} {cs : List Path.Component}
    {bs : List UInt8} (hbase : o.baseDir.isAbsolute = true)
    (hbelow : (o.resolve p).below? o.sourceRoot = some (cs ++ [.name bs]))
    (hclimbs : Path.climbs 0 (cs ++ [.name bs]) = false) :
    (o.resolve p).LiesBelow o.sourceRoot := by
  have hcomponents := Path.below?_eq_some_iff.1 hbelow
  have hpath : (o.resolve p).isAbsolute = true := Path.isAbsolute_join_of_left hbase p
  have hroot : o.sourceRoot.isAbsolute = true := Path.isAbsolute_join_of_left hbase o.sourceDir
  have hsteps : ∀ c ∈ cs, c = .parent ∨ ∃ bs, c = .name bs := by
    intro c hc
    have hsplit := hcomponents
    rw [Path.components_of_isAbsolute hpath, Path.components_of_isAbsolute hroot,
      List.cons_append, List.cons.injEq] at hsplit
    have hmem : c ∈ (o.resolve p).steps := by
      rw [hsplit.2]
      exact List.mem_append_right _ (List.mem_append_left _ hc)
    exact (Path.mem_steps hmem).imp_right fun ⟨bs, hbs, _⟩ => ⟨bs, hbs⟩
  obtain ⟨names, hnames⟩ := Path.lexical_append o.sourceRoot.components hsteps hclimbs
  rw [← hcomponents] at hnames
  rw [Path.LiesBelow, hnames]
  refine ⟨List.prefix_append _ _, fun heq => ?_⟩
  have hnil := List.append_right_eq_self.1 heq.symm
  rw [List.map_append] at hnil
  exact List.append_ne_nil_of_right_ne_nil _ (List.cons_ne_nil _ _) hnil

namespace Placement

variable {o : Options} {f : TextFile}

theorem exists_name_of_find {p : Placement} (h : find o f = .ok p) :
    ∃ cs bs, (o.resolve f.path).below? o.sourceRoot = some (cs ++ [.name bs]) := by
  unfold find at h
  split at h
  · cases h
  · next cs hbelow =>
    split at h
    · cases h
    · next stem hstem =>
      obtain ⟨_, hfile, -⟩ := Option.bind_eq_some_iff.1 hstem
      obtain ⟨bs, hname, -⟩ := Option.map_eq_some_iff.1 hfile
      obtain ⟨c, hlast, hc⟩ := Option.bind_eq_some_iff.1 hname
      obtain ⟨init, rfl⟩ := List.getLast?_eq_some_iff.1 hlast
      cases c with
      | name bs => exact ⟨init, bs, hbelow⟩
      | root => cases hc
      | current => cases hc
      | parent => cases hc

/-- A file outside the source directory is rejected unless its path climbs out of it. Below the
source directory as that is spelled, its name counts as that of any other file, and every `..` in
front of it counts for nothing. -/
theorem rejects_of_not_liesBelow (hbase : o.baseDir.isAbsolute = true)
    (hout : ¬(o.resolve f.path).LiesBelow o.sourceRoot) :
    (¬o.ClimbsOut f.path → ∃ fault, Catalogue.Rejects o f fault) ∧
      ∀ {cs name}, (o.resolve f.path).below? o.sourceRoot = some cs →
        cs.getLast? = some (.name (Text.Utf8.ofString name)) → Path.climbs 0 cs = true ∧
          Convention o f
            (o.rootSegments ++ if o.disableSubNamespace then [] else directoryNames cs)
            (stemOf name) := by
  have climbs_of_name {cs : List Path.Component} {bs : List UInt8}
      (hbelow : (o.resolve f.path).below? o.sourceRoot = some (cs ++ [.name bs])) :
      Path.climbs 0 (cs ++ [.name bs]) = true := by
    rw [← Bool.not_eq_false]
    exact fun hnot => hout (Options.liesBelow_of_not_climbs hbase hbelow hnot)
  constructor
  · intro hclimbs
    cases hfind : find o f with
    | error fault => exact ⟨fault, Catalogue.rejects_of_find hfind⟩
    | ok p =>
      obtain ⟨cs, bs, hbelow⟩ := exists_name_of_find hfind
      exact absurd ⟨_, hbelow, climbs_of_name hbelow⟩ hclimbs
  · intro cs name hbelow hname
    refine ⟨?_, convention_of_ofStem fun language => ?_⟩
    · obtain ⟨init, rfl⟩ := List.getLast?_eq_some_iff.1 hname
      exact climbs_of_name hbelow
    · exact find_of_name (f := { f with language := language }) hbelow hname

def outsideSample : TextFile := .sample "../Greeting.en.csv"

theorem rejects_of_not_liesBelow_sample :
    Options.sample.baseDir.isAbsolute = true ∧
      ¬(Options.sample.resolve outsideSample.path).LiesBelow Options.sample.sourceRoot ∧
      find .sample outsideSample = .ok ⟨["App"], "Greeting", "en"⟩ ∧
      ∃ fault, Catalogue.Rejects .sample
        { outsideSample with path := .ofString "/project/Greeting.en.csv" } fault := by
  have hbase : Options.sample.baseDir.isAbsolute = true := by decide +kernel
  have hout : ¬(Options.sample.resolve outsideSample.path).LiesBelow Options.sample.sourceRoot := by
    decide +kernel
  refine ⟨hbase, hout, ?_, ?_⟩
  · have hbelow : (Options.sample.resolve outsideSample.path).below? Options.sample.sourceRoot =
        some [.parent, .name (Text.Utf8.ofString "Greeting.en.csv")] := by decide +kernel
    have hconvention := ((rejects_of_not_liesBelow hbase hout).2 hbelow rfl).2
    exact hconvention.inferred.2
      ⟨[], "en", by decide +kernel, by decide +kernel, by decide +kernel, by decide +kernel⟩
  · refine (rejects_of_not_liesBelow hbase (by decide +kernel)).1 ?_
    rintro ⟨cs, hbelow, -⟩
    have hnone : (Options.sample.resolve (.ofString "/project/Greeting.en.csv")).below?
        Options.sample.sourceRoot = none := by decide +kernel
    cases hnone.symm.trans hbelow

/-- A path that goes into the source directory and out of it again leads to a type. -/
theorem exists_outside_accepted : ¬∀ (o : Options) (f : TextFile), o.baseDir.isAbsolute = true →
    ¬(o.resolve f.path).LiesBelow o.sourceRoot → ∃ fault, Catalogue.Rejects o f fault := by
  intro h
  obtain ⟨fault, hrejects⟩ := h .sample outsideSample (by decide +kernel) (by decide +kernel)
  obtain ⟨es, es', -, herrors⟩ := hrejects.errors [] []
  have hnone : (Catalogue.ofFiles .sample [outsideSample]).errors = [] := by decide +kernel
  rw [List.nil_append, hnone] at herrors
  exact List.append_ne_nil_of_right_ne_nil _ (List.cons_ne_nil _ _) herrors.symm

end Placement

end Phrasebook
