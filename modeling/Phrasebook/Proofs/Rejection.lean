import Phrasebook.Proofs.Catalogue

namespace Phrasebook.Catalogue

variable {o : Options}

structure Rejects (o : Options) (f : TextFile) (fault : NameFault) : Prop where
  types : ∀ before behind, (ofFiles o (before ++ f :: behind)).types =
    (ofFiles o (before ++ behind)).types
  errors : ∀ before behind, ∃ es es', (ofFiles o (before ++ behind)).errors = es ++ es' ∧
    (ofFiles o (before ++ f :: behind)).errors = es ++ .unrecognizedName f.path fault :: es'
  absent : ∀ {files name language r}, (ofFiles o files).types.get? name = some r →
    r.files.get? language ≠ some f

theorem exists_add (types : Dict Resource) (f : TextFile) : ∃ types' added,
    ∀ errors, add o ⟨types, errors⟩ f = ⟨types', errors ++ added⟩ := by
  unfold add
  cases Placement.find o f with
  | error fault => exact ⟨types, [.unrecognizedName f.path fault], fun _ => rfl⟩
  | ok p =>
    simp only [addPlaced]
    split
    · next first _ =>
      exact ⟨types, [.duplicateLanguage f.path p.fullName p.language first.path], fun _ => rfl⟩
    · exact ⟨_, [], fun errors => congrArg (Catalogue.mk _) (List.append_nil errors).symm⟩

theorem exists_foldl_add (types : Dict Resource) (files : List TextFile) : ∃ types' added,
    ∀ errors, files.foldl (add o) ⟨types, errors⟩ = ⟨types', errors ++ added⟩ := by
  induction files generalizing types with
  | nil => exact ⟨types, [], fun errors => congrArg (Catalogue.mk _) (List.append_nil errors).symm⟩
  | cons f files ih =>
    obtain ⟨types', added, hadd⟩ := exists_add (o := o) types f
    obtain ⟨types'', added', hfoldl⟩ := ih types'
    refine ⟨types'', added ++ added', fun errors => ?_⟩
    rw [List.foldl_cons, hadd, hfoldl, List.append_assoc]

theorem rejects_of_find {f : TextFile} {fault : NameFault}
    (h : Placement.find o f = .error fault) : Rejects o f fault := by
  have hadd (c : Catalogue) : add o c f = c.report (.unrecognizedName f.path fault) := by
    unfold add
    rw [h]
  -- Where the file stands, both batches have come to the same types.
  have hcollect (before behind : List TextFile) : ∃ types es es',
      ofFiles o (before ++ behind) = dropConflicts ⟨types, es ++ es'⟩ ∧
      ofFiles o (before ++ f :: behind) =
        dropConflicts ⟨types, es ++ .unrecognizedName f.path fault :: es'⟩ := by
    obtain ⟨types, added, hbehind⟩ :=
      exists_foldl_add (o := o) (collect o before).types behind
    refine ⟨types, (collect o before).errors, added, ?_, ?_⟩
    · rw [ofFiles, List.foldl_append]
      exact congrArg dropConflicts (hbehind _)
    · rw [ofFiles, List.foldl_append, List.foldl_cons, hadd, List.append_cons]
      exact congrArg dropConflicts (hbehind _)
  constructor
  case types =>
    intro before behind
    obtain ⟨types, es, es', hwithout, hwith⟩ := hcollect before behind
    rw [hwithout, hwith]
    rfl
  case errors =>
    intro before behind
    obtain ⟨types, es, es', hwithout, hwith⟩ := hcollect before behind
    rw [hwithout, hwith, dropConflicts, dropConflicts, List.append_assoc, List.append_assoc]
    exact ⟨es, _, rfl, rfl⟩
  case absent =>
    intro files name language r hr hf
    obtain ⟨-, p, hp, -⟩ := (sound_ofFiles o files).placed hr hf
    cases h.symm.trans hp

end Phrasebook.Catalogue
