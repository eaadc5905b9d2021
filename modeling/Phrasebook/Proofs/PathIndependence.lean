import Phrasebook.Proofs.Contents
import Phrasebook.Proofs.Success

namespace Phrasebook

theorem Error.map_severity (es : List Error) :
    (es.map Error.diagnostic).map Diagnostic.severity = List.replicate es.length .error := by
  rw [List.map_map, List.eq_replicate_iff]
  refine ⟨List.length_map _, ?_⟩
  intro severity hseverity
  obtain ⟨e, -, rfl⟩ := List.mem_map.1 hseverity
  exact beq_iff_eq.1 e.isError_diagnostic

structure Outcome.Alike (x y : Outcome) : Prop where
  occurrence : x.occurrence? = y.occurrence?
  entry : x.entry? = y.entry?
  error : x.error?.isSome = y.error?.isSome

theorem Outcome.Alike.refl (x : Outcome) : x.Alike x := ⟨rfl, rfl, rfl⟩

namespace Contents

theorem alike_ofMember (path path' : Path) (member : String × Json.Value) :
    (ofMember path member).Alike (ofMember path' member) := by
  unfold ofMember
  split
  · exact ⟨rfl, rfl, rfl⟩
  · split
    · exact .refl _
    · exact ⟨rfl, rfl, rfl⟩

theorem alike_ofRecord (path path' : Path) (record : Csv.Record) :
    (ofRecord path record).Alike (ofRecord path' record) := by
  unfold ofRecord
  split
  · split
    · exact ⟨rfl, rfl, rfl⟩
    · exact .refl _
  · dsimp only
    split
    · exact ⟨rfl, rfl, rfl⟩
    · exact ⟨rfl, rfl, rfl⟩
  · exact ⟨rfl, rfl, rfl⟩

inductive Alike : Except Error Contents → Except Error Contents → Prop
  | ok {c d : Contents} : c.entries = d.entries → c.errors.length = d.errors.length →
      Alike (.ok c) (.ok d)
  | error {e e' : Error} : Alike (.error e) (.error e')

theorem alike_ofOutcomes {α : Type} {f g : α → Outcome} (h : ∀ a, (f a).Alike (g a))
    (path path' : Path) (as : List α) :
    Alike (.ok (ofOutcomes path (as.map f))) (.ok (ofOutcomes path' (as.map g))) := by
  have hoccurrences : (as.map f).filterMap Outcome.occurrence? =
      (as.map g).filterMap Outcome.occurrence? := by
    rw [List.filterMap_map, List.filterMap_map]
    exact List.filterMap_congr fun a _ => (h a).occurrence
  have hentries : (as.map f).filterMap Outcome.entry? = (as.map g).filterMap Outcome.entry? := by
    rw [List.filterMap_map, List.filterMap_map]
    exact List.filterMap_congr fun a _ => (h a).entry
  have herrors : ((as.map f).filterMap Outcome.error?).length =
      ((as.map g).filterMap Outcome.error?).length := by
    rw [List.length_filterMap_eq_countP, List.length_filterMap_eq_countP, List.countP_map,
      List.countP_map]
    exact List.countP_congr fun a _ => Bool.coe_iff_coe.2 (h a).error
  constructor
  · simp only [ofOutcomes, hoccurrences, hentries]
  · simp only [ofOutcomes, List.length_append, List.length_map, hoccurrences, herrors]

namespace Alike

variable {x y : Except Error Contents} (h : Alike x y)

include h

theorem entries? : Compile.entries? x = Compile.entries? y := by
  cases h with
  | ok hentries _ => exact congrArg some hentries
  | error => rfl

theorem map_severity : (Compile.fileDiagnostics x).map Diagnostic.severity =
    (Compile.fileDiagnostics y).map Diagnostic.severity := by
  cases h with
  | ok _ herrors =>
    rw [Compile.fileDiagnostics, Compile.fileDiagnostics, Error.map_severity, Error.map_severity,
      herrors]
  | @error e e' => exact (Error.map_severity [e]).trans (Error.map_severity [e']).symm

end Alike

end Contents

theorem Format.alike_parse (format : Format) (path path' : Path) (text : String) :
    Contents.Alike (format.parse path text) (format.parse path' text) := by
  cases format with
  | json =>
    simp only [parse]
    cases Json.parseObject text.toList with
    | ok members => exact Contents.alike_ofOutcomes (Contents.alike_ofMember path path') _ _ _
    | error problem => exact .error
  | csv => exact Contents.alike_ofOutcomes (Contents.alike_ofRecord path path') _ _ _

theorem TextFile.alike_parse {f g : TextFile} (hformat : f.format = g.format)
    (hcontent : f.content = g.content) (hencoding : f.encoding = g.encoding) :
    Contents.Alike f.parse g.parse := by
  unfold parse decode decodeContent
  rw [hformat, hcontent, hencoding]
  generalize g.encoding.effective g.content = effective
  obtain ⟨encoding, bytes⟩ := effective
  dsimp only
  cases encoding.decode? bytes with
  | none => exact .error
  | some text => exact g.format.alike_parse f.path g.path text

end Phrasebook
