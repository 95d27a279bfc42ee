import ScriptLang.Proofs.Grammar.Sources
import ScriptLang.Proofs.Grammar.Storable
import ScriptLang.Proofs.Linked.Closure

/-!
# Programs from source

A program comes from source if it was parsed, or linked from files that were. Either way it is
well-formed: linking only puts the statements of files together.

Results:
* `Program.FromSource.wellFormed`: a program from source is well-formed;
* `Program.FromSource.isSound_values`: a text can hold all that a program from source is made of.
-/
namespace ScriptLang

/-- The program was parsed from a text or linked from the files of a store. -/
inductive Program.FromSource : Program → Prop
  | parsed {source : String} {tokens : TokenStream} {p : Program} :
      TokenStream.ofSource source = .ok tokens → Program.ofStream tokens = .ok p → FromSource p
  | linked {σ : Type} {store : Store (StateM σ)} {path : String} {s s' : σ} {linked : Linked} :
      link store path s = (.ok linked, s') → FromSource linked.program

/-- The numbers that number tokens stand for are among these. -/
def HasNumbers (numbers : Json → Prop) : Prop :=
  ∀ {text : String} {n : Json}, Grammar.NumberValue text n → numbers n

namespace Linked

variable {numbers : Json → Prop}

theorem isParsed_of_parseText {path text : String} {p : Program} (h : parseText path text = .ok p) :
    p.IsParsed text := by
  unfold parseText at h
  split at h
  · cases h
  · next s hs =>
    split at h
    · cases h
    · next q hq =>
      cases h
      exact ⟨s, hs, hq⟩

/-- A text that is scanned and is no program is none because of one of its tokens. -/
theorem pointsAt_of_parseRead {path path' : String} {r : ReadResult} {e : ParseError}
    (h : parseRead path r = .error (.parse path' e)) : ∃ t, e.PointsAt t := by
  cases r with
  | text source =>
    rw [parseRead, parseText] at h
    split at h
    · cases h
    · next tokens hscan =>
      split at h
      · next hparse =>
        cases h
        exact pointsAt_of_ofStream hscan hparse
      · cases h
  | absent => cases h
  | failed failure => cases h

theorem parseRead_wellFormed (hnumbers : HasNumbers numbers) {path : String} {r : ReadResult}
    {p : Program} (h : parseRead path r = .ok p) : p.WellFormed numbers := by
  cases r with
  | text source =>
    obtain ⟨tokens, hscan, hparse⟩ := isParsed_of_parseText h
    exact Grammar.wellFormed_of_parsed hnumbers hscan hparse
  | absent => cases h
  | failed failure => cases h

theorem sourceOf_wellFormed (hnumbers : HasNumbers numbers) (log : List (String × ReadResult))
    (f : String) : ∀ node ∈ sourceOf log f, WellFormedStatement numbers node := by
  unfold sourceOf
  split
  · next p hp =>
    obtain ⟨r, -, hr⟩ := Option.map_eq_some_iff.mp hp
    exact parseRead_wellFormed hnumbers hr
  · simp

theorem link_wellFormed (hnumbers : HasNumbers numbers) {σ : Type} {store : Store (StateM σ)}
    {path : String} {s s' : σ} {linked : Linked} (h : link store path s = (.ok linked, s')) :
    linked.program.WellFormed numbers := by
  obtain ⟨log, p', -, hnodup, -, hparsed, hwalk⟩ := linkWith_run h
  obtain ⟨body, hg, rfl⟩ := hwalk _ (agrees_sourceOf hnodup hparsed)
  obtain ⟨done, v⟩ := gathers_visit hg
  intro node hnode
  rcases List.mem_append.mp hnode with hnode | hnode
  · rw [v.body] at hnode
    obtain ⟨f, -, hnode⟩ := List.mem_flatMap.mp hnode
    exact sourceOf_wellFormed hnumbers log f node (List.mem_of_mem_filter hnode)
  · exact sourceOf_wellFormed hnumbers log _ node (List.mem_of_mem_filter hnode)

end Linked

namespace Program.FromSource

variable {p : Program}

theorem of_parseText {path text : String} (h : Linked.parseText path text = .ok p) :
    p.FromSource :=
  let ⟨_, hscan, hparse⟩ := Linked.isParsed_of_parseText h
  .parsed hscan hparse

theorem wellFormed_numbers {numbers : Json → Prop} (hnumbers : HasNumbers numbers)
    (h : p.FromSource) : p.WellFormed numbers := by
  cases h with
  | parsed hscan hparse => exact Grammar.wellFormed_of_parsed hnumbers hscan hparse
  | linked h => exact Linked.link_wellFormed hnumbers h

theorem wellFormed (h : p.FromSource) : p.WellFormed IsNonNegative :=
  h.wellFormed_numbers Grammar.isNonNegative_of_value

theorem isSound_values (h : p.FromSource) : ∀ v ∈ Node.allValues p.statements, v.IsSound :=
  (h.wellFormed_numbers Grammar.isSound_of_value).isSound_values

end Program.FromSource

end ScriptLang
