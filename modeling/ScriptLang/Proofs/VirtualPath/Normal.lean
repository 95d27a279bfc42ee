import Mathlib.Data.List.Basic
import ScriptLang.VirtualPath

/-!
# Paths in normal form

What resolution gives is a slash and segments with single slashes between them, and such a path
stands for itself wherever it is seen from.

Results:
* `splitSlashes_intercalate`: to split a text at the slashes undoes joining with slashes;
* `isSegment_segmentsOf`: the parts of any text lead to segments;
* `lead_segments`: segments lead to themselves;
* `resolve_resolve`: resolving a resolved path changes nothing.
-/
namespace ScriptLang.VirtualPath

/-- What can stand between the slashes of a path in normal form. -/
structure IsSegment (part : List Char) : Prop where
  ne_nil : part ≠ []
  ne_dot : part ≠ ['.']
  ne_dots : part ≠ ['.', '.']
  no_slash : '/' ∉ part

/-! ## Splitting -/

theorem splitSlashes_slash (rest : List Char) :
    splitSlashes ('/' :: rest) = [] :: splitSlashes rest := by
  simp [splitSlashes]

theorem splitSlashes_no_slash (cs : List Char) : ∀ part ∈ splitSlashes cs, '/' ∉ part := by
  induction cs with
  | nil => simp [splitSlashes]
  | cons c cs ih =>
    rw [splitSlashes]
    split
    · simpa using ih
    · next hc =>
      split
      · simpa using Ne.symm hc
      · next part parts heq =>
        rw [heq] at ih
        obtain ⟨hpart, hparts⟩ := List.forall_mem_cons.mp ih
        exact List.forall_mem_cons.mpr ⟨by simp [Ne.symm hc, hpart], hparts⟩

/-- A part without slashes stays before the first slash. -/
theorem splitSlashes_append {part : List Char} (h : '/' ∉ part) (cs first : List Char)
    (parts : List (List Char)) (hcs : splitSlashes cs = first :: parts) :
    splitSlashes (part ++ cs) = (part ++ first) :: parts := by
  induction part with
  | nil => simpa using hcs
  | cons c part ih =>
    have hc : c ≠ '/' := fun he => h (by simp [he])
    rw [List.cons_append, splitSlashes, if_neg hc, ih fun hm => h (List.mem_cons_of_mem c hm)]
    rfl

theorem splitSlashes_intercalate {parts : List (List Char)} (hne : parts ≠ [])
    (h : ∀ part ∈ parts, '/' ∉ part) : splitSlashes (['/'].intercalate parts) = parts := by
  induction parts with
  | nil => exact absurd rfl hne
  | cons part parts ih =>
    obtain ⟨hpart, hparts⟩ := List.forall_mem_cons.mp h
    cases parts with
    | nil =>
      have := splitSlashes_append hpart [] [] [] rfl
      simpa [List.intercalate] using this
    | cons next parts =>
      have hjoin : ['/'].intercalate (part :: next :: parts) =
          part ++ '/' :: ['/'].intercalate (next :: parts) := by
        simp [List.intercalate]
      rw [hjoin, splitSlashes_append hpart _ _ _ (splitSlashes_slash _), List.append_nil,
        ih (by simp) hparts]

theorem splitSlashes_ne_nil (cs : List Char) : splitSlashes cs ≠ [] := by
  cases cs with
  | nil => exact List.cons_ne_nil _ _
  | cons c cs =>
    unfold splitSlashes
    split
    · exact List.cons_ne_nil _ _
    · split <;> exact List.cons_ne_nil _ _

/-- A slash stands between the parts before it and those after it. -/
theorem splitSlashes_append_slash (as bs : List Char) :
    splitSlashes (as ++ '/' :: bs) = splitSlashes as ++ splitSlashes bs := by
  induction as with
  | nil => exact splitSlashes_slash bs
  | cons c as ih =>
    by_cases hc : c = '/'
    · rw [List.cons_append, hc, splitSlashes_slash, splitSlashes_slash, ih, List.cons_append]
    · rw [List.cons_append, splitSlashes, if_neg hc, ih, splitSlashes, if_neg hc]
      cases hparts : splitSlashes as with
      | nil => exact absurd hparts (splitSlashes_ne_nil as)
      | cons part parts => rfl

/-! ## Segments -/

/-- The segments that some parts lead to from others. -/
def lead (segments parts : List (List Char)) : List (List Char) :=
  (parts.foldl step segments.reverse).reverse

theorem segmentsOf_eq (parts : List (List Char)) : segmentsOf parts = lead [] parts := rfl

theorem lead_append (segments as bs : List (List Char)) :
    lead segments (as ++ bs) = lead (lead segments as) bs := by
  rw [lead, lead, lead, List.foldl_append, List.reverse_reverse]

theorem lead_no_parts (segments : List (List Char)) : lead segments [] = segments :=
  List.reverse_reverse segments

/-- Empty parts, such as those around a slash at an end, lead nowhere. -/
theorem lead_nil (segments parts : List (List Char)) :
    lead segments ([] :: parts) = lead segments parts := rfl

theorem isSegment_step {segments : List (List Char)} {part : List Char} (hpart : '/' ∉ part)
    (h : ∀ s ∈ segments, IsSegment s) : ∀ s ∈ step segments part, IsSegment s := by
  unfold step
  split
  · exact h
  · next hkept =>
    obtain ⟨hnil, hdot⟩ := not_or.mp hkept
    split
    · exact fun s hs => h s (List.mem_of_mem_tail hs)
    · next hdots => exact List.forall_mem_cons.mpr ⟨⟨hnil, hdot, hdots, hpart⟩, h⟩

theorem isSegment_segmentsOf {parts : List (List Char)} (h : ∀ part ∈ parts, '/' ∉ part) :
    ∀ s ∈ segmentsOf parts, IsSegment s := by
  have fold : ∀ (parts segments : List (List Char)), (∀ part ∈ parts, '/' ∉ part) →
      (∀ s ∈ segments, IsSegment s) → ∀ s ∈ parts.foldl step segments, IsSegment s := by
    intro parts
    induction parts with
    | nil => exact fun segments _ hs => hs
    | cons part parts ih =>
      intro segments hparts hs
      obtain ⟨hpart, hparts⟩ := List.forall_mem_cons.mp hparts
      exact ih _ hparts (isSegment_step hpart hs)
  intro s hs
  exact fold parts [] h (by simp) s (List.mem_reverse.mp hs)

/-- Segments are parts that are all kept. -/
theorem lead_segments (before : List (List Char)) {segments : List (List Char)}
    (h : ∀ s ∈ segments, IsSegment s) : lead before segments = before ++ segments := by
  induction segments generalizing before with
  | nil => rw [lead_no_parts, List.append_nil]
  | cons s segments ih =>
    obtain ⟨hs, hsegments⟩ := List.forall_mem_cons.mp h
    have hstep : lead before (s :: segments) = lead (before ++ [s]) segments := by
      simp [lead, step, hs.ne_nil, hs.ne_dot, hs.ne_dots]
    rw [hstep, ih _ hsegments, List.append_assoc, List.singleton_append]

/-- A text of segments leads to them. -/
theorem lead_intercalate (before : List (List Char)) {segments : List (List Char)}
    (h : ∀ s ∈ segments, IsSegment s) :
    lead before (splitSlashes (['/'].intercalate segments)) = before ++ segments := by
  by_cases hnil : segments = []
  · subst hnil
    rw [List.append_nil]
    exact lead_no_parts before
  · rw [splitSlashes_intercalate hnil fun s hs => (h s hs).no_slash, lead_segments before h]

theorem segmentsOf_render {segments : List (List Char)} (h : ∀ s ∈ segments, IsSegment s) :
    segmentsOf (splitSlashes (render segments)) = segments := by
  rw [render, splitSlashes_slash, segmentsOf_eq, lead_nil, lead_intercalate [] h]
  rfl

/-! ## Resolution -/

/-- A path of segments stands for itself. -/
theorem resolveChars_render {segments : List (List Char)} (h : ∀ s ∈ segments, IsSegment s)
    (directory : List Char) : resolveChars (render segments) directory = render segments := by
  have hlocated : located (withoutTilde (render segments)) directory = render segments := rfl
  rw [resolveChars, hlocated, segmentsOf_render h]

theorem resolve_resolve (path directory other : String) :
    resolve (resolve path directory) other = resolve path directory := by
  unfold resolve
  rw [String.toList_ofList]
  exact congrArg String.ofList
    (resolveChars_render (isSegment_segmentsOf (splitSlashes_no_slash _)) _)

/-- The path is its own normal form. -/
def IsNormal (path : String) : Prop := resolve path root = path

theorem isNormal_resolve (path directory : String) : IsNormal (resolve path directory) :=
  resolve_resolve path directory root

end ScriptLang.VirtualPath
