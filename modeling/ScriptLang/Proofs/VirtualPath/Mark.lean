import ScriptLang.Proofs.VirtualPath.Composition

/-!
# The mark of the root

A path that starts with the mark `~` is seen from the root if a slash follows. If none follows, the
mark is taken off and the rest is seen from the directory like any other path. It then leads to where
it leads to from the root exactly if it climbs at least as many levels as the directory has.

Results:
* `lead_eq_take`: what parts leave of the segments that they lead on from;
* `resolve_mark_iff`: when a marked path is seen from the root;
* `mark_not_root`: marked paths that are not.
-/
namespace ScriptLang.VirtualPath

/-! ## Climbing -/

/-- How many levels some parts lead above where they start, after some levels down. -/
def climb : Nat → List (List Char) → Nat
  | _, [] => 0
  | down, part :: parts =>
    if part = [] ∨ part = ['.'] then climb down parts
    else if part = ['.', '.'] then
      if down = 0 then climb 0 parts + 1 else climb (down - 1) parts
    else climb (down + 1) parts

theorem lead_cons (segments : List (List Char)) (part : List Char) (parts : List (List Char)) :
    lead segments (part :: parts) = lead (lead segments [part]) parts :=
  lead_append segments [part] parts

theorem lead_skip (segments : List (List Char)) {part : List Char} (h : part = [] ∨ part = ['.']) :
    lead segments [part] = segments := by
  rw [lead, List.foldl_cons, List.foldl_nil, step, if_pos h, List.reverse_reverse]

theorem lead_dots (segments : List (List Char)) : lead segments [['.', '.']] = segments.dropLast := by
  have hstep : step segments.reverse ['.', '.'] = segments.reverse.tail := rfl
  rw [lead, List.foldl_cons, List.foldl_nil, hstep, List.tail_reverse, List.reverse_reverse]

theorem lead_kept (segments : List (List Char)) {part : List Char} (h : ¬ (part = [] ∨ part = ['.']))
    (hdots : part ≠ ['.', '.']) : lead segments [part] = segments ++ [part] := by
  rw [lead, List.foldl_cons, List.foldl_nil, step, if_neg h, if_neg hdots, List.reverse_cons,
    List.reverse_reverse]

/-- Parts take away as many segments as they climb above what was added to them, and add their own. -/
theorem lead_eq_take (segments added parts : List (List Char)) :
    lead (segments ++ added) parts =
      segments.take (segments.length - climb added.length parts) ++ lead added parts := by
  induction parts generalizing segments added with
  | nil => rw [lead_no_parts, lead_no_parts, climb, Nat.sub_zero, List.take_length]
  | cons part parts ih =>
    rw [lead_cons, lead_cons added, climb]
    by_cases hskip : part = [] ∨ part = ['.']
    · rw [lead_skip _ hskip, lead_skip _ hskip, if_pos hskip]
      exact ih segments added
    · rw [if_neg hskip]
      by_cases hdots : part = ['.', '.']
      · subst hdots
        rw [lead_dots, lead_dots, if_pos rfl]
        rcases List.eq_nil_or_concat added with rfl | ⟨before, last, rfl⟩
        · -- nothing was added that could be taken back first
          have h := ih segments.dropLast []
          rw [List.append_nil, List.length_dropLast, List.length_nil, List.dropLast_eq_take,
            List.take_take, ← List.dropLast_eq_take] at h
          rw [List.append_nil, List.length_nil, if_pos rfl, List.dropLast_nil, h,
            Nat.min_eq_left (Nat.sub_le _ _), Nat.sub_sub, Nat.add_comm 1]
        · rw [List.concat_eq_append, ← List.append_assoc, List.dropLast_concat, List.dropLast_concat,
            List.length_append, List.length_singleton, if_neg (Nat.succ_ne_zero _),
            Nat.add_sub_cancel]
          exact ih segments before
      · rw [lead_kept _ hskip hdots, lead_kept _ hskip hdots, if_neg hdots, List.append_assoc]
        have h := ih segments (added ++ [part])
        rwa [List.length_append] at h

/-- Nothing is left of the segments exactly if the parts climb above all of them. -/
theorem lead_eq_lead_nil_iff (segments parts : List (List Char)) :
    lead segments parts = lead [] parts ↔ segments.length ≤ climb 0 parts := by
  have h := lead_eq_take segments [] parts
  rw [List.append_nil, List.length_nil] at h
  rw [h]
  constructor
  · intro heq
    have htake : segments.take (segments.length - climb 0 parts) = [] :=
      List.append_left_eq_self.mp heq
    have hlength := congrArg List.length htake
    rw [List.length_take, List.length_nil] at hlength
    omega
  · intro hle
    rw [Nat.sub_eq_zero_of_le hle, List.take_zero, List.nil_append]

/-! ## Marked paths -/

/-- How many levels below the root a directory is. -/
def depth (directory : String) : Nat := (segmentsOf (splitSlashes directory.toList)).length

/-- A marked path leads to where it leads to from the root if a slash follows the mark, or if the path
climbs at least as many levels as the directory has that it is seen from, and not otherwise. -/
theorem resolve_mark_iff (rest here : String) :
    resolve ("~" ++ rest) here = resolve ("/" ++ rest) root ↔
      rest.toList.head? = some '/' ∨ depth here ≤ climb 0 (splitSlashes rest.toList) := by
  have hmarked : resolve ("~" ++ rest) here =
      String.ofList (render (reach rest.toList here.toList)) := by
    rw [resolve_eq, String.toList_append]
    rfl
  have hslashed : resolve ("/" ++ rest) root =
      String.ofList (render (lead [] (splitSlashes rest.toList))) := by
    have hreach : reach ('/' :: rest.toList) root.toList = lead [] (splitSlashes rest.toList) := by
      rw [reach, splitSlashes_slash, lead_nil]
      rfl
    rw [resolve_eq, String.toList_append, ← hreach]
    rfl
  have hsegments : resolve ("~" ++ rest) here = resolve ("/" ++ rest) root ↔
      reach rest.toList here.toList = lead [] (splitSlashes rest.toList) := by
    rw [hmarked, hslashed, String.ofList_inj]
    refine ⟨render_injective (isSegment_reach _ _) ?_, congrArg render⟩
    exact isSegment_segmentsOf (splitSlashes_no_slash _)
  rw [hsegments, reach]
  by_cases hslash : rest.toList.head? = some '/'
  · rw [if_pos hslash]
    exact ⟨fun _ => .inl hslash, fun _ => rfl⟩
  · rw [if_neg hslash, lead_eq_lead_nil_iff]
    exact ⟨.inr, fun h => h.resolve_left hslash⟩

/-- Seen from a directory below the root, `~util.obpi` and `~` alone do not lead to where they lead to
from the root. -/
theorem mark_not_root :
    resolve ("~" ++ "util.obpi") "/app" ≠ resolve ("/" ++ "util.obpi") root ∧
      resolve ("~" ++ "") "/app" ≠ resolve ("/" ++ "") root := by
  decide

end ScriptLang.VirtualPath
