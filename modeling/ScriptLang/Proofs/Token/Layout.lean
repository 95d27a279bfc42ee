import ScriptLang.Token.Lexeme

/-!
# Layout

What stands between the words of a text: blanks, and comments up to the ends of their lines. A
comment without an end of line after it can only be the last of a text, so layout is told apart by
whether the text ends with it.

Results:
* `Layout.append`, `Layout.append_atEnd`: layout after layout is layout;
* `Layout.newline`: a line feed ends every comment.
-/
namespace ScriptLang

/-- The text is over, or its line is. -/
def EndsLine (rest : List Char) : Prop := rest = [] ∨ ∃ more, rest = '\n' :: more

theorem endsLine_cons {c : Char} {rest : List Char} : EndsLine (c :: rest) ↔ c = '\n' := by
  simp [EndsLine]

theorem dropWhile_line {line : List Char} (h : '\n' ∉ line) (rest : List Char) :
    (line ++ '\n' :: rest).dropWhile (· != '\n') = '\n' :: rest := by
  have inside : ∀ c ∈ line, (c != '\n') = true := fun c hc => bne_iff_ne.mpr fun heq => h (heq ▸ hc)
  rw [List.dropWhile_append_of_pos inside]
  rfl

/-- Blanks and comments. Each comment ends before a line feed; the last one need not if the layout
stands at the end of the text. -/
inductive Layout (atEnd : Prop) : List Char → Prop
  | nil : Layout atEnd []
  | blank {c : Char} {cs : List Char} : Lexeme.isBlank c = true → Layout atEnd cs →
      Layout atEnd (c :: cs)
  | comment {body cs : List Char} : '\n' ∉ body → Layout atEnd cs →
      Layout atEnd ('/' :: '/' :: (body ++ '\n' :: cs))
  | lastComment {body : List Char} : atEnd → '\n' ∉ body → Layout atEnd ('/' :: '/' :: body)

namespace Layout

variable {P Q : Prop} {cs ds : List Char}

theorem mono (h : Layout P cs) (hpq : P → Q) : Layout Q cs := by
  induction h with
  | nil => exact .nil
  | blank hc _ ih => exact .blank hc ih
  | comment hbody _ ih => exact .comment hbody ih
  | lastComment hp hbody => exact .lastComment (hpq hp) hbody

theorem append (h : Layout False cs) (h' : Layout P ds) : Layout P (cs ++ ds) := by
  induction h with
  | nil => exact h'
  | blank hc _ ih => exact .blank hc ih
  | comment hbody _ ih =>
    rw [List.cons_append, List.cons_append, List.append_assoc]
    exact .comment hbody ih
  | lastComment hp => exact hp.elim

theorem newline (h : Layout P cs) : Layout Q (cs ++ ['\n']) := by
  induction h with
  | nil => exact .blank rfl .nil
  | blank hc _ ih => exact .blank hc ih
  | comment hbody _ ih =>
    rw [List.cons_append, List.cons_append, List.append_assoc]
    exact .comment hbody ih
  | lastComment _ hbody => exact .comment hbody .nil

/-- Layout that stands before the end of a line goes on with it. -/
theorem blank_right {c : Char} {rest : List Char} (h : Layout (EndsLine (c :: rest)) cs)
    (hc : Lexeme.isBlank c = true) : Layout P (cs ++ [c]) := by
  by_cases hline : c = '\n'
  · subst hline
    exact h.newline
  · exact (h.mono fun hends => hline (endsLine_cons.mp hends)).append (.blank hc .nil)

/-- The rest of layout after its first line is layout. -/
theorem after_newline (h : Layout P cs) {line rest : List Char} (hcs : cs = line ++ '\n' :: rest)
    (hline : '\n' ∉ line) : Layout P rest := by
  induction h generalizing line with
  | nil => simp at hcs
  | @blank c cs _ hlayout ih =>
    cases line with
    | nil =>
      obtain ⟨-, rfl⟩ := List.cons.inj hcs
      exact hlayout
    | cons d line => exact ih (List.cons.inj hcs).2 fun h => hline (List.mem_cons_of_mem _ h)
  | @comment body cs hbody hlayout _ =>
    have hbefore : '\n' ∉ '/' :: '/' :: body := by simp [hbody]
    have hsame : ('/' :: '/' :: body) ++ '\n' :: cs = line ++ '\n' :: rest := hcs
    have hdrop := congrArg (List.dropWhile (· != '\n')) hsame
    rw [dropWhile_line hbefore, dropWhile_line hline] at hdrop
    obtain ⟨-, rfl⟩ := List.cons.inj hdrop
    exact hlayout
  | @lastComment body _ hbody =>
    have hmem : '\n' ∈ '/' :: '/' :: body := by rw [hcs]; simp
    simp [hbody] at hmem

/-- At the end of a text more layout can be added to layout, though it may become part of a comment.
-/
theorem append_atEnd (h : Layout True cs) (h' : Layout True ds) : Layout True (cs ++ ds) := by
  induction h with
  | nil => exact h'
  | blank hc _ ih => exact .blank hc ih
  | comment hbody _ ih =>
    rw [List.cons_append, List.cons_append, List.append_assoc]
    exact .comment hbody ih
  | @lastComment body _ hbody =>
    rw [List.cons_append, List.cons_append]
    by_cases hline : '\n' ∈ ds
    · obtain ⟨line, rest, rfl, hno⟩ := List.eq_append_cons_of_mem hline
      rw [← List.append_assoc]
      refine .comment ?_ (h'.after_newline rfl hno)
      exact fun hmem => (List.mem_append.mp hmem).elim hbody hno
    · exact .lastComment trivial fun hmem => (List.mem_append.mp hmem).elim hbody hline

end Layout

end ScriptLang
