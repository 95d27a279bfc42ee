import ScriptLang.Proofs.Grammar.Image
import ScriptLang.Proofs.Token.Scanner

/-!
# Where the tokens of a text stand

Scanning loses nothing but layout. Each token is the text of a stretch of the source, written as it
stands there, and its place is counted from the text before it; the stretches follow one another,
and what is between them, before the first and after the last is layout. By induction on the steps
of the scanner: layout makes the last gap longer, and a word ends it.

Results:
* `Spanned.layout`, `Spanned.word`: what one step of the scanner keeps;
* `ofSource_spans`: the spans of the tokens of a text.
-/
namespace ScriptLang

/-- A stretch of a text, from an index up to another. -/
structure TextSpan where
  start : Nat
  stop : Nat
  deriving DecidableEq, Repr

namespace TextSpan

/-- The text of a stretch. -/
def slice (sp : TextSpan) (cs : List Char) : List Char :=
  (cs.drop sp.start).take (sp.stop - sp.start)

/-- The stretches between some spans, before the first and after the last, in a text of length `n`.
-/
def gaps (spans : List TextSpan) (n : Nat) : List TextSpan :=
  List.zipWith TextSpan.mk (0 :: spans.map stop) (spans.map start ++ [n])

theorem slice_left {start : Nat} {us : List Char} (h : start ≤ us.length) (vs : List Char) :
    (TextSpan.mk start us.length).slice (us ++ vs) = us.drop start := by
  have hlength : us.length - start = (us.drop start).length := List.length_drop.symm
  rw [slice, List.drop_append_of_le_length h, hlength, List.take_left]

theorem gaps_concat (spans : List TextSpan) (sp : TextSpan) (n : Nat) :
    gaps (spans ++ [sp]) n = gaps spans sp.start ++ [⟨sp.stop, n⟩] := by
  unfold gaps
  rw [List.map_append, List.map_append, List.map_singleton, List.map_singleton, ← List.cons_append,
    List.zipWith_append (by simp)]
  rfl

theorem gaps_first (sp : TextSpan) (spans : List TextSpan) (n : Nat) :
    ⟨0, sp.start⟩ ∈ gaps (sp :: spans) n := List.mem_cons_self

theorem gaps_last {spans : List TextSpan} {last : TextSpan} (h : spans.getLast? = some last)
    (n : Nat) : ⟨last.stop, n⟩ ∈ gaps spans n := by
  obtain ⟨front, rfl⟩ := List.getLast?_eq_some_iff.mp h
  rw [gaps_concat]
  exact List.mem_append_right _ (List.mem_singleton.mpr rfl)

end TextSpan

/-- The spans of the tokens of a source text. -/
structure Spans (source : List Char) (tokens : List Token) (spans : List TextSpan) : Prop where
  /-- Each token is written in its span, and its place is the one after the text before it. -/
  words : List.Forall₂ (fun t sp => sp.slice source = t.word.spelling.toList ∧
    t.position = .after (source.take sp.start)) tokens spans
  nonempty : ∀ sp ∈ spans, sp.start < sp.stop
  ordered : spans.Pairwise (·.stop ≤ ·.start)
  inside : ∀ sp ∈ spans, sp.stop ≤ source.length
  layout : ∀ gap ∈ TextSpan.gaps spans source.length,
    Layout (gap.stop = source.length) (gap.slice source)

namespace Lexeme

/-- The spans of the tokens that have been found in the text before a place. The last gap may still
become longer, by the end of the line if it ends with a comment. -/
structure Spanned (source before rest : List Char) (tokens : List Token)
    (spans front : List TextSpan) (last : Nat) : Prop where
  words : List.Forall₂ (fun t sp => sp.slice source = t.word.spelling.toList ∧
    t.position = .after (source.take sp.start)) tokens spans
  nonempty : ∀ sp ∈ spans, sp.start < sp.stop
  ordered : spans.Pairwise (·.stop ≤ ·.start)
  inside : ∀ sp ∈ spans, sp.stop ≤ before.length
  gaps : ∀ n, TextSpan.gaps spans n = front ++ [⟨last, n⟩]
  closed : ∀ gap ∈ front, Layout False (gap.slice source)
  last_le : last ≤ before.length
  unclosed : Layout (EndsLine rest) (before.drop last)

theorem Takes.layout {piece rest cs : List Char} (h : Takes piece none rest)
    (hcs : Layout (EndsLine (piece ++ rest)) cs) : Layout (EndsLine rest) (cs ++ piece) := by
  cases h with
  | blank hc => exact hcs.blank_right hc
  | comment hbody hrest =>
    have hclosed : Layout False cs :=
      hcs.mono fun hends => absurd (endsLine_cons.mp hends) (by decide)
    exact hclosed.append (.lastComment hrest hbody)

theorem not_isBlank_of_lexical {w : Word} (h : w.IsLexical) {c : Char} {tail : List Char}
    (hs : w.spelling.toList = c :: tail) : isBlank c = false := by
  obtain ⟨d, tail', hs', hf⟩ := h.scansAs [] (.inl rfl)
  obtain ⟨rfl, rfl⟩ := List.cons.inj (hs.symm.trans hs')
  refine Bool.eq_false_iff.mpr fun hblank => ?_
  rw [first, if_pos hblank] at hf
  cases hf

namespace Spanned

variable {source before piece rest : List Char} {tokens : List Token} {spans front : List TextSpan}
  {last : Nat} {w : Word}

theorem start (source : List Char) : Spanned source [] source [] [] [] 0 where
  words := .nil
  nonempty := by simp
  ordered := .nil
  inside := by simp
  gaps n := rfl
  closed := by simp
  last_le := Nat.le_refl _
  unclosed := .nil

theorem layout (h : Spanned source before (piece ++ rest) tokens spans front last)
    (htakes : Takes piece none rest) :
    Spanned source (before ++ piece) rest tokens spans front last where
  words := h.words
  nonempty := h.nonempty
  ordered := h.ordered
  inside sp hsp := by
    have := h.inside sp hsp
    rw [List.length_append]
    omega
  gaps := h.gaps
  closed := h.closed
  last_le := by
    have := h.last_le
    rw [List.length_append]
    omega
  unclosed := by
    rw [List.drop_append_of_le_length h.last_le]
    exact htakes.layout h.unclosed

theorem word (h : Spanned source before (w.spelling.toList ++ rest) tokens spans front last)
    (hsource : source = before ++ (w.spelling.toList ++ rest)) (hw : w.IsLexical) :
    Spanned source (before ++ w.spelling.toList) rest (tokens ++ found before (some w))
      (spans ++ [⟨before.length, (before ++ w.spelling.toList).length⟩])
      (front ++ [⟨last, before.length⟩]) (before ++ w.spelling.toList).length where
  words := by
    refine List.rel_append h.words (.cons ⟨?_, ?_⟩ .nil)
    · rw [hsource, ← List.append_assoc, TextSpan.slice_left (by simp), List.drop_left]
      rfl
    · show Position.after before = .after (source.take before.length)
      rw [hsource, List.take_left]
  nonempty := by
    refine List.forall_mem_append.mpr ⟨h.nonempty, List.forall_mem_singleton.mpr ?_⟩
    have hpos := List.length_pos_iff.mpr hw.spelling_ne_nil
    rw [List.length_append]
    exact Nat.lt_add_of_pos_right hpos
  ordered := by
    refine List.pairwise_append.mpr
      ⟨h.ordered, List.pairwise_singleton _ _, fun sp hsp sp' hsp' => ?_⟩
    rw [List.mem_singleton.mp hsp']
    exact h.inside sp hsp
  inside := by
    refine List.forall_mem_append.mpr
      ⟨fun sp hsp => ?_, List.forall_mem_singleton.mpr (Nat.le_refl _)⟩
    have := h.inside sp hsp
    rw [List.length_append]
    omega
  gaps n := by rw [TextSpan.gaps_concat, h.gaps]
  closed := by
    refine List.forall_mem_append.mpr ⟨h.closed, List.forall_mem_singleton.mpr ?_⟩
    rw [hsource, TextSpan.slice_left h.last_le]
    refine h.unclosed.mono fun hends => ?_
    -- a line feed starts no word
    obtain ⟨c, tail, hc⟩ := List.exists_cons_of_ne_nil hw.spelling_ne_nil
    rw [hc] at hends
    obtain rfl := endsLine_cons.mp hends
    exact absurd (not_isBlank_of_lexical hw hc) (by decide)
  last_le := Nat.le_refl _
  unclosed := by
    rw [List.drop_length]
    exact .nil

end Spanned

theorem Scanning.spanned {source before rest : List Char} {tokens : List Token}
    (h : Scanning source before rest tokens) :
    ∃ spans front last, Spanned source before rest tokens spans front last := by
  induction h with
  | start => exact ⟨_, _, _, .start source⟩
  | @step before piece rest tokens w hscan htakes ih =>
    obtain ⟨spans, front, last, hspanned⟩ := ih
    cases w with
    | none =>
      rw [found, Option.map_none, Option.toList_none, List.append_nil]
      exact ⟨_, _, _, hspanned.layout htakes⟩
    | some w =>
      have hsource := hscan.source_eq
      cases htakes with
      | word _ hw => exact ⟨_, _, _, hspanned.word hsource hw.lexical⟩

end Lexeme

theorem exists_spans {source : String} {s : TokenStream} (h : TokenStream.ofSource source = .ok s) :
    ∃ spans, Spans source.toList s.tokens spans := by
  obtain ⟨spans, front, last, hspanned⟩ := (scanning_of_ofSource h).1.spanned
  refine ⟨spans, hspanned.words, hspanned.nonempty, hspanned.ordered, hspanned.inside, ?_⟩
  rw [hspanned.gaps]
  refine List.forall_mem_append.mpr ⟨fun gap hgap => ?_, List.forall_mem_singleton.mpr ?_⟩
  · exact (hspanned.closed gap hgap).mono False.elim
  · have hslice := TextSpan.slice_left hspanned.last_le []
    rw [List.append_nil] at hslice
    rw [hslice]
    exact hspanned.unclosed.mono fun _ => rfl

/-- A text that can be scanned is its tokens, each written in a span of its own, with layout between
them, before the first and after the last. The spans follow one another without overlap; the place
of a token is counted from the text before its span, and the one token at the end has the place of
the end of the text. -/
theorem ofSource_spans (source : String) (s : TokenStream)
    (h : TokenStream.ofSource source = .ok s) :
    (∃ spans, Spans source.toList s.tokens spans) ∧
      (∀ t ∈ s.tokens, t.kind ≠ .endOfInput) ∧
      s.last = ⟨.endOfInput, "EOF", .after source.toList⟩ :=
  ⟨exists_spans h, fun t ht => ((Grammar.scanned_ofSource h).1 t ht).ne_endOfInput,
    (scanning_of_ofSource h).2⟩

/-- Two strings, one of them over two lines, with comments and all blanks. -/
def mixedLayout : String := "a\t=\"//\n\"; // b\r\n 1.5\n\"\"//"

theorem mixedLayout_spans :
    ∃ s, TokenStream.ofSource mixedLayout = .ok s ∧
      (∃ spans, Spans mixedLayout.toList s.tokens spans) ∧
      (∀ t ∈ s.tokens, t.kind ≠ .endOfInput) ∧
      s.last = ⟨.endOfInput, "EOF", .after mixedLayout.toList⟩ :=
  ⟨_, rfl, ofSource_spans mixedLayout _ rfl⟩

end ScriptLang
