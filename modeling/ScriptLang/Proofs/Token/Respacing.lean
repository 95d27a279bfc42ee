import ScriptLang.Proofs.Token.Spans

/-!
# Other layout, and more text

What the scanner makes of a text when the layout between its words is another one, or when more text
comes behind it on a new line. The words stay the same, because each of them ends at the layout
behind it, and only their places change. The one word that layout could disturb is the division
sign, which starts a comment with another slash; but its place in the text tells that no comment
starts there.

Results:
* `Scanning.layout`: the scanner passes over layout;
* `Scanning.respaced`: the words of a text are found in it with other layout between them;
* `Scanning.join`: the words of two texts, one behind the other on a new line.
-/
namespace ScriptLang

/-- Layout that starts with a blank. -/
structure Spacing (atEnd : Prop) (cs : List Char) : Prop where
  layout : Layout atEnd cs
  blank : ∃ c rest, cs = c :: rest ∧ Lexeme.isBlank c = true

/-- A text from an index on, but with other texts in the place of the stretches between consecutive
spans. -/
def respaced (source : List Char) : Nat → List TextSpan → List (List Char) → List Char
  | start, sp :: next :: spans, gap :: inner =>
    (TextSpan.mk start sp.stop).slice source ++ gap ++
      respaced source next.start (next :: spans) inner
  | start, _, _ => source.drop start

theorem Position.eq_nil_of_after {before cs : List Char}
    (h : Position.after (before ++ cs) = Position.after before) : cs = [] := by
  unfold Position.after at h
  obtain ⟨hline, hcolumn⟩ := Position.mk.inj h
  rw [List.count_append] at hline
  have hcount : cs.count '\n' = 0 := by omega
  have hinside : ∀ c ∈ cs.reverse, (c != '\n') = true := fun c hc =>
    bne_iff_ne.mpr fun heq => List.count_eq_zero.mp hcount (heq ▸ List.mem_reverse.mp hc)
  rw [List.reverse_append, List.takeWhile_append_of_pos hinside, List.length_append,
    List.length_reverse] at hcolumn
  exact List.eq_nil_of_length_eq_zero (by omega)

/-- The places of a text are told apart by line and column. -/
theorem Position.after_inj {us us' vs vs' : List Char} (htext : us ++ vs = us' ++ vs')
    (h : Position.after us = Position.after us') : vs = vs' := by
  rcases List.append_eq_append_iff.mp htext with ⟨ws, rfl, rfl⟩ | ⟨ws, rfl, rfl⟩
  · rw [eq_nil_of_after h.symm, List.nil_append]
  · rw [eq_nil_of_after h, List.nil_append]

namespace TextSpan

theorem drop_start {a b : Nat} (h : a ≤ b) (cs : List Char) :
    cs.drop a = (TextSpan.mk a b).slice cs ++ cs.drop b := by
  have hdrop : cs.drop b = (cs.drop a).drop (b - a) := by rw [List.drop_drop, Nat.add_sub_cancel' h]
  rw [slice, hdrop, List.take_append_drop]

theorem slice_append {a b c : Nat} (hab : a ≤ b) (hbc : b ≤ c) (cs : List Char) :
    (TextSpan.mk a b).slice cs ++ (TextSpan.mk b c).slice cs = (TextSpan.mk a c).slice cs := by
  have hdrop : cs.drop b = (cs.drop a).drop (b - a) := by
    rw [List.drop_drop, Nat.add_sub_cancel' hab]
  have hlength : c - a = (b - a) + (c - b) := by omega
  unfold slice
  rw [hdrop, hlength, List.take_add]

end TextSpan

/-- What stands before the first span stays as it is. -/
theorem respaced_start {start : Nat} {sp : TextSpan} (hstart : start ≤ sp.start)
    (hstop : sp.start ≤ sp.stop) (source : List Char) (spans : List TextSpan)
    (inner : List (List Char)) :
    respaced source start (sp :: spans) inner =
      (TextSpan.mk start sp.start).slice source ++
        respaced source sp.start (sp :: spans) inner := by
  have hwhole := TextSpan.drop_start hstart source
  match spans, inner with
  | [], _ => exact hwhole
  | _ :: _, [] => exact hwhole
  | next :: spans, gap :: inner =>
    rw [respaced, respaced, ← TextSpan.slice_append hstart hstop, List.append_assoc,
      List.append_assoc, List.append_assoc]

theorem Layout.separates {P : Prop} {d : Char} {cs : List Char} (h : Layout P (d :: cs)) :
    Separates d := by
  cases h with
  | blank hd => exact .inl hd
  | comment => exact .inr rfl
  | lastComment => exact .inr rfl

theorem Layout.of_spacing {P : Prop} {cs : List Char} (h : cs = [] ∨ Spacing P cs) :
    Layout P cs := by
  rcases h with rfl | h
  · exact .nil
  · exact h.layout

theorem Word.IsLexical.not_startsComment {w : Word} (h : w.IsLexical) :
    ¬ StartsComment w.spelling.toList := by
  rintro ⟨more, hs⟩
  obtain ⟨c, tail, hs', hf⟩ := h.scansAs [] (.inl rfl)
  obtain ⟨rfl, rfl⟩ := List.cons.inj (hs.symm.trans hs')
  cases hf

namespace Lexeme

/-! ## Steps in other texts -/

namespace Takes

variable {piece rest gap trail : List Char} {w : Word}

/-- A word is taken as it is written. -/
theorem longest (h : Takes piece (some w) rest) :
    piece = w.spelling.toList ∧ ¬ StartsComment (w.spelling.toList ++ rest) ∧
      Longest w (w.spelling.toList ++ rest) := by
  cases h with
  | word hno hw => exact ⟨rfl, hno, hw⟩

/-- More text behind a blank does not change the word that is taken. -/
theorem append_blank (h : Takes piece (some w) rest) {d : Char} (hd : isBlank d = true)
    (more : List Char) : Takes piece (some w) (rest ++ d :: more) := by
  obtain ⟨rfl, hno, hw⟩ := h.longest
  have hne : w.spelling.toList ++ rest ≠ [] :=
    List.append_ne_nil_of_left_ne_nil hw.lexical.spelling_ne_nil rest
  have hslash : d ≠ '/' := by
    rintro rfl
    exact absurd hd (by decide)
  refine .word (fun hcomment => ?_) ?_
  · rw [← List.append_assoc] at hcomment
    exact hno (startsComment_of_append hne hslash hcomment)
  · rw [← List.append_assoc]
    exact hw.append_separator (.inl hd) more

/-- More text on a new line does not change what is taken. -/
theorem append_newline {w : Option Word} (h : Takes piece w rest) (more : List Char) :
    Takes piece w (rest ++ '\n' :: more) := by
  cases h with
  | blank hc => exact .blank hc
  | comment hbody hrest =>
    refine .comment hbody (.inr ?_)
    rcases hrest with rfl | ⟨after, rfl⟩
    · exact ⟨more, rfl⟩
    · exact ⟨after ++ '\n' :: more, rfl⟩
  | word hno hw => exact append_blank (.word hno hw) rfl more

/-- A word that stands alone is taken. -/
theorem alone (h : w.IsLexical) : Takes w.spelling.toList (some w) [] := by
  refine .word ?_ ?_
  · rw [List.append_nil]
    exact h.not_startsComment
  · rw [List.append_nil]
    exact .of_lexical h

theorem append_spacing {P : Prop} (h : Takes piece (some w) rest) (hgap : Spacing P gap)
    (more : List Char) : Takes piece (some w) (rest ++ (gap ++ more)) := by
  obtain ⟨d, cs, rfl, hd⟩ := hgap.blank
  exact h.append_blank hd (cs ++ more)

/-- A word is taken before layout that starts no comment with it. -/
theorem before_layout {P : Prop} (h : w.IsLexical)
    (hno : ¬ StartsComment (w.spelling.toList ++ gap)) (hgap : Layout P gap) :
    Takes w.spelling.toList (some w) gap := by
  cases gap with
  | nil => exact alone h
  | cons d cs => exact .word hno ((Longest.of_lexical h).append_separator hgap.separates cs)

end Takes

namespace Scanning

variable {source before piece rest gap : List Char} {tokens : List Token} {w : Word}

/-- The scanner goes on behind layout that it passes over. -/
theorem skip (h : Scanning source before (piece ++ rest) tokens) (htakes : Takes piece none rest) :
    Scanning source (before ++ piece) rest tokens := by
  have hstep := h.step htakes
  rwa [found, Option.map_none, Option.toList_none, List.append_nil] at hstep

theorem layout (h : Scanning source before (gap ++ rest) tokens) (hgap : Layout (rest = []) gap) :
    Scanning source (before ++ gap) rest tokens := by
  induction hgap generalizing before with
  | nil => rwa [List.append_nil]
  | @blank c cs hc _ ih =>
    have hone : Scanning source before ([c] ++ (cs ++ rest)) tokens := h
    rw [List.append_cons]
    exact ih (hone.skip (.blank hc))
  | @comment body cs hbody _ ih =>
    have hcomment :
        Scanning source before (('/' :: '/' :: body) ++ '\n' :: (cs ++ rest)) tokens := by
      simpa using h
    have hline : Scanning source (before ++ '/' :: '/' :: body) (['\n'] ++ (cs ++ rest)) tokens :=
      hcomment.skip (.comment hbody (.inr ⟨_, rfl⟩))
    simpa using ih (hline.skip (.blank rfl))
  | lastComment hrest hbody => exact h.skip (.comment hbody (.inl hrest))

theorem to_end (h : Scanning source before [] tokens) : Scanning source source [] tokens := by
  have hsource : source = before := h.source_eq.trans (List.append_nil before)
  rwa [← hsource] at h

theorem layout_to_end (h : Scanning source before gap tokens) (hgap : Layout True gap) :
    Scanning source source [] tokens := by
  rw [← List.append_nil gap] at h
  exact (h.layout (hgap.mono fun _ => rfl)).to_end

/-- At the place of a token no comment starts. -/
theorem not_comment_at (h : Scanning source before rest tokens) :
    ∀ t ∈ tokens, ∃ us vs, source = us ++ vs ∧ t.position = .after us ∧ ¬ StartsComment vs := by
  induction h with
  | start => simp
  | @step before piece rest tokens w hscan htakes ih =>
    refine List.forall_mem_append.mpr ⟨ih, fun t ht => ?_⟩
    cases htakes with
    | blank | comment => cases ht
    | word hno =>
      obtain rfl := List.mem_singleton.mp ht
      exact ⟨before, _, hscan.source_eq, rfl, hno⟩

end Scanning

/-! ## Other layout between words -/

/-- The token stands in the span, and can be taken there. -/
structure Stands (source : List Char) (t : Token) (sp : TextSpan) : Prop where
  lexical : t.word.IsLexical
  slice : sp.slice source = t.word.spelling.toList
  rest : source.drop sp.start = t.word.spelling.toList ++ source.drop sp.stop
  noComment : ¬ StartsComment (source.drop sp.start)

theorem stands_of_spans {source : String} {s : TokenStream}
    (h : TokenStream.ofSource source = .ok s) {spans : List TextSpan}
    (hspans : Spans source.toList s.tokens spans) :
    List.Forall₂ (Stands source.toList) s.tokens spans := by
  have hscan := (scanning_of_ofSource h).1
  have hlexed := (Grammar.scanned_ofSource h).1
  refine List.forall₂_iff_zip.mpr ⟨hspans.words.length_eq, fun {t sp} hmem => ?_⟩
  obtain ⟨hslice, hposition⟩ := List.forall₂_zip hspans.words hmem
  obtain ⟨ht, hsp⟩ := List.of_mem_zip hmem
  have hrest := TextSpan.drop_start (Nat.le_of_lt (hspans.nonempty sp hsp)) source.toList
  rw [hslice] at hrest
  obtain ⟨us, vs, hsource, hus, hno⟩ := hscan.not_comment_at t ht
  have hvs : vs = source.toList.drop sp.start := by
    refine Position.after_inj ?_ (hus.symm.trans hposition)
    rw [← hsource, List.take_append_drop]
  exact ⟨Word.lexed_iff.mp (hlexed t ht), hslice, hrest, hvs ▸ hno⟩

theorem Scanning.respaced {source new before trail : List Char} {t : Token} {tokens ts : List Token}
    {sp : TextSpan} {spans : List TextSpan} {inner : List (List Char)}
    (hwords : List.Forall₂ (Stands source) (t :: tokens) (sp :: spans))
    (hlast : ∀ last, (sp :: spans).getLast? = some last → Layout True (source.drop last.stop))
    (hinner : ∀ gap ∈ inner, Spacing False gap) (hlength : spans.length ≤ inner.length)
    (htrail : trail = [] ∨ Spacing True trail)
    (h : Scanning new before (respaced source sp.start (sp :: spans) inner ++ trail) ts) :
    ∃ us, Scanning new new [] (ts ++ us) ∧ us.map Token.word = (t :: tokens).map Token.word := by
  induction spans generalizing sp t tokens before ts inner with
  | nil =>
    obtain ⟨ht, htokens⟩ := List.forall₂_cons.mp hwords
    obtain rfl := List.forall₂_nil_right_iff.mp htokens
    have hgap := hlast sp rfl
    have hrespaced : ScriptLang.respaced source sp.start [sp] inner = source.drop sp.start := by
      unfold ScriptLang.respaced
      rfl
    rw [hrespaced, ht.rest, List.append_assoc] at h
    have htakes : Takes t.word.spelling.toList (some t.word) (source.drop sp.stop ++ trail) := by
      have hword := Takes.before_layout ht.lexical (ht.rest ▸ ht.noComment) hgap
      rcases htrail with rfl | htrail
      · rwa [List.append_nil]
      · simpa using hword.append_spacing htrail []
    exact ⟨_, (h.step htakes).layout_to_end (hgap.append_atEnd (.of_spacing htrail)), rfl⟩
  | cons next spans ih =>
    obtain ⟨ht, htokens⟩ := List.forall₂_cons.mp hwords
    obtain ⟨t', tokens', -, -, rfl⟩ := List.forall₂_cons_right_iff.mp htokens
    obtain ⟨gap, inner, rfl⟩ := List.exists_cons_of_length_pos (Nat.zero_lt_of_lt hlength)
    obtain ⟨hgap, hinner⟩ := List.forall_mem_cons.mp hinner
    have hrespaced : ScriptLang.respaced source sp.start (sp :: next :: spans) (gap :: inner) =
        t.word.spelling.toList ++ gap ++
          ScriptLang.respaced source next.start (next :: spans) inner := by
      rw [ScriptLang.respaced, ← ht.slice]
    rw [hrespaced, List.append_assoc, List.append_assoc] at h
    have hword := h.step ((Takes.alone ht.lexical).append_spacing hgap _)
    have hnext := Scanning.layout hword (hgap.layout.mono False.elim)
    have hlast' : ∀ last, (next :: spans).getLast? = some last →
        Layout True (source.drop last.stop) := by
      rwa [List.getLast?_cons_cons] at hlast
    obtain ⟨us, hscan, hus⟩ := ih htokens hlast' hinner (Nat.le_of_succ_le_succ hlength) hnext
    refine ⟨found before (some t.word) ++ us, ?_, congrArg (t.word :: ·) hus⟩
    rwa [List.append_assoc] at hscan

/-! ## More text on a new line -/

theorem found_words (before before' : List Char) (w : Option Word) :
    (found before w).map Token.word = (found before' w).map Token.word := by
  cases w <;> rfl

namespace Scanning

variable {source before before' rest text : List Char} {tokens us : List Token}

/-- More text on a new line does not change what has been found. -/
theorem append_newline (h : Scanning source before rest tokens) (more : List Char) :
    Scanning (source ++ '\n' :: more) before (rest ++ '\n' :: more) tokens := by
  induction h with
  | start => exact .start
  | @step before piece rest tokens w _ htakes ih =>
    rw [List.append_assoc] at ih
    exact ih.step (htakes.append_newline more)

/-- What is found in a text is found in it at the end of another one as well, at other places. -/
theorem append (h : Scanning source before text tokens) (h' : Scanning text before' rest us) :
    ∃ us', Scanning source (before ++ before') rest (tokens ++ us') ∧
      us'.map Token.word = us.map Token.word := by
  induction h' with
  | start =>
    refine ⟨[], ?_, rfl⟩
    rwa [List.append_nil, List.append_nil]
  | @step before' piece rest us w _ htakes ih =>
    obtain ⟨us', hscan, hus⟩ := ih
    refine ⟨us' ++ found (before ++ before') w, ?_, ?_⟩
    · rw [← List.append_assoc, ← List.append_assoc]
      exact hscan.step htakes
    · rw [List.map_append, List.map_append, hus, found_words]

/-- The scanner goes on with a second text on a new line. -/
theorem join (h : Scanning source source [] tokens) (h' : Scanning text text [] us) :
    ∃ us', Scanning (source ++ '\n' :: text) (source ++ '\n' :: text) [] (tokens ++ us') ∧
      us'.map Token.word = us.map Token.word := by
  have hline : Scanning (source ++ '\n' :: text) source (['\n'] ++ text) tokens :=
    h.append_newline text
  obtain ⟨us', hscan, hus⟩ := (hline.skip (.blank rfl)).append h'
  exact ⟨us', hscan.to_end, hus⟩

end Scanning

end Lexeme

/-! ## Whole texts -/

section Source

open Lexeme

variable {source other : String} {s t : TokenStream} {spans : List TextSpan}
  {lead trail : List Char} {inner : List (List Char)}

/-- The words of a text are those of the text with other layout between them, and with more layout
before the first and behind the last. -/
theorem ofSource_respaced (h : TokenStream.ofSource source = .ok s)
    (hspans : Spans source.toList s.tokens spans) (hlead : lead = [] ∨ Spacing False lead)
    (hinner : ∀ gap ∈ inner, Spacing False gap) (hlength : spans.length ≤ inner.length + 1)
    (htrail : trail = [] ∨ Spacing True trail) :
    ∃ s', TokenStream.ofSource
        (String.ofList (lead ++ respaced source.toList 0 spans inner ++ trail)) = .ok s' ∧
      s'.tokens.map Token.word = s.tokens.map Token.word := by
  generalize hnew : lead ++ respaced source.toList 0 spans inner ++ trail = new
  suffices hscan : ∃ us, Scanning new new [] us ∧ us.map Token.word = s.tokens.map Token.word by
    obtain ⟨us, hscan, hus⟩ := hscan
    rw [← String.toList_ofList (l := new)] at hscan
    exact ⟨_, ofSource_of_scanning hscan, hus⟩
  have hstands := stands_of_spans h hspans
  have hstart : Scanning new ([] ++ lead) (respaced source.toList 0 spans inner ++ trail) [] := by
    refine Scanning.layout ?_ ((Layout.of_spacing hlead).mono False.elim)
    rw [← List.append_assoc, hnew]
    exact .start
  cases spans with
  | nil =>
    have htokens := List.forall₂_nil_right_iff.mp hstands
    have hgap := hspans.layout ⟨0, source.toList.length⟩ (List.mem_singleton.mpr rfl)
    have hlayout : Layout True source.toList := by
      simpa [TextSpan.slice] using hgap
    have hrest : respaced source.toList 0 [] inner = source.toList := rfl
    rw [hrest] at hstart
    refine ⟨[], hstart.layout_to_end (hlayout.append_atEnd (.of_spacing htrail)), ?_⟩
    rw [htokens]
  | cons sp spans =>
    obtain ⟨t, tokens, -, -, htokens⟩ := List.forall₂_cons_right_iff.mp hstands
    rw [htokens] at hstands ⊢
    have hstop := hspans.nonempty sp List.mem_cons_self
    have hfirst : Layout False ((TextSpan.mk 0 sp.start).slice source.toList) := by
      refine (hspans.layout _ (TextSpan.gaps_first sp spans _)).mono fun hend => ?_
      have := hspans.inside sp List.mem_cons_self
      have hstart : sp.start = source.toList.length := hend
      omega
    have hlast : ∀ last, (sp :: spans).getLast? = some last →
        Layout True (source.toList.drop last.stop) := by
      intro last hlast
      have hgap := hspans.layout _ (TextSpan.gaps_last hlast _)
      rw [TextSpan.slice, ← List.length_drop, List.take_length] at hgap
      exact hgap.mono fun _ => trivial
    rw [respaced_start (Nat.zero_le _) (Nat.le_of_lt hstop), List.append_assoc] at hstart
    exact Scanning.respaced hstands hlast hinner (Nat.le_of_succ_le_succ hlength) htrail
      (hstart.layout (hfirst.mono False.elim))

/-- The words of two texts, one behind the other on a new line, are those of the first and then
those of the second. -/
theorem ofSource_join (h : TokenStream.ofSource source = .ok s)
    (h' : TokenStream.ofSource other = .ok t) :
    ∃ u, TokenStream.ofSource (source ++ "\n" ++ other) = .ok u ∧
      u.tokens.map Token.word = s.tokens.map Token.word ++ t.tokens.map Token.word := by
  obtain ⟨us, hscan, hus⟩ := (scanning_of_ofSource h).1.join (scanning_of_ofSource h').1
  have htext : (source ++ "\n" ++ other).toList = source.toList ++ '\n' :: other.toList := by simp
  rw [← htext] at hscan
  exact ⟨_, ofSource_of_scanning hscan, by rw [List.map_append, hus]⟩

end Source

end ScriptLang
