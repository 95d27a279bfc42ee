import ScriptLang.Proofs.Grammar.FirstError
import ScriptLang.Proofs.Grammar.Places
import ScriptLang.Proofs.Token.Respacing

/-!
# Programs and their source texts

What a change of the source text does to the program that is parsed from it. The scanner makes the
same words of a text with other layout between them, and the parser looks at nothing but the words.
Of two texts on lines of their own the scanner makes the words of both, and the statements that
these stand for follow one another, because a rule of the grammar derives any statement before any
others.

Results:
* `respaced_program`: other layout leaves the program or the error;
* `isParsed_join`: two texts on lines of their own are the statements of both.
-/
namespace ScriptLang

open Grammar

variable {s s' : TokenStream} {p q : Program} {e : ParseError}

/-- A scanned text can only be no program because of one of its tokens. -/
theorem pointsAt_of_ofStream {source : String} (hs : TokenStream.ofSource source = .ok s)
    (h : Program.ofStream s = .error e) : ∃ t, e.PointsAt t := by
  obtain ⟨hts, hlast⟩ := scanned_ofSource hs
  obtain ⟨us, rest, -, he, -⟩ := topLevel_error hlast hts (error_of_bind_pure h)
  exact ⟨_, he⟩

theorem ofStream_iff_derives (s : TokenStream) (hts : Scanned s.tokens)
    (hlast : s.last.kind = .endOfInput) :
    Program.ofStream s = .ok p ↔ Derives (.statements p.statements) s.tokens := by
  unfold Program.ofStream
  simp only [bind_ok]
  constructor
  · rintro ⟨nodes, hn, h⟩
    cases h
    exact topLevel_sound hlast hts hn
  · intro h
    exact ⟨p.statements, topLevel_complete hlast h (by rw [fuelFor]; omega), rfl⟩

/-- Scanned tokens are derived from one list of statements only. -/
theorem statements_unique {nodes nodes' : List Node} {ts : List Token} (hts : Scanned ts)
    (h : Derives (.statements nodes) ts) (h' : Derives (.statements nodes') ts) :
    nodes = nodes' := by
  have hiff := fun p => ofStream_iff_derives (p := p) ⟨ts, ⟨.endOfInput, "EOF", .start⟩⟩ hts rfl
  have hsame := ((hiff ⟨nodes⟩).mpr h).symm.trans ((hiff ⟨nodes'⟩).mpr h')
  exact Program.mk.inj (Except.ok.inj hsame)

/-! ## One text after another -/

theorem derives_append {nodes more : List Node} {ts us : List Token}
    (h : Derives (.statements nodes) ts) (h' : Derives (.statements more) us) :
    Derives (.statements (nodes ++ more)) (ts ++ us) := by
  induction nodes generalizing ts with
  | nil =>
    cases h
    exact h'
  | cons node nodes ih =>
    cases h with
    | @moreStatements _ _ ts ts' hnode hnodes =>
      rw [List.append_assoc]
      exact .moreStatements hnode (ih hnodes)

/-- The same words are the same program. -/
theorem ofStream_of_words (hwords : SameWords s.tokens s'.tokens)
    (hlast : s.last.word = s'.last.word) (h : Program.ofStream s = .ok p) :
    Program.ofStream s' = .ok p := by
  rcases ofStream_alike hwords hlast with ⟨q, hq, hq'⟩ | ⟨e, e', he, -⟩
  · cases h.symm.trans hq
    exact hq'
  · cases h.symm.trans he

/-- The text can be scanned, and it is the program. -/
def Program.IsParsed (p : Program) (source : String) : Prop :=
  ∃ s, TokenStream.ofSource source = .ok s ∧ Program.ofStream s = .ok p

theorem derives_of_isParsed {source : String} (h : p.IsParsed source) :
    ∃ s, TokenStream.ofSource source = .ok s ∧ Derives (.statements p.statements) s.tokens := by
  obtain ⟨s, hs, hp⟩ := h
  obtain ⟨hts, hlast⟩ := scanned_ofSource hs
  exact ⟨s, hs, (ofStream_iff_derives s hts hlast).mp hp⟩

/-- A text is a program if its words are those of some scanned tokens that the grammar derives. -/
theorem isParsed_of_derives {source : String} {ts : List Token}
    (hs : TokenStream.ofSource source = .ok s) (hwords : SameWords ts s.tokens) (hts : Scanned ts)
    (h : Derives (.statements p.statements) ts) : p.IsParsed source := by
  obtain ⟨-, hlast⟩ := scanned_ofSource hs
  have hp := (ofStream_iff_derives ⟨ts, s.last⟩ hts hlast).mpr h
  exact ⟨s, hs, ofStream_of_words (s := ⟨ts, s.last⟩) hwords rfl hp⟩

/-- Two texts on lines of their own are the statements of both. -/
theorem isParsed_join {source other : String} (h : p.IsParsed source) (h' : q.IsParsed other) :
    Program.IsParsed ⟨p.statements ++ q.statements⟩ (source ++ "\n" ++ other) := by
  obtain ⟨s, hs, hp⟩ := derives_of_isParsed h
  obtain ⟨t, ht, hq⟩ := derives_of_isParsed h'
  obtain ⟨u, hu, hwords⟩ := ofSource_join hs ht
  have hscanned : Scanned (s.tokens ++ t.tokens) :=
    List.forall_mem_append.mpr ⟨(scanned_ofSource hs).1, (scanned_ofSource ht).1⟩
  refine isParsed_of_derives hu ?_ hscanned (derives_append hp hq)
  rw [SameWords, List.map_append, hwords]

/-! ## Other layout -/

/-- A text that can be scanned can have other layout in the place of each stretch between its words,
if it starts with a blank, and more such layout before the first and behind the last: the words are
the same, and they are the same program or have an error with the same fields. -/
theorem respaced_program (source : String) (s : TokenStream)
    (h : TokenStream.ofSource source = .ok s) :
    (∃ spans, Spans source.toList s.tokens spans) ∧
    ∀ (spans : List TextSpan) (lead trail : List Char) (inner : List (List Char)),
      Spans source.toList s.tokens spans → (lead = [] ∨ Spacing False lead) →
      (∀ gap ∈ inner, Spacing False gap) → spans.length ≤ inner.length + 1 →
      (trail = [] ∨ Spacing True trail) →
      ∃ s', TokenStream.ofSource
          (String.ofList (lead ++ respaced source.toList 0 spans inner ++ trail)) = .ok s' ∧
        s'.toList.map Token.word = s.toList.map Token.word ∧
        ((∃ p, Program.ofStream s = .ok p ∧ Program.ofStream s' = .ok p) ∨
          ∃ e e' t t', Program.ofStream s = .error e ∧ Program.ofStream s' = .error e' ∧
            e.PointsAt t ∧ e'.PointsAt t' ∧ e'.expected = e.expected ∧ e'.found = e.found) := by
  refine ⟨exists_spans h, fun spans lead trail inner hspans hlead hinner hlength htrail => ?_⟩
  obtain ⟨s', hs', hwords⟩ := ofSource_respaced h hspans hlead hinner hlength htrail
  have hlast : s.last.word = s'.last.word := by
    rw [(scanning_of_ofSource h).2, (scanning_of_ofSource hs').2]
    rfl
  refine ⟨s', hs', ?_, ?_⟩
  · rw [TokenStream.toList, TokenStream.toList, List.map_append, List.map_append, hwords,
      List.map_singleton, List.map_singleton, hlast]
  rcases ofStream_alike hwords.symm hlast with hok | ⟨e, e', he, he', helse⟩
  · exact .inl hok
  · obtain ⟨t, ht⟩ := pointsAt_of_ofStream h he
    obtain ⟨t', ht'⟩ := pointsAt_of_ofStream hs' he'
    exact .inr ⟨e, e', t, t', he, he', ht, ht', helse.expected, helse.found⟩

/-- Words without layout between them, and a comment that the text ends with. -/
def dense : String := "1/2;//half"

/-- The same words with blanks and comments between them. -/
def spread : String := "\n1\n//c\n/\t2 // ;\n;//half //"

theorem spread_as_dense :
    ∃ s s', TokenStream.ofSource dense = .ok s ∧ TokenStream.ofSource spread = .ok s' ∧
      s'.toList.map Token.word = s.toList.map Token.word ∧
      ((∃ p, Program.ofStream s = .ok p ∧ Program.ofStream s' = .ok p) ∨
        ∃ e e' t t', Program.ofStream s = .error e ∧ Program.ofStream s' = .error e' ∧
          e.PointsAt t ∧ e'.PointsAt t' ∧ e'.expected = e.expected ∧ e'.found = e.found) := by
  have hspans : Spans dense.toList
      [⟨.number, "1", ⟨1, 1⟩⟩, ⟨.binaryOperator, "/", ⟨1, 2⟩⟩, ⟨.number, "2", ⟨1, 3⟩⟩,
        ⟨.semicolon, ";", ⟨1, 4⟩⟩] [⟨0, 1⟩, ⟨1, 2⟩, ⟨2, 3⟩, ⟨3, 4⟩] := by
    refine ⟨?_, by decide, by decide, by decide, ?_⟩
    · exact .cons ⟨rfl, rfl⟩ (.cons ⟨rfl, rfl⟩ (.cons ⟨rfl, rfl⟩ (.cons ⟨rfl, rfl⟩ .nil)))
    · have hlast : Layout True ('/' :: '/' :: "half".toList) := .lastComment trivial (by decide)
      simp only [TextSpan.gaps, List.map_cons, List.map_nil, List.cons_append, List.nil_append,
        List.zipWith_cons_cons, List.zipWith_nil_left, List.forall_mem_cons]
      exact ⟨.nil, .nil, .nil, .nil, hlast, by simp⟩
  have hlead : Spacing False ['\n'] := ⟨.blank rfl .nil, _, _, rfl, rfl⟩
  have htrail : Spacing True (" //".toList) :=
    ⟨.blank rfl (.lastComment trivial (by decide)), _, _, rfl, rfl⟩
  have hinner : ∀ gap ∈ ["\n//c\n".toList, "\t".toList, " // ;\n".toList], Spacing False gap := by
    have hfirst : Layout False ('/' :: '/' :: ("c".toList ++ ['\n'])) := .comment (by decide) .nil
    have hlast : Layout False ('/' :: '/' :: (" ;".toList ++ ['\n'])) := .comment (by decide) .nil
    simp only [List.forall_mem_cons]
    exact ⟨⟨.blank rfl hfirst, _, _, rfl, rfl⟩, ⟨.blank rfl .nil, _, _, rfl, rfl⟩,
      ⟨.blank rfl hlast, _, _, rfl, rfl⟩, by simp⟩
  obtain ⟨s', hs'⟩ := (respaced_program dense _ rfl).2 _ _ _ _ hspans (.inr hlead) hinner
    (by decide) (.inr htrail)
  exact ⟨_, s', rfl, hs'⟩

end ScriptLang
