import ScriptLang.Proofs.Grammar.Completeness
import ScriptLang.Proofs.Grammar.Image

/-!
# Printing programs

A program as a source text, which is scanned and parsed as that program again. Every binary expression
stands in parentheses, so the printer needs to know nothing of levels, and every word but the last is
followed by a space, so it needs to know nothing of where words end.

Floats are not printed: most of them have no numeral that is read back as the same float, and none has
one without a point.

Results:
* `spells_operand`, `spells_statement`: the words of a tree derive that tree;
* `printing_inverts_parsing`: printing and parsing are inverse, and parsing gives nothing but
  well-formed programs.
-/
namespace ScriptLang

/-! ## The printer -/

namespace Word

def leftParen : Word := ⟨.leftParen, "("⟩
def rightParen : Word := ⟨.rightParen, ")"⟩
def leftBrace : Word := ⟨.leftBrace, "\x7b"⟩
def rightBrace : Word := ⟨.rightBrace, "\x7d"⟩
def semicolon : Word := ⟨.semicolon, ";"⟩
def comma : Word := ⟨.comma, ","⟩
def equals : Word := ⟨.equals, "="⟩
def letWord : Word := ⟨.letWord, "let"⟩
def funcWord : Word := ⟨.funcWord, "func"⟩
def ifWord : Word := ⟨.ifWord, "if"⟩
def elseWord : Word := ⟨.elseWord, "else"⟩
def whileWord : Word := ⟨.whileWord, "while"⟩
def returnWord : Word := ⟨.returnWord, "return"⟩
def importWord : Word := ⟨.importWord, "import"⟩

def operator (symbol : String) : Word :=
  if symbol = "=" then equals
  else if symbol ∈ ["+", "-", "*", "/"] then ⟨.binaryOperator, symbol⟩
  else ⟨.comparison, symbol⟩

def parens (ws : List Word) : List Word := leftParen :: (ws ++ [rightParen])

def braces (ws : List Word) : List Word := leftBrace :: (ws ++ [rightBrace])

def separated (wss : List (List Word)) : List Word := [comma].intercalate wss

/-- A name; no document but a string is one. -/
def ofName : Json → List Word
  | .str x => [⟨.identifier, x⟩]
  | _ => []

/-- A literal; lists, objects and floats have none. -/
def ofLiteral : Json → List Word
  | .null => [⟨.nullWord, "null"⟩]
  | .bool true => [⟨.trueWord, "true"⟩]
  | .bool false => [⟨.falseWord, "false"⟩]
  | .int n => [⟨.number, String.ofList (IntText.digits n)⟩]
  | .str s => [⟨.string, s⟩]
  | _ => []

def ofOperator : Json → List Word
  | .str symbol => [operator symbol]
  | _ => []

end Word

namespace Node

open Word

mutual

/-- The words of an expression or a statement. -/
def words : Node → List Word
  | .program _ => []
  | .identifier x => ofName x
  | .literal _ value => ofLiteral value
  | .binary left operator right => parens (left.words ++ ofOperator operator ++ right.words)
  | .call callee args => ofName callee ++ parens (separated (wordsOfEach args))
  | .expression value => value.words ++ [semicolon]
  | .declare x value => letWord :: (ofName x ++ equals :: (value.words ++ [semicolon]))
  | .block body => braces (wordsOfEach body).flatten
  | .branch test consequent none =>
    ifWord :: (parens test.words ++ braces (wordsOfEach consequent).flatten)
  | .branch test consequent (some alternate) =>
    ifWord :: (parens test.words ++ (braces (wordsOfEach consequent).flatten ++
      elseWord :: braces (wordsOfEach alternate).flatten))
  | .loop test body => whileWord :: (parens test.words ++ braces (wordsOfEach body).flatten)
  | .function x params body =>
    funcWord :: (ofName x ++ (parens (separated (params.map ofName)) ++
      braces (wordsOfEach body).flatten))
  | .ret none => [returnWord, semicolon]
  | .ret (some value) => returnWord :: (value.words ++ [semicolon])
  | .importFile path => [importWord, ⟨.string, path⟩, semicolon]

def wordsOfEach : List Node → List (List Word)
  | [] => []
  | node :: nodes => node.words :: wordsOfEach nodes

end

theorem wordsOfEach_eq (nodes : List Node) : wordsOfEach nodes = nodes.map words := by
  induction nodes with
  | nil => rfl
  | cons node nodes ih => rw [wordsOfEach, ih, List.map_cons]

end Node

/-- The program as a source text on one line. -/
def Program.source (p : Program) : String := Word.line (p.statements.map Node.words).flatten

/-- The number is an integer of at most as many digits as are read back as an integer. -/
def IsShort : Json → Prop
  | .int n => n.natAbs < IntText.tooLarge
  | _ => False

/-- The number can be printed. -/
def IsPrintable (j : Json) : Prop := IsNonNegative j ∧ IsShort j

namespace Grammar

open Word

/-! ## Words that spell a phrase -/

/-- The words spell the phrase: they are words of the language, and tokens with them derive it. -/
structure Spells (p : Phrase) (ws : List Word) : Prop where
  lexical : ∀ w ∈ ws, w.IsLexical
  derives : ∀ ts, ts.map Token.word = ws → Derives p ts

theorem map_word_cons {ts : List Token} {w : Word} {ws : List Word}
    (h : ts.map Token.word = w :: ws) :
    ∃ t us, ts = t :: us ∧ t.kind = w.kind ∧ t.text = w.text ∧ us.map Token.word = ws := by
  obtain ⟨t, us, rfl, rfl, hus⟩ := List.map_eq_cons_iff.mp h
  exact ⟨t, us, rfl, rfl, rfl, hus⟩

theorem map_word_append {ts : List Token} {ws vs : List Word}
    (h : ts.map Token.word = ws ++ vs) :
    ∃ us us', ts = us ++ us' ∧ us.map Token.word = ws ∧ us'.map Token.word = vs :=
  List.map_eq_append_iff.mp h

namespace Spells

variable {ws vs us : List Word} {value left right test : Node} {body : List Node}

/-- A phrase that is a phrase of another kind by itself. -/
theorem map {p q : Phrase} (h : Spells p ws) (hpq : ∀ {ts}, Derives p ts → Derives q ts) :
    Spells q ws where
  lexical := h.lexical
  derives ts hts := hpq (h.derives ts hts)

/-- A phrase of one word. -/
theorem word {p : Phrase} {kind : TokenKind} {text : String} (hw : IsLexical ⟨kind, text⟩)
    (hp : ∀ {t : Token}, t.kind = kind → t.text = text → Derives p [t]) :
    Spells p [⟨kind, text⟩] where
  lexical := List.forall_mem_singleton.mpr hw
  derives ts hts := by
    obtain ⟨t, us, rfl, hk, ht, hus⟩ := map_word_cons hts
    obtain rfl := List.map_eq_nil_iff.mp hus
    exact hp hk ht

theorem map_word_between {ts : List Token} {w w' : Word}
    (h : ts.map Token.word = w :: (ws ++ [w'])) :
    ∃ start us stop, ts = start :: (us ++ [stop]) ∧ start.kind = w.kind ∧
      us.map Token.word = ws ∧ stop.kind = w'.kind := by
  obtain ⟨start, ts, rfl, hstart, -, hts⟩ := map_word_cons h
  obtain ⟨us, vs, rfl, hus, hvs⟩ := map_word_append hts
  obtain ⟨stop, vs, rfl, hstop, -, hvs⟩ := map_word_cons hvs
  obtain rfl := List.map_eq_nil_iff.mp hvs
  exact ⟨start, us, stop, rfl, hstart, hus, hstop⟩

theorem isLexical_marks :
    leftParen.IsLexical ∧ rightParen.IsLexical ∧ leftBrace.IsLexical ∧ rightBrace.IsLexical ∧
      semicolon.IsLexical ∧ comma.IsLexical :=
  ⟨.mark (c := '(') rfl, .mark (c := ')') rfl, .mark (c := '\x7b') rfl, .mark (c := '\x7d') rfl,
    .mark (c := ';') rfl, .mark (c := ',') rfl⟩

theorem isLexical_between {w w' : Word} (hw : w.IsLexical) (h : ∀ w ∈ ws, w.IsLexical)
    (hw' : w'.IsLexical) : ∀ v ∈ w :: (ws ++ [w']), v.IsLexical :=
  List.forall_mem_cons.mpr
    ⟨hw, List.forall_mem_append.mpr ⟨h, List.forall_mem_singleton.mpr hw'⟩⟩

theorem isLexical_parens (h : ∀ w ∈ ws, w.IsLexical) : ∀ w ∈ parens ws, w.IsLexical :=
  isLexical_between isLexical_marks.1 h isLexical_marks.2.1

/-! ### Expressions -/

theorem group (h : Spells (.expression value) ws) : Spells (.primary value) (parens ws) where
  lexical := isLexical_parens h.lexical
  derives ts hts := by
    obtain ⟨start, us, stop, rfl, hstart, hus, hstop⟩ := map_word_between hts
    exact .group hstart (h.derives us hus) hstop

theorem level (h : Spells (.operand value) ws) (level : Level) :
    Spells (.level level value) ws := by
  have hm : Spells (.level .multiplicative value) ws := h.map fun h => @Derives.single _ _ _ h
  have ha : Spells (.level .additive value) ws := hm.map fun h => @Derives.single _ _ _ h
  cases level with
  | comparison => exact ha.map fun h => @Derives.single _ _ _ h
  | additive => exact ha
  | multiplicative => exact hm

theorem inner (h : Spells (.operand value) ws) (level : Level) :
    Spells (level.inner value) ws := by
  cases level with
  | comparison => exact h.level .additive
  | additive => exact h.level .multiplicative
  | multiplicative => exact h

theorem expression (h : Spells (.operand value) ws) : Spells (.expression value) ws :=
  (h.level .comparison).map .chain

theorem name {x : String} (h : IsName x) :
    Spells (.operand (.identifier (.str x))) (ofName (.str x)) :=
  word (.name h) fun hk ht => ht ▸ .simple (.name hk)

/-- The words on both sides of an operator, as they stand between parentheses. -/
theorem map_word_operator {ts : List Token} {w : Word}
    (h : ts.map Token.word = ws ++ [w] ++ vs) :
    ∃ us op us', ts = us ++ op :: us' ∧ us.map Token.word = ws ∧ op.kind = w.kind ∧
      op.text = w.text ∧ us'.map Token.word = vs := by
  rw [List.append_assoc, List.singleton_append] at h
  obtain ⟨us, us', rfl, hus, hus'⟩ := map_word_append h
  obtain ⟨op, us', rfl, hk, ht, hvs⟩ := map_word_cons hus'
  exact ⟨us, op, us', rfl, hus, hk, ht, hvs⟩

theorem isLexical_operator {w : Word} (hl : ∀ v ∈ ws, v.IsLexical) (hw : w.IsLexical)
    (hr : ∀ v ∈ vs, v.IsLexical) : ∀ v ∈ ws ++ [w] ++ vs, v.IsLexical :=
  List.forall_mem_append.mpr
    ⟨List.forall_mem_append.mpr ⟨hl, List.forall_mem_singleton.mpr hw⟩, hr⟩

/-- The words of operators are operators of some level. -/
theorem operator_cases {symbol : String} (h : symbol ∈ operatorSymbols) :
    (operator symbol).IsLexical ∧ (operator symbol).text = symbol ∧
      ∃ level : Level, ∀ t : Token, t.kind = (operator symbol).kind → t.text = symbol →
        level.Has t := by
  have harithmetic : ∀ s ∈ ["+", "-"], operator s = ⟨.binaryOperator, s⟩ := by decide
  have hproduct : ∀ s ∈ ["*", "/"], operator s = ⟨.binaryOperator, s⟩ := by decide
  have hcomparison : ∀ s ∈ ["==", "!=", "<", ">", "<=", ">="], operator s = ⟨.comparison, s⟩ := by
    decide
  have hsplit : ∀ s ∈ operatorSymbols, s ∈ ["+", "-"] ∨ s ∈ ["*", "/"] ∨
      s ∈ ["==", "!=", "<", ">", "<=", ">="] := by decide
  rcases hsplit symbol h with hs | hs | hs
  · rw [harithmetic symbol hs]
    refine ⟨.arithmetic (List.mem_append_left ["*", "/"] hs), rfl, .additive, fun t hk ht => ?_⟩
    exact ⟨hk, ht ▸ by simpa using hs⟩
  · rw [hproduct symbol hs]
    refine ⟨.arithmetic (List.mem_append_right ["+", "-"] hs), rfl, .multiplicative,
      fun t hk ht => ?_⟩
    exact ⟨hk, ht ▸ by simpa using hs⟩
  · rw [hcomparison symbol hs]
    exact ⟨.comparison hs, rfl, .comparison, fun t hk _ => hk⟩

theorem operation {symbol : String} (hop : symbol ∈ operatorSymbols)
    (hl : Spells (.operand left) ws) (hr : Spells (.operand right) vs) :
    Spells (.operand (.binary left (.str symbol) right))
      (parens (ws ++ ofOperator (.str symbol) ++ vs)) := by
  obtain ⟨hlexical, htext, level, hlevel⟩ := operator_cases hop
  have hexpression : Spells (.expression (.binary left (.str symbol) right))
      (ws ++ [operator symbol] ++ vs) := by
    refine ⟨isLexical_operator hl.lexical hlexical hr.lexical, fun ts hts => ?_⟩
    obtain ⟨us, op, us', rfl, hus, hk, ht, hus'⟩ := map_word_operator hts
    have hbinary := Derives.binary ((hl.level level).derives us hus)
      (hlevel op hk (ht.trans htext)) ((hr.inner level).derives us' hus')
    rw [ht.trans htext] at hbinary
    cases level with
    | comparison => exact .chain hbinary
    | additive => exact .chain (.single hbinary)
    | multiplicative => exact .chain (.single (.single hbinary))
  exact hexpression.group.map .simple

theorem assignment {x : String} (hx : IsName x) (hv : Spells (.operand value) vs) :
    Spells (.operand (.binary (.identifier (.str x)) (.str "=") value))
      (parens (ofName (.str x) ++ ofOperator (.str "=") ++ vs)) := by
  have hexpression : Spells (.expression (.binary (.identifier (.str x)) (.str "=") value))
      (ofName (.str x) ++ [equals] ++ vs) := by
    refine ⟨isLexical_operator (name hx).lexical .equals hv.lexical, fun ts hts => ?_⟩
    obtain ⟨us, op, us', rfl, hus, hk, -, hus'⟩ := map_word_operator hts
    obtain ⟨y, ys, rfl, hy, rfl, hys⟩ := map_word_cons hus
    obtain rfl := List.map_eq_nil_iff.mp hys
    exact .assign (.targetName hy) hk (hv.expression.derives us' hus')
  exact hexpression.group.map .simple

theorem digits_of_lt {n : Int} (hn : 0 ≤ n) (hs : n.natAbs < IntText.tooLarge) :
    NumberValue (String.ofList (IntText.digits n)) (.int n) := by
  obtain ⟨k, rfl⟩ := Int.eq_ofNat_of_zero_le hn
  have hdigits : IntText.digits (k : Int) = Nat.toDigits 10 k := by
    rw [IntText.digits, if_neg (by omega)]
    rfl
  have hvalue : Json.int k = .int (IntText.ofDigits (Nat.toDigits 10 k)) := by
    rw [IntText.ofDigits_toDigits]
  unfold IntText.tooLarge at hs
  rw [hdigits, hvalue]
  refine .integer ⟨?_, fun d hd => IntText.isDigit_toDigits hd⟩ ?_
  · exact List.ne_nil_of_length_pos Nat.length_toDigits_pos
  · exact IntText.length_le_of_lt (k := IntText.maxDigits) (by decide) hs

theorem literal {kind : LiteralKind} {j : Json}
    (h : LiteralValue IsPrintable kind j) :
    Spells (.primary (.literal kind j)) (ofLiteral j) := by
  cases h with
  | string hs => exact word (.string hs) fun hk ht => ht ▸ .string hk
  | number hn =>
    cases j with
    | int n =>
      have hvalue := digits_of_lt hn.1 hn.2
      exact word (.number hvalue) fun hk ht => .number hk (ht ▸ hvalue)
    | _ => exact hn.2.elim
  | boolean b =>
    cases b with
    | true => exact word (.keyword (by decide)) fun hk _ => .true hk
    | false => exact word (.keyword (by decide)) fun hk _ => .false hk
  | null => exact word (.keyword (by decide)) fun hk _ => .null hk

theorem arguments {args : List Node} (hne : args ≠ [])
    (h : ∀ arg ∈ args, Spells (.operand arg) arg.words) :
    Spells (.arguments args) (separated (args.map Node.words)) := by
  induction args with
  | nil => exact absurd rfl hne
  | cons arg args ih =>
    obtain ⟨harg, hargs⟩ := List.forall_mem_cons.mp h
    cases args with
    | nil =>
      rw [separated, List.map_singleton, List.intercalate_singleton]
      exact harg.expression.map .argument
    | cons next args =>
      have hrest := ih (List.cons_ne_nil _ _) hargs
      rw [separated, List.map_cons, List.map_cons, List.intercalate_cons_cons]
      refine ⟨isLexical_operator harg.lexical isLexical_marks.2.2.2.2.2 hrest.lexical,
        fun ts hts => ?_⟩
      obtain ⟨us, sep, us', rfl, hus, hk, -, hus'⟩ := map_word_operator hts
      exact .moreArguments (harg.expression.derives us hus) hk (hrest.derives us' hus')

theorem argumentList {args : List Node} (h : ∀ arg ∈ args, Spells (.operand arg) arg.words) :
    Spells (.argumentList args) (separated (args.map Node.words)) := by
  cases args with
  | nil =>
    refine ⟨fun w hw => absurd hw List.not_mem_nil, fun ts hts => ?_⟩
    obtain rfl := List.map_eq_nil_iff.mp hts
    exact .noArguments
  | cons arg args => exact (arguments (List.cons_ne_nil _ _) h).map .someArguments

theorem call {x : String} {args : List Node} (hx : IsName x)
    (h : Spells (.argumentList args) ws) :
    Spells (.operand (.call (.str x) args)) (ofName (.str x) ++ parens ws) where
  lexical := List.forall_mem_append.mpr ⟨(name hx).lexical, isLexical_parens h.lexical⟩
  derives ts hts := by
    obtain ⟨y, ys, rfl, hy, rfl, hys⟩ := map_word_cons hts
    obtain ⟨start, us, stop, rfl, hstart, hus, hstop⟩ := map_word_between hys
    exact .call hy hstart (h.derives us hus) hstop

/-! ### Statements -/

theorem block (h : Spells (.statements body) ws) : Spells (.block body) (braces ws) where
  lexical := isLexical_between isLexical_marks.2.2.1 h.lexical isLexical_marks.2.2.2.1
  derives ts hts := by
    obtain ⟨start, us, stop, rfl, hstart, hus, hstop⟩ := map_word_between hts
    exact .block hstart (h.derives us hus) hstop

theorem statements (h : ∀ node ∈ body, Spells (.statement node) node.words) :
    Spells (.statements body) (body.map Node.words).flatten := by
  induction body with
  | nil =>
    refine ⟨fun w hw => absurd hw List.not_mem_nil, fun ts hts => ?_⟩
    obtain rfl := List.map_eq_nil_iff.mp hts
    exact .noStatements
  | cons node body ih =>
    obtain ⟨hnode, hbody⟩ := List.forall_mem_cons.mp h
    rw [List.map_cons, List.flatten_cons]
    refine ⟨List.forall_mem_append.mpr ⟨hnode.lexical, (ih hbody).lexical⟩, fun ts hts => ?_⟩
    obtain ⟨us, us', rfl, hus, hus'⟩ := map_word_append hts
    exact .moreStatements (hnode.derives us hus) ((ih hbody).derives us' hus')

/-- A phrase with a semicolon after it. -/
theorem map_word_semicolon {ts : List Token} (h : ts.map Token.word = ws ++ [semicolon]) :
    ∃ us stop, ts = us ++ [stop] ∧ us.map Token.word = ws ∧ stop.kind = .semicolon := by
  obtain ⟨us, us', rfl, hus, hus'⟩ := map_word_append h
  obtain ⟨stop, us', rfl, hk, -, hnil⟩ := map_word_cons hus'
  obtain rfl := List.map_eq_nil_iff.mp hnil
  exact ⟨us, stop, rfl, hus, hk⟩

theorem isLexical_semicolon (h : ∀ w ∈ ws, w.IsLexical) : ∀ w ∈ ws ++ [semicolon], w.IsLexical :=
  List.forall_mem_append.mpr
    ⟨h, List.forall_mem_singleton.mpr isLexical_marks.2.2.2.2.1⟩

theorem evaluate (h : Spells (.expression value) ws) :
    Spells (.statement (.expression value)) (ws ++ [semicolon]) where
  lexical := isLexical_semicolon h.lexical
  derives ts hts := by
    obtain ⟨us, stop, rfl, hus, hstop⟩ := map_word_semicolon hts
    exact .evaluate (h.derives us hus) hstop

theorem declare {x : String} (hx : IsName x) (h : Spells (.expression value) ws) :
    Spells (.statement (.declare (.str x) value))
      (letWord :: (ofName (.str x) ++ equals :: (ws ++ [semicolon]))) where
  lexical := List.forall_mem_cons.mpr ⟨.keyword (by decide), List.forall_mem_append.mpr
    ⟨(name hx).lexical, List.forall_mem_cons.mpr ⟨.equals, isLexical_semicolon h.lexical⟩⟩⟩
  derives ts hts := by
    obtain ⟨word, ts, rfl, hword, -, hts⟩ := map_word_cons hts
    obtain ⟨y, ys, rfl, hy, rfl, hys⟩ := map_word_cons hts
    obtain ⟨eq, us, rfl, heq, -, hus⟩ := map_word_cons hys
    obtain ⟨us, stop, rfl, hus, hstop⟩ := map_word_semicolon hus
    exact .declare hword hy heq (h.derives us hus) hstop

/-- A condition in parentheses after a keyword, and a block after that. -/
theorem map_word_guarded {ts : List Token} {w : Word}
    (h : ts.map Token.word = w :: (parens ws ++ vs)) :
    ∃ word start us stop us', ts = word :: start :: (us ++ stop :: us') ∧ word.kind = w.kind ∧
      start.kind = .leftParen ∧ us.map Token.word = ws ∧ stop.kind = .rightParen ∧
      us'.map Token.word = vs := by
  obtain ⟨word, ts, rfl, hword, -, hts⟩ := map_word_cons h
  obtain ⟨us, us', rfl, hus, hus'⟩ := map_word_append hts
  obtain ⟨start, us, stop, rfl, hstart, hus, hstop⟩ := map_word_between hus
  exact ⟨word, start, us, stop, us', by simp, hword, hstart, hus, hstop, hus'⟩

theorem isLexical_guarded {w : Word} (hw : w.IsLexical) (ht : ∀ w ∈ ws, w.IsLexical)
    (hb : ∀ w ∈ vs, w.IsLexical) : ∀ v ∈ w :: (parens ws ++ vs), v.IsLexical :=
  List.forall_mem_cons.mpr ⟨hw, List.forall_mem_append.mpr ⟨isLexical_parens ht, hb⟩⟩

theorem branch (ht : Spells (.expression test) ws) (hc : Spells (.block body) vs) :
    Spells (.statement (.branch test body none)) (ifWord :: (parens ws ++ vs)) where
  lexical := isLexical_guarded (.keyword (by decide)) ht.lexical hc.lexical
  derives ts hts := by
    obtain ⟨word, start, us, stop, us', rfl, hword, hstart, hus, hstop, hus'⟩ :=
      map_word_guarded hts
    exact .branch hword hstart (ht.derives us hus) hstop (hc.derives us' hus')

theorem branchElse {alternate : List Node} (ht : Spells (.expression test) ws)
    (hc : Spells (.block body) vs) (ha : Spells (.block alternate) us) :
    Spells (.statement (.branch test body (some alternate)))
      (ifWord :: (parens ws ++ (vs ++ elseWord :: us))) where
  lexical := isLexical_guarded (.keyword (by decide)) ht.lexical (List.forall_mem_append.mpr
    ⟨hc.lexical, List.forall_mem_cons.mpr ⟨.keyword (by decide), ha.lexical⟩⟩)
  derives ts hts := by
    obtain ⟨word, start, ts₁, stop, ts₂, rfl, hword, hstart, h₁, hstop, h₂⟩ :=
      map_word_guarded hts
    obtain ⟨ts₂, ts₃, rfl, hts₂, hts₃⟩ := map_word_append h₂
    obtain ⟨other, ts₃, rfl, hother, -, hts₃⟩ := map_word_cons hts₃
    exact .branchElse hword hstart (ht.derives ts₁ h₁) hstop (hc.derives ts₂ hts₂) hother
      (ha.derives ts₃ hts₃)

theorem loop (ht : Spells (.expression test) ws) (hb : Spells (.block body) vs) :
    Spells (.statement (.loop test body)) (whileWord :: (parens ws ++ vs)) where
  lexical := isLexical_guarded (.keyword (by decide)) ht.lexical hb.lexical
  derives ts hts := by
    obtain ⟨word, start, us, stop, us', rfl, hword, hstart, hus, hstop, hus'⟩ :=
      map_word_guarded hts
    exact .loop hword hstart (ht.derives us hus) hstop (hb.derives us' hus')

theorem parameters {params : List String} (hne : params ≠ []) (h : ∀ x ∈ params, IsName x) :
    Spells (.parameters (params.map .str)) (separated ((params.map .str).map ofName)) := by
  induction params with
  | nil => exact absurd rfl hne
  | cons x params ih =>
    obtain ⟨hx, hparams⟩ := List.forall_mem_cons.mp h
    cases params with
    | nil =>
      rw [separated, List.map_singleton, List.map_singleton, List.intercalate_singleton]
      exact word (.name hx) fun hk ht => ht ▸ .parameter hk
    | cons next params =>
      have hrest := ih (List.cons_ne_nil _ _) hparams
      rw [separated, List.map_cons, List.map_cons, List.map_cons, List.map_cons,
        List.intercalate_cons_cons]
      refine ⟨isLexical_operator (name hx).lexical isLexical_marks.2.2.2.2.2 hrest.lexical,
        fun ts hts => ?_⟩
      obtain ⟨us, sep, us', rfl, hus, hk, -, hus'⟩ := map_word_operator hts
      obtain ⟨y, ys, rfl, hy, rfl, hys⟩ := map_word_cons hus
      obtain rfl := List.map_eq_nil_iff.mp hys
      exact .moreParameters hy hk (hrest.derives us' hus')

theorem parameterList {params : List String} (h : ∀ x ∈ params, IsName x) :
    Spells (.parameterList (params.map .str)) (separated ((params.map .str).map ofName)) := by
  cases params with
  | nil =>
    refine ⟨fun w hw => absurd hw List.not_mem_nil, fun ts hts => ?_⟩
    obtain rfl := List.map_eq_nil_iff.mp hts
    exact .noParameters
  | cons x params => exact (parameters (List.cons_ne_nil _ _) h).map .someParameters

theorem function {x : String} {params : List Json} (hx : IsName x)
    (hp : Spells (.parameterList params) ws) (hb : Spells (.block body) vs) :
    Spells (.statement (.function (.str x) params body))
      (funcWord :: (ofName (.str x) ++ (parens ws ++ vs))) where
  lexical := List.forall_mem_cons.mpr ⟨.keyword (by decide),
    isLexical_guarded (.name hx) hp.lexical hb.lexical⟩
  derives ts hts := by
    obtain ⟨word, ts, rfl, hword, -, hts⟩ := map_word_cons hts
    obtain ⟨y, ys, rfl, hy, rfl, hys⟩ := map_word_cons hts
    obtain ⟨zs, us', rfl, hzs, hus'⟩ := @map_word_append _ (parens ws) vs hys
    obtain ⟨start, us, stop, rfl, hstart, hus, hstop⟩ := map_word_between hzs
    simpa using
      Derives.function hword hy hstart (hp.derives us hus) hstop (hb.derives us' hus')

theorem ret : Spells (.statement (.ret none)) [returnWord, semicolon] where
  lexical := List.forall_mem_cons.mpr ⟨.keyword (by decide),
    List.forall_mem_singleton.mpr isLexical_marks.2.2.2.2.1⟩
  derives ts hts := by
    obtain ⟨word, us, rfl, hword, -, hus⟩ := map_word_cons hts
    obtain ⟨stop, us, rfl, hstop, -, hus⟩ := map_word_cons hus
    obtain rfl := List.map_eq_nil_iff.mp hus
    exact .ret hword hstop

theorem retValue (h : Spells (.expression value) ws) :
    Spells (.statement (.ret (some value))) (returnWord :: (ws ++ [semicolon])) where
  lexical := List.forall_mem_cons.mpr ⟨.keyword (by decide), isLexical_semicolon h.lexical⟩
  derives ts hts := by
    obtain ⟨word, us, rfl, hword, -, hus⟩ := map_word_cons hts
    obtain ⟨us, stop, rfl, hus, hstop⟩ := map_word_semicolon hus
    exact .retValue hword (h.derives us hus) hstop

theorem importFile {path : String} (h : IsQuotable path) :
    Spells (.statement (.importFile path)) [importWord, ⟨.string, path⟩, semicolon] where
  lexical := List.forall_mem_cons.mpr ⟨.keyword (by decide), List.forall_mem_cons.mpr
    ⟨.string h, List.forall_mem_singleton.mpr isLexical_marks.2.2.2.2.1⟩⟩
  derives ts hts := by
    obtain ⟨word, us, rfl, hword, -, hus⟩ := map_word_cons hts
    obtain ⟨x, xs, rfl, hx, rfl, hxs⟩ := map_word_cons hus
    obtain ⟨stop, xs, rfl, hstop, -, hnil⟩ := map_word_cons hxs
    obtain rfl := List.map_eq_nil_iff.mp hnil
    exact .importFile hword hx hstop

end Spells

/-! ## Trees -/

/-- The words of an expression spell it, as an operand of any operator. -/
theorem spells_operand {value : Node} (h : WellFormedExpression IsPrintable value) :
    Spells (.operand value) value.words := by
  induction h with
  | identifier hx => exact .name hx
  | literal hj => exact (Spells.literal hj).map .simple
  | assignment hx _ ih => exact .assignment hx ih
  | operation hop _ _ ihl ihr => exact .operation hop ihl ihr
  | call hx _ ih =>
    unfold Node.words
    rw [Node.wordsOfEach_eq]
    exact .call hx (.argumentList ih)

theorem spells_statement {node : Node} (h : WellFormedStatement IsPrintable node) :
    Spells (.statement node) node.words := by
  induction h with
  | expression hv => exact .evaluate (spells_operand hv).expression
  | declare hx hv => exact .declare hx (spells_operand hv).expression
  | block _ ih =>
    unfold Node.words
    rw [Node.wordsOfEach_eq]
    exact (Spells.statements ih).block.map .nested
  | branch ht _ ihc =>
    unfold Node.words
    rw [Node.wordsOfEach_eq]
    exact .branch (spells_operand ht).expression (Spells.statements ihc).block
  | branchElse ht _ _ ihc iha =>
    unfold Node.words
    rw [Node.wordsOfEach_eq, Node.wordsOfEach_eq]
    exact .branchElse (spells_operand ht).expression (Spells.statements ihc).block
      (Spells.statements iha).block
  | loop ht _ ihb =>
    unfold Node.words
    rw [Node.wordsOfEach_eq]
    exact .loop (spells_operand ht).expression (Spells.statements ihb).block
  | function hx hparams _ ihb =>
    unfold Node.words
    rw [Node.wordsOfEach_eq]
    exact .function hx (.parameterList hparams) (Spells.statements ihb).block
  | ret => exact .ret
  | retValue hv => exact .retValue (spells_operand hv).expression
  | importFile hpath => exact .importFile hpath

/-! ## Programs -/

/-- Words that spell some statements are scanned and parsed as these statements. -/
theorem Spells.parse {nodes : List Node} {ws : List Word} (h : Spells (.statements nodes) ws) :
    ∃ s, TokenStream.ofSource (line ws) = .ok s ∧ Program.ofStream s = .ok ⟨nodes⟩ := by
  obtain ⟨tokens, final, hscan, hwords⟩ := scan_line h.lexical .start
  refine ⟨⟨tokens, ⟨.endOfInput, "EOF", final⟩⟩, by rw [TokenStream.ofSource, hscan], ?_⟩
  have htop : topLevel ⟨.endOfInput, "EOF", final⟩ (fuelFor tokens.length) tokens = .ok nodes :=
    topLevel_complete rfl (h.derives tokens hwords) (by rw [fuelFor]; omega)
  rw [Program.ofStream, htop]
  rfl

/-- A well-formed program whose numbers are integers of limited length is printed as a source text that
is scanned and parsed as this program, and every program that is parsed from a source text is
well-formed. -/
theorem printing_inverts_parsing :
    (∀ p : Program, p.WellFormed IsPrintable →
      ∃ s, TokenStream.ofSource p.source = .ok s ∧ Program.ofStream s = .ok p) ∧
    ∀ (source : String) (s : TokenStream) (p : Program), TokenStream.ofSource source = .ok s →
      Program.ofStream s = .ok p → p.WellFormed IsNonNegative :=
  ⟨fun _ hp => (Spells.statements fun node hnode => spells_statement (hp node hnode)).parse,
    fun _ _ _ => wellFormed_ofStream⟩

/-- A program with a comment mark and a new line in strings and a number of twenty digits. -/
def greeting : Program where
  statements :=
    [.importFile "lib//io",
      .function (.str "main") [.str "iff", .str "_x"]
        [.expression (.call (.str "print") [.literal .string (.str "// a\nb"),
          .binary (.identifier (.str "iff")) (.str ">=")
            (.literal .number (.int 12345678901234567890))])]]

example : greeting.source =
    "import \"lib//io\" ; func main ( iff , _x ) \x7b "
      ++ "print ( \"// a\nb\" , ( iff >= 12345678901234567890 ) ) ; \x7d" := by
  decide +kernel

theorem greeting_wellFormed : greeting.WellFormed IsPrintable := by
  have hnonneg : (0 : Int) ≤ 12345678901234567890 := by decide
  have hshort : (12345678901234567890 : Int).natAbs < IntText.tooLarge := by decide +kernel
  have htext : WellFormedExpression IsPrintable (.literal .string (.str "// a\nb")) :=
    .literal (.string (by decide))
  have htest : WellFormedExpression IsPrintable (.binary (.identifier (.str "iff")) (.str ">=")
      (.literal .number (.int 12345678901234567890))) :=
    .operation (by decide) (.identifier (by decide)) (.literal (.number ⟨hnonneg, hshort⟩))
  have hbody : WellFormedStatement IsPrintable (.expression (.call (.str "print")
      [.literal .string (.str "// a\nb"), .binary (.identifier (.str "iff")) (.str ">=")
        (.literal .number (.int 12345678901234567890))])) :=
    .expression (.call (by decide)
      (List.forall_mem_cons.mpr ⟨htext, List.forall_mem_singleton.mpr htest⟩))
  have hmain := @WellFormedStatement.function IsPrintable "main" ["iff", "_x"] _ (by decide)
    (by decide) (List.forall_mem_singleton.mpr hbody)
  exact List.forall_mem_cons.mpr
    ⟨.importFile (by decide), List.forall_mem_singleton.mpr hmain⟩

theorem greeting_round_trip :
    (∃ s, TokenStream.ofSource greeting.source = .ok s ∧ Program.ofStream s = .ok greeting) ∧
      Program.WellFormed IsNonNegative
        ⟨[.expression (.binary (.identifier (.str "x")) (.str "=")
          (.literal .number (.int 7)))]⟩ := by
  have hs : TokenStream.ofSource "(x)=07;" =
      .ok ⟨[⟨.leftParen, "(", ⟨1, 1⟩⟩, ⟨.identifier, "x", ⟨1, 2⟩⟩, ⟨.rightParen, ")", ⟨1, 3⟩⟩,
        ⟨.equals, "=", ⟨1, 4⟩⟩, ⟨.number, "07", ⟨1, 5⟩⟩, ⟨.semicolon, ";", ⟨1, 7⟩⟩],
        ⟨.endOfInput, "EOF", ⟨1, 8⟩⟩⟩ := by decide
  exact ⟨printing_inverts_parsing.1 greeting greeting_wellFormed,
    printing_inverts_parsing.2 _ _ _ hs rfl⟩

end Grammar

end ScriptLang
