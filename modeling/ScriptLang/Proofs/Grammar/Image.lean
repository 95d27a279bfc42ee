import ScriptLang.Proofs.Grammar.Soundness
import ScriptLang.Proofs.Number.Sign
import ScriptLang.Proofs.Token.Words

/-!
# The image of the parser

Every program that comes from a source text is well-formed: its names and strings are those of scanned
tokens, and the rules of the grammar put every node where it belongs. By induction on the derivation.
The numbers in it are those that number tokens stand for.

Results:
* `wellFormed`: what scanned tokens derive is well-formed;
* `wellFormed_of_parsed`, `wellFormed_ofStream`: so is every program that comes from a source text.
-/
namespace ScriptLang.Grammar

/-! ## Scanned tokens -/

theorem Lexed.isName {t : Token} (h : Lexed t) (hk : t.kind = .identifier) : IsName t.text :=
  (Word.lexed_iff.mp h).text.1 hk

theorem Lexed.isQuotable {t : Token} (h : Lexed t) (hk : t.kind = .string) : IsQuotable t.text :=
  (Word.lexed_iff.mp h).text.2.1 hk

theorem Lexed.symbol {t : Token} (h : Lexed t) {level : Level} (hop : level.Has t) :
    t.text ∈ operatorSymbols := by
  cases level with
  | comparison =>
    have hsub : ∀ s ∈ ["==", "!=", "<", ">", "<=", ">="], s ∈ operatorSymbols := by decide
    exact hsub _ ((Word.lexed_iff.mp h).text.2.2 hop)
  | additive | multiplicative =>
    obtain ⟨-, ht | ht⟩ := hop <;> rw [ht] <;> decide

theorem isNonNegative_of_value {text : String} {n : Json} (h : NumberValue text n) :
    IsNonNegative n := by
  cases h with
  | integer => exact Int.natCast_nonneg _
  | long | decimal => exact Binary64.isNonNegative_ofDecimal _ _

/-- A source text is scanned as tokens that the scanner makes. -/
theorem scanned_scan {skip : Nat} {p final : Position} {cs : List Char} {ts : List Token}
    (h : Lexeme.scan skip p cs = .ok (ts, final)) : Scanned ts := by
  induction cs generalizing skip p ts final with
  | nil =>
    unfold Lexeme.scan at h
    cases h
    exact fun t ht => absurd ht List.not_mem_nil
  | cons c cs ih =>
    unfold Lexeme.scan at h
    cases skip with
    | succ skip => exact ih h
    | zero =>
      dsimp only at h
      split at h
      · exact ih h
      · next kind text extra hf =>
        split at h
        · next tokens final hs =>
          cases h
          exact List.forall_mem_cons.mpr ⟨⟨c, cs, extra, hf⟩, ih hs⟩
        · cases h
      · cases h
      · cases h

theorem scanned_ofSource {source : String} {s : TokenStream}
    (h : TokenStream.ofSource source = .ok s) : Scanned s.tokens ∧ s.last.kind = .endOfInput := by
  unfold TokenStream.ofSource at h
  split at h
  · next tokens final hs =>
    cases h
    exact ⟨scanned_scan hs, rfl⟩
  · cases h

/-! ## Phrases -/

/-- What the phrase stands for is well-formed. -/
def Phrase.WellFormed (numbers : Json → Prop) : Phrase → Prop
  | .statements nodes | .block nodes => ∀ node ∈ nodes, WellFormedStatement numbers node
  | .statement node => WellFormedStatement numbers node
  | .parameterList names | .parameters names =>
    ∃ xs : List String, names = xs.map .str ∧ ∀ x ∈ xs, IsName x
  | .expression value | .level _ value | .operand value | .primary value =>
    WellFormedExpression numbers value
  | .target name => IsName name
  | .argumentList values | .arguments values =>
    ∀ value ∈ values, WellFormedExpression numbers value

theorem Level.wellFormed_inner {numbers : Json → Prop} {level : Level} {value : Node} :
    (level.inner value).WellFormed numbers ↔ WellFormedExpression numbers value := by
  cases level <;> exact Iff.rfl

theorem Scanned.left {ts us : List Token} (h : Scanned (ts ++ us)) : Scanned ts :=
  (List.forall_mem_append.mp h).1

theorem Scanned.head {t : Token} {ts : List Token} (h : Scanned (t :: ts)) : Lexed t :=
  h t List.mem_cons_self

theorem wellFormed {numbers : Json → Prop}
    (hnumbers : ∀ {text : String} {n : Json}, NumberValue text n → numbers n) {p : Phrase}
    {ts : List Token} (h : Derives p ts) (hts : Scanned ts) : p.WellFormed numbers := by
  induction h with
  | noStatements => exact fun node hnode => absurd hnode List.not_mem_nil
  | moreStatements _ _ ih ihs => exact List.forall_mem_cons.mpr ⟨ih hts.left, ihs hts.right⟩
  | evaluate _ _ ih => exact .expression (ih hts.left)
  | declare _ hx _ _ _ ih =>
    exact .declare (hts.tail.head.isName hx) (ih hts.tail.tail.tail.left)
  | function _ hx _ _ _ _ ihp ihb =>
    obtain ⟨xs, rfl, hxs⟩ := ihp hts.tail.tail.tail.left
    exact .function (hts.tail.head.isName hx) hxs (ihb hts.tail.tail.tail.right.tail)
  | branch _ _ _ _ _ iht ihc =>
    exact .branch (iht hts.tail.tail.left) (ihc hts.tail.tail.right.tail)
  | branchElse _ _ _ _ _ _ _ iht ihc iha =>
    have hafter := hts.tail.tail.right.tail
    exact .branchElse (iht hts.tail.tail.left) (ihc hafter.left) (iha hafter.right.tail)
  | loop _ _ _ _ _ iht ihb => exact .loop (iht hts.tail.tail.left) (ihb hts.tail.tail.right.tail)
  | ret => exact .ret
  | retValue _ _ _ ih => exact .retValue (ih hts.tail.left)
  | importFile _ hx => exact .importFile (hts.tail.head.isQuotable hx)
  | nested _ ih => exact .block (ih hts)
  | block _ _ _ ih => exact ih hts.tail.left
  | noParameters => exact ⟨[], rfl, fun x hx => absurd hx List.not_mem_nil⟩
  | someParameters _ ih => exact ih hts
  | parameter hx => exact ⟨[_], rfl, List.forall_mem_singleton.mpr (hts.head.isName hx)⟩
  | moreParameters hx _ _ ih =>
    obtain ⟨xs, rfl, hxs⟩ := ih hts.tail.tail
    exact ⟨_ :: xs, rfl, List.forall_mem_cons.mpr ⟨hts.head.isName hx, hxs⟩⟩
  | assign _ _ _ iht ihv => exact .assignment (iht hts.left) (ihv hts.right.tail)
  | chain _ ih => exact ih hts
  | targetName hx => exact hts.head.isName hx
  | targetGroup _ _ _ ih => exact ih hts.tail.left
  | single _ ih => exact Level.wellFormed_inner.mp (ih hts)
  | binary _ hop _ ihl ihr =>
    exact .operation (hts.right.head.symbol hop) (ihl hts.left)
      (Level.wellFormed_inner.mp (ihr hts.right.tail))
  | call hx _ _ _ ih => exact .call (hts.head.isName hx) (ih hts.tail.tail.left)
  | simple _ ih => exact ih hts
  | noArguments => exact fun value hvalue => absurd hvalue List.not_mem_nil
  | someArguments _ ih => exact ih hts
  | argument _ ih => exact List.forall_mem_singleton.mpr (ih hts)
  | moreArguments _ _ _ ih ihs =>
    exact List.forall_mem_cons.mpr ⟨ih hts.left, ihs hts.right.tail⟩
  | name hx => exact .identifier (hts.head.isName hx)
  | number _ hn => exact .literal (.number (hnumbers hn))
  | string ht => exact .literal (.string (hts.head.isQuotable ht))
  | true => exact .literal (.boolean _)
  | false => exact .literal (.boolean _)
  | null => exact .literal .null
  | group _ _ _ ih => exact ih hts.tail.left

/-- Every program that comes from a source text is well-formed, with numbers that stand in texts. -/
theorem wellFormed_of_parsed {numbers : Json → Prop}
    (hnumbers : ∀ {text : String} {n : Json}, NumberValue text n → numbers n) {source : String}
    {s : TokenStream} {p : Program} (hs : TokenStream.ofSource source = .ok s)
    (hp : Program.ofStream s = .ok p) : p.WellFormed numbers := by
  obtain ⟨hts, hlast⟩ := scanned_ofSource hs
  unfold Program.ofStream at hp
  simp only [bind_ok] at hp
  obtain ⟨nodes, hn, hp⟩ := hp
  cases hp
  exact wellFormed hnumbers (topLevel_sound hlast hts hn) hts

/-- Every program that comes from a source text is well-formed. -/
theorem wellFormed_ofStream {source : String} {s : TokenStream} {p : Program}
    (hs : TokenStream.ofSource source = .ok s) (hp : Program.ofStream s = .ok p) :
    p.WellFormed IsNonNegative :=
  wellFormed_of_parsed isNonNegative_of_value hs hp

end ScriptLang.Grammar
