import ScriptLang.Proofs.Grammar.Soundness

/-!
# Viable beginnings

The beginnings of the phrases of the grammar: tokens that some more tokens complete to a phrase. Where
a rule has a phrase inside, a viable beginning of that phrase makes one of the whole, because what
comes after the phrase can always be filled in. There is one lemma for each phrase inside a rule; the
places between the phrases follow, since a beginning of a viable beginning is viable.

Results:
* `Viable.of_append`, `viable_of_derives`: beginnings of beginnings and whole phrases are viable;
* `Viable.declare` and the lemmas beside it: each rule with a phrase that has only begun.
-/
namespace ScriptLang.Grammar

/-! ## Tokens to fill in -/

/-- The classes of tokens that complete a phrase. -/
def fillers : List TokenKind :=
  [.identifier, .string, .equals, .semicolon, .leftParen, .rightParen, .leftBrace, .rightBrace]

def filler (kind : TokenKind) : Token where
  kind := kind
  text :=
    match kind with
    | .identifier => "x"
    | .equals => "="
    | .semicolon => ";"
    | .leftParen => "("
    | .rightParen => ")"
    | .leftBrace => "\x7b"
    | .rightBrace => "\x7d"
    | _ => ""
  position := .start

theorem lexed_filler {kind : TokenKind} (h : kind ∈ fillers) : Lexed (filler kind) := by
  simp only [fillers, List.mem_cons, List.not_mem_nil, or_false] at h
  rcases h with rfl | rfl | rfl | rfl | rfl | rfl | rfl | rfl
  · exact ⟨'x', [], 0, by decide⟩
  · exact ⟨'"', ['"'], 1, by decide⟩
  · exact ⟨'=', [], 0, by decide⟩
  · exact ⟨';', [], 0, by decide⟩
  · exact ⟨'(', [], 0, by decide⟩
  · exact ⟨')', [], 0, by decide⟩
  · exact ⟨'\x7b', [], 0, by decide⟩
  · exact ⟨'\x7d', [], 0, by decide⟩

theorem scanned_fillers {kinds : List TokenKind} (h : ∀ kind ∈ kinds, kind ∈ fillers) :
    Scanned (kinds.map filler) := by
  intro t ht
  obtain ⟨kind, hkind, rfl⟩ := List.mem_map.mp ht
  exact lexed_filler (h kind hkind)

/-! ## Beginnings -/

/-- Some scanned tokens complete the tokens to a phrase. -/
def Viable {α : Type} (p : α → Phrase) (us : List Token) : Prop :=
  ∃ a vs, Scanned vs ∧ Derives (p a) (us ++ vs)

section

variable {α β : Type} {p : α → Phrase} {q : β → Phrase} {us vs : List Token}

theorem viable_of_derives {a : α} (h : Derives (p a) us) : Viable p us :=
  ⟨a, [], nofun, by rwa [List.append_nil]⟩

theorem Viable.of_append (h : Viable p (us ++ vs)) (hvs : Scanned vs) : Viable p us := by
  obtain ⟨a, ws, hws, ha⟩ := h
  refine ⟨a, vs ++ ws, List.forall_mem_append.mpr ⟨hvs, hws⟩, ?_⟩
  rwa [← List.append_assoc]

/-- Tokens before the end of which only tokens to fill in are missing. -/
theorem Viable.of_fillers (kinds : List TokenKind) (h : Viable p (us ++ kinds.map filler))
    (hkinds : ∀ kind ∈ kinds, kind ∈ fillers) : Viable p us :=
  h.of_append (scanned_fillers hkinds)

/-- A phrase that has begun inside another one, between the tokens `before` and tokens to fill in. -/
theorem Viable.inside (h : Viable p us) (before : List Token) (after : List TokenKind)
    (hafter : ∀ kind ∈ after, kind ∈ fillers)
    (hq : ∀ a ts, Derives (p a) ts → ∃ b, Derives (q b) (before ++ (ts ++ after.map filler))) :
    Viable q (before ++ us) := by
  obtain ⟨a, vs, hvs, ha⟩ := h
  obtain ⟨b, hb⟩ := hq a (us ++ vs) ha
  refine ⟨b, vs ++ after.map filler, ?_, ?_⟩
  · exact List.forall_mem_append.mpr ⟨hvs, scanned_fillers hafter⟩
  · rwa [List.append_assoc, ← List.append_assoc us]

/-- A phrase that has begun at the end of another one, after what `f` puts before it. -/
theorem Viable.atEnd {f : List Token → List Token} (h : Viable p us)
    (hf : ∀ us vs, f (us ++ vs) = f us ++ vs)
    (hq : ∀ a ts, Derives (p a) ts → ∃ b, Derives (q b) (f ts)) : Viable q (f us) := by
  obtain ⟨a, vs, hvs, ha⟩ := h
  obtain ⟨b, hb⟩ := hq a (us ++ vs) ha
  exact ⟨b, vs, hvs, by rwa [← hf]⟩

/-- A phrase that has begun is another one that has. -/
theorem Viable.map (h : Viable p us) (hq : ∀ a ts, Derives (p a) ts → ∃ b, Derives (q b) ts) :
    Viable q us :=
  h.atEnd (f := id) (fun _ _ => rfl) hq

end

/-! ## Beginnings of nothing -/

theorem viable_parameters_nil : Viable .parameters [] :=
  .of_fillers [.identifier] (viable_of_derives (.parameter rfl)) (by decide)

theorem derives_empty_block :
    Derives (.block []) ([.leftBrace, .rightBrace].map filler) :=
  .block rfl .noStatements rfl

theorem viable_block_nil : Viable .block [] :=
  .of_fillers [.leftBrace, .rightBrace] (viable_of_derives derives_empty_block) (by decide)

theorem viable_primary_nil : Viable .primary [] :=
  .of_fillers [.identifier] (viable_of_derives (.name rfl)) (by decide)

/-! ## Rules with a phrase that has begun -/

namespace Viable

variable {us ts cs : List Token} {word x eq start stop comma other op : Token}

/-! ### Expressions -/

theorem group (hstart : start.kind = .leftParen) (h : Viable .expression us) :
    Viable .primary (start :: us) :=
  h.inside [start] [.rightParen] (by decide) fun _ _ hv => ⟨_, .group hstart hv rfl⟩

theorem simple (h : Viable .primary us) : Viable .operand us :=
  h.map fun _ _ hv => ⟨_, .simple hv⟩

theorem callArguments (hx : x.kind = .identifier) (hstart : start.kind = .leftParen)
    (h : Viable .argumentList us) : Viable .operand (x :: start :: us) :=
  h.inside [x, start] [.rightParen] (by decide) fun _ _ hv => ⟨_, .call hx hstart hv rfl⟩

theorem argument (h : Viable .expression us) : Viable .arguments us :=
  h.map fun _ _ hv => ⟨_, .argument hv⟩

theorem moreArguments {value : Node} (hts : Derives (.expression value) ts)
    (hcomma : comma.kind = .comma) (h : Viable .arguments us) :
    Viable .arguments (ts ++ comma :: us) :=
  h.atEnd (by simp) fun _ _ hv => ⟨_, .moreArguments hts hcomma hv⟩

theorem someArguments (h : Viable .arguments us) : Viable .argumentList us :=
  h.map fun _ _ hv => ⟨_, .someArguments hv⟩

theorem single {level : Level} (h : Viable level.inner us) : Viable (.level level) us :=
  h.map fun _ _ hv => ⟨_, .single hv⟩

theorem binary {level : Level} {left : Node} (hts : Derives (.level level left) ts)
    (hop : level.Has op) (h : Viable level.inner us) : Viable (.level level) (ts ++ op :: us) :=
  h.atEnd (by simp) fun _ _ hv => ⟨_, .binary hts hop hv⟩

theorem chain (h : Viable (.level .comparison) us) : Viable .expression us :=
  h.map fun _ _ hv => ⟨_, .chain hv⟩

theorem assign {name : String} (hts : Derives (.target name) ts) (heq : eq.kind = .equals)
    (h : Viable .expression us) : Viable .expression (ts ++ eq :: us) :=
  h.atEnd (by simp) fun _ _ hv => ⟨_, .assign hts heq hv⟩

theorem expression_nil : Viable .expression [] := by
  have hproduct : Viable (.level .multiplicative) [] := .single viable_primary_nil.simple
  have hsum : Viable (.level .additive) [] := .single hproduct
  have hcomparison : Viable (.level .comparison) [] := .single hsum
  exact hcomparison.chain

/-! ### Statements -/

theorem evaluate (h : Viable .expression us) : Viable .statement us :=
  h.inside [] [.semicolon] (by decide) fun _ _ hv => ⟨_, .evaluate hv rfl⟩

theorem declare (hword : word.kind = .letWord) (hx : x.kind = .identifier)
    (heq : eq.kind = .equals) (h : Viable .expression us) :
    Viable .statement (word :: x :: eq :: us) :=
  h.inside [word, x, eq] [.semicolon] (by decide) fun _ _ hv =>
    ⟨_, .declare hword hx heq hv rfl⟩

theorem parameter (hx : x.kind = .identifier) (hcomma : comma.kind = .comma)
    (h : Viable .parameters us) : Viable .parameters (x :: comma :: us) :=
  h.atEnd (by simp) fun _ _ hv => ⟨_, .moreParameters hx hcomma hv⟩

theorem someParameters (h : Viable .parameters us) : Viable .parameterList us :=
  h.map fun _ _ hv => ⟨_, .someParameters hv⟩

theorem functionParameters (hword : word.kind = .funcWord) (hx : x.kind = .identifier)
    (hstart : start.kind = .leftParen) (h : Viable .parameterList us) :
    Viable .statement (word :: x :: start :: us) :=
  h.inside [word, x, start] [.rightParen, .leftBrace, .rightBrace] (by decide) fun _ _ hv =>
    ⟨_, .function hword hx hstart hv rfl derives_empty_block⟩

theorem functionBody {params : List Json} (hword : word.kind = .funcWord)
    (hx : x.kind = .identifier) (hstart : start.kind = .leftParen)
    (hts : Derives (.parameterList params) ts) (hstop : stop.kind = .rightParen)
    (h : Viable .block us) :
    Viable .statement (word :: x :: start :: (ts ++ stop :: us)) :=
  h.atEnd (by simp) fun _ _ hv => ⟨_, .function hword hx hstart hts hstop hv⟩

theorem branchTest (hword : word.kind = .ifWord) (hstart : start.kind = .leftParen)
    (h : Viable .expression us) : Viable .statement (word :: start :: us) :=
  h.inside [word, start] [.rightParen, .leftBrace, .rightBrace] (by decide) fun _ _ hv =>
    ⟨_, .branch hword hstart hv rfl derives_empty_block⟩

theorem branchBody {test : Node} (hword : word.kind = .ifWord) (hstart : start.kind = .leftParen)
    (hts : Derives (.expression test) ts) (hstop : stop.kind = .rightParen)
    (h : Viable .block us) :
    Viable .statement (word :: start :: (ts ++ stop :: us)) :=
  h.atEnd (by simp) fun _ _ hv => ⟨_, .branch hword hstart hts hstop hv⟩

theorem branchElse {test : Node} {consequent : List Node} (hword : word.kind = .ifWord)
    (hstart : start.kind = .leftParen) (hts : Derives (.expression test) ts)
    (hstop : stop.kind = .rightParen) (hcs : Derives (.block consequent) cs)
    (hother : other.kind = .elseWord) (h : Viable .block us) :
    Viable .statement (word :: start :: (ts ++ stop :: (cs ++ other :: us))) :=
  h.atEnd (by simp) fun _ _ hv => ⟨_, .branchElse hword hstart hts hstop hcs hother hv⟩

theorem loopTest (hword : word.kind = .whileWord) (hstart : start.kind = .leftParen)
    (h : Viable .expression us) : Viable .statement (word :: start :: us) :=
  h.inside [word, start] [.rightParen, .leftBrace, .rightBrace] (by decide) fun _ _ hv =>
    ⟨_, .loop hword hstart hv rfl derives_empty_block⟩

theorem loopBody {test : Node} (hword : word.kind = .whileWord) (hstart : start.kind = .leftParen)
    (hts : Derives (.expression test) ts) (hstop : stop.kind = .rightParen)
    (h : Viable .block us) :
    Viable .statement (word :: start :: (ts ++ stop :: us)) :=
  h.atEnd (by simp) fun _ _ hv => ⟨_, .loop hword hstart hts hstop hv⟩

theorem retValue (hword : word.kind = .returnWord) (h : Viable .expression us) :
    Viable .statement (word :: us) :=
  h.inside [word] [.semicolon] (by decide) fun _ _ hv => ⟨_, .retValue hword hv rfl⟩

theorem importFile (hword : word.kind = .importWord) (hx : x.kind = .string) :
    Viable .statement [word, x] :=
  .of_fillers [.semicolon] (viable_of_derives (.importFile hword hx rfl)) (by decide)

theorem nested (h : Viable .block us) : Viable .statement us :=
  h.map fun _ _ hv => ⟨_, .nested hv⟩

theorem block (hstart : start.kind = .leftBrace) (h : Viable .statements us) :
    Viable .block (start :: us) :=
  h.inside [start] [.rightBrace] (by decide) fun _ _ hv => ⟨_, .block hstart hv rfl⟩

theorem first (h : Viable .statement us) : Viable .statements us :=
  h.map fun node _ hv => ⟨[node], by simpa using Derives.moreStatements hv .noStatements⟩

theorem more {node : Node} (hts : Derives (.statement node) ts) (h : Viable .statements us) :
    Viable .statements (ts ++ us) :=
  h.atEnd (by simp) fun _ _ hv => ⟨_, .moreStatements hts hv⟩

end Viable

end ScriptLang.Grammar
