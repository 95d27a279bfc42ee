import ScriptLang.Proofs.Grammar.Steps
import ScriptLang.Proofs.Grammar.Viable

/-!
# Looking one token ahead

How the steps of the parser read tokens: what they do is decided by the tokens they take and the next
one. A run on some tokens is compared with all runs, to any end of the input and with any fuel, on
tokens that are the same up to the next one. Where the first stops with an error, so do the others, and
the tokens before are a viable beginning, because they have been taken.

Results:
* `Parse.Reads.bind` and the lemmas beside it: each step reads tokens in this way, and so do steps one
  after another.
-/
namespace ScriptLang

/-- The error is about the token. -/
inductive ParseError.PointsAt : ParseError → Token → Prop
  | missing (slot : Slot) (t : Token) : PointsAt (.missing slot t) t
  | badTarget (kind : String) (t : Token) : PointsAt (.badTarget kind t) t
  | notCallable (kind : TokenKind) (t : Token) : PointsAt (.notCallable kind t) t
  | noExpression (t : Token) : PointsAt (.noExpression t) t

/-- The message of an error ends with the place of the token that it is about. -/
theorem ParseError.PointsAt.message {e : ParseError} {t : Token} (h : e.PointsAt t) :
    ∃ before, ∀ file, e.message file = before ++ t.position.inFile file := by
  cases h <;> exact ⟨_, fun _ => rfl⟩

namespace Grammar

/-! ## Tokens with the same next token -/

/-- The lists are not empty and have the same first token. -/
def SameNext (ts us : List Token) : Prop := ∃ t, ts.head? = some t ∧ us.head? = some t

namespace SameNext

variable {ts us : List Token}

theorem append (h : SameNext ts us) (vs : List Token) : SameNext (vs ++ ts) (vs ++ us) := by
  cases vs with
  | nil => exact h
  | cons v vs => exact ⟨v, rfl, rfl⟩

theorem peek (h : SameNext ts us) (last last' : Token) : peek last' us = peek last ts := by
  obtain ⟨t, hts, hus⟩ := h
  rw [Grammar.peek, Grammar.peek, List.headD_eq_head?_getD, List.headD_eq_head?_getD, hts, hus]
  rfl

theorem isEmpty (h : SameNext ts us) : us.isEmpty = ts.isEmpty := by
  obtain ⟨t, hts, hus⟩ := h
  cases ts <;> cases us <;> simp_all

end SameNext

namespace Parse

variable {α β : Type}

/-! ## Runs on other tokens -/

/-- On tokens that start with `us` and go on with the next token of `rest`, the runs have this
result, unless they run out of fuel. -/
def Decides (run : Token → Nat → Parse α) (us rest : List Token)
    (result : List Token → Except ParseError (α × List Token)) : Prop :=
  ∀ rest', SameNext rest rest' → ∀ last fuel,
    run last fuel (us ++ rest') = result rest' ∨
      run last fuel (us ++ rest') = .error .outOfFuel

namespace Decides

variable {run : Token → Nat → Parse α} {k : Token → Nat → α → Parse β} {us vs rest : List Token}

theorem bind {a : α} {result : List Token → Except ParseError (β × List Token)}
    (hx : Decides run us (vs ++ rest) fun rest' => .ok (a, rest'))
    (hk : Decides (fun last n => k last n a) vs rest result) :
    Decides (fun last n => run last n >>= k last n) (us ++ vs) rest result := by
  intro rest' hnext last fuel
  rw [List.append_assoc]
  rcases hx (vs ++ rest') (hnext.append vs) last fuel with h | h
  · have hrun : (run last fuel >>= k last fuel) (us ++ (vs ++ rest')) =
        k last fuel a (vs ++ rest') := bind_of_ok h
    exact (hk rest' hnext last fuel).imp hrun.trans hrun.trans
  · exact .inr (bind_of_error h)

theorem bind_error {e : ParseError} (hx : Decides run us rest fun _ => .error e) :
    Decides (fun last n => run last n >>= k last n) us rest fun _ => .error e := by
  intro rest' hnext last fuel
  exact (hx rest' hnext last fuel).imp bind_of_error bind_of_error

end Decides

/-- How a computation reads tokens. Whatever tokens come after the next one, the tokens that it takes
and its value are the same, and so is its error, which is about the next token after a viable
beginning. -/
structure Reads (last : Token) (viable : List Token → Prop) (x : Parse α)
    (run : Token → Nat → Parse α) (ts : List Token) : Prop where
  ok : ∀ a rest, x ts = .ok (a, rest) →
    ∃ us, ts = us ++ rest ∧ Decides run us rest fun rest' => .ok (a, rest')
  error : ∀ e, x ts = .error e → e = .outOfFuel ∨
    ∃ us rest, ts = us ++ rest ∧ e.PointsAt (peek last rest) ∧ viable us ∧
      Decides run us rest fun _ => .error e

namespace Reads

variable {last : Token} {viable viable' : List Token → Prop} {x x' y : Parse α}
  {run run' other : Token → Nat → Parse α} {f : α → Parse β} {k : Token → Nat → α → Parse β}
  {ts : List Token}

/-- The same computation seen in another way: what is decided of its runs is decided of others. -/
theorem map (h : Reads last viable x run ts) (hx : x' ts = x ts)
    (hv : ∀ us, viable us → viable' us)
    (hrun : ∀ {us rest result}, ts = us ++ rest → Decides run us rest result →
      Decides run' us rest result) : Reads last viable' x' run' ts where
  ok a rest hok := by
    obtain ⟨us, hts, hus⟩ := h.ok a rest (hx ▸ hok)
    exact ⟨us, hts, hrun hts hus⟩
  error e herr := by
    refine (h.error e (hx ▸ herr)).imp_right ?_
    rintro ⟨us, rest, hts, he, hviable, hus⟩
    exact ⟨us, rest, hts, he, hv us hviable, hrun hts hus⟩

theorem mono (h : Reads last viable x run ts) (hv : ∀ us, viable us → viable' us) :
    Reads last viable' x run ts :=
  h.map rfl hv fun _ hd => hd

theorem congr (h : Reads last viable x run ts) (hx : x' ts = x ts)
    (hrun : ∀ us rest rest', ts = us ++ rest → SameNext rest rest' →
      ∀ last n, run' last n (us ++ rest') = run last n (us ++ rest')) :
    Reads last viable x' run' ts := by
  refine h.map hx (fun _ hus => hus) fun hts hd rest' hnext last fuel => ?_
  rw [hrun _ _ rest' hts hnext]
  exact hd rest' hnext last fuel

theorem withFuel (h : Reads last viable x run ts) (fuel : Nat → Nat) :
    Reads last viable x (fun last n => run last (fuel n)) ts :=
  h.map rfl (fun _ hus => hus) fun _ hd rest' hnext last n => hd rest' hnext last (fuel n)

/-- Runs with no fuel have no result. -/
theorem succ (h : Reads last viable x (fun last n => run last (n + 1)) ts)
    (hzero : ∀ last ts, run last 0 ts = .error .outOfFuel) : Reads last viable x run ts := by
  refine h.map rfl (fun _ hus => hus) fun _ hd rest' hnext last fuel => ?_
  cases fuel with
  | zero => exact .inr (hzero _ _)
  | succ fuel => exact hd rest' hnext last fuel

/-- Without fuel there is nothing to compare. -/
theorem outOfFuel (h : x ts = .error .outOfFuel) : Reads last viable x run ts where
  ok a rest hok := by cases h.symm.trans hok
  error e herr := .inl (Except.error.inj (herr.symm.trans h))

/-! ### Steps -/

theorem pure (a : α) : Reads last viable (Pure.pure a) (fun _ _ => Pure.pure a) ts where
  ok := by
    rintro b rest ⟨⟩
    exact ⟨[], rfl, fun _ _ _ _ => .inl rfl⟩
  error := by rintro e ⟨⟩

theorem fail {e : ParseError} (he : e.PointsAt (peek last ts)) (hv : viable []) :
    Reads last viable (fail e : Parse α) (fun _ _ => fail e) ts where
  ok := by rintro a rest ⟨⟩
  error := by
    rintro _ ⟨⟩
    exact .inr ⟨[], ts, rfl, he, hv, fun _ _ _ _ => .inl rfl⟩

theorem next {f : Token → Parse β} {k : Token → Nat → Token → Parse β}
    (h : Reads last viable (f (peek last ts)) (fun last' n => k last' n (peek last ts)) ts) :
    Reads last viable (next last >>= f) (fun last n => next last >>= k last n) ts := by
  refine h.congr rfl fun us rest rest' hts hnext last' n => ?_
  show k last' n (peek last' (us ++ rest')) (us ++ rest') = _
  rw [(hnext.append us).peek last last', ← hts]

theorem byNext {x : TokenKind → Parse α} {run : Token → Nat → TokenKind → Parse α}
    (h : Reads last viable (x (peek last ts).kind)
      (fun last' n => run last' n (peek last ts).kind) ts) :
    Reads last viable (byNext last x) (fun last n => byNext last (run last n)) ts := by
  refine h.congr rfl fun us rest rest' hts hnext last' n => ?_
  show run last' n (peek last' (us ++ rest')).kind (us ++ rest') = _
  rw [(hnext.append us).peek last last', ← hts]

theorem ifNext {c : Token → Prop} [DecidablePred c]
    (hx : c (peek last ts) → Reads last viable x run ts)
    (hy : ¬ c (peek last ts) → Reads last viable y other ts) :
    Reads last viable (ifNext last c x y)
      (fun last n => ifNext last c (run last n) (other last n)) ts := by
  by_cases hc : c (peek last ts)
  · refine (hx hc).congr (if_pos hc) fun us rest rest' hts hnext last' n => if_pos ?_
    rwa [(hnext.append us).peek last last', ← hts]
  · refine (hy hc).congr (if_neg hc) fun us rest rest' hts hnext last' n => if_neg ?_
    rwa [(hnext.append us).peek last last', ← hts]

theorem untilStop {stop : List Token → Bool} {stop' : Token → List Token → Bool}
    {items : Parse (List α)} {run : Token → Nat → Parse (List α)}
    (hstop : ∀ us rest rest', ts = us ++ rest → SameNext rest rest' →
      ∀ last, stop' last (us ++ rest') = stop ts) (h : Reads last viable items run ts) :
    Reads last viable (untilStop stop items)
      (fun last n => untilStop (stop' last) (run last n)) ts := by
  cases hs : stop ts with
  | true =>
    refine (pure []).congr (if_pos hs) fun us rest rest' hts hnext last' n => if_pos ?_
    rwa [hstop us rest rest' hts hnext]
  | false =>
    have hne : ¬ stop ts = true := Bool.not_eq_true _ ▸ hs
    refine h.congr (if_neg hne) fun us rest rest' hts hnext last' n => if_neg ?_
    rwa [hstop us rest rest' hts hnext]

theorem skip {t : Token} {f : Unit → Parse β} {k : Token → Nat → Unit → Parse β}
    (h : Reads last (fun us => viable (t :: us)) (f ()) (fun last n => k last n ()) ts) :
    Reads last viable (skip >>= f) (fun last n => skip >>= k last n) (t :: ts) where
  ok a rest hok := by
    obtain ⟨us, rfl, hus⟩ := h.ok a rest hok
    exact ⟨t :: us, rfl, hus⟩
  error e herr := by
    refine (h.error e herr).imp_right ?_
    rintro ⟨us, rest, rfl, he, hv, hus⟩
    exact ⟨t :: us, rest, rfl, he, hv, hus⟩

/-- A choice of something to take if the next token is of one class. -/
theorem ifKind {kind : TokenKind} {f : Unit → Parse α} {k : Token → Nat → Unit → Parse α}
    (hlast : last.kind = .endOfInput) (hkind : kind ≠ .endOfInput) (hts : Scanned ts)
    (hf : ∀ t rest, Scanned rest → t.kind = kind →
      Reads last (fun us => viable (t :: us)) (f ()) (fun last n => k last n ()) rest)
    (hy : (peek last ts).kind ≠ kind → Reads last viable y other ts) :
    Reads last viable (Parse.ifNext last (·.kind = kind) (Parse.skip >>= f) y)
      (fun last n => Parse.ifNext last (·.kind = kind) (Parse.skip >>= k last n) (other last n))
      ts := by
  refine ifNext (fun hk => ?_) hy
  obtain ⟨t, rest, rfl, ht⟩ := cons_of_peek hlast hkind hk
  exact skip (hf t rest hts.tail ht)

/-- A token that must stand at a place, and what comes after it. -/
theorem expect_bind {slot : Slot} {f : Token → Parse β} {k : Token → Nat → Token → Parse β}
    (hlast : last.kind = .endOfInput) (hts : Scanned ts) (hv : viable [])
    (hf : ∀ t rest, Scanned rest → t.kind = slot.kind →
      Reads last (fun us => viable (t :: us)) (f t) (fun last n => k last n t) rest) :
    Reads last viable (expect last slot >>= f) (fun last n => expect last slot >>= k last n)
      ts := by
  simp only [expect_steps]
  refine next (ifNext (fun hk => ?_) fun _ => fail (.missing _ _) hv)
  obtain ⟨t, rest, rfl, ht⟩ := cons_of_peek hlast (slot_kind_ne slot) hk
  exact skip (hf t rest hts.tail ht)

/-- A phrase, and what comes after it. -/
theorem bind {p : α → Phrase} (h : Reads last (Viable p) x run ts) (htakes : Takes p x)
    (hts : Scanned ts) (hv : ∀ us, Viable p us → viable us)
    (hf : ∀ a us rest, ts = us ++ rest → Scanned rest → Derives (p a) us →
      Reads last (fun vs => viable (us ++ vs)) (f a) (fun last n => k last n a) rest) :
    Reads last viable (x >>= f) (fun last n => run last n >>= k last n) ts := by
  cases hx : x ts with
  | error e =>
    refine ⟨fun b rest hok => ?_, fun e' herr => ?_⟩
    · cases (bind_of_error hx).symm.trans hok
    · obtain rfl : e = e' := Except.error.inj ((bind_of_error hx).symm.trans herr)
      refine (h.error e hx).imp_right ?_
      rintro ⟨us, rest, hus, he, hviable, hrun⟩
      exact ⟨us, rest, hus, he, hv us hviable, hrun.bind_error⟩
  | ok r =>
    obtain ⟨a, ts₁⟩ := r
    obtain ⟨us, rfl, hus⟩ := htakes hts hx
    obtain ⟨us', heq, hrun⟩ := h.ok a ts₁ hx
    obtain rfl : us = us' := List.append_cancel_right heq
    have hrest := hf a us ts₁ rfl hts.right hus
    refine ⟨fun b rest hok => ?_, fun e herr => ?_⟩
    · obtain ⟨vs, rfl, hvs⟩ := hrest.ok b rest ((bind_of_ok hx).symm.trans hok)
      exact ⟨us ++ vs, (List.append_assoc _ _ _).symm, hrun.bind hvs⟩
    · refine (hrest.error e ((bind_of_ok hx).symm.trans herr)).imp_right ?_
      rintro ⟨vs, rest, rfl, he, hviable, hvs⟩
      exact ⟨us ++ vs, rest, (List.append_assoc _ _ _).symm, he, hviable, hrun.bind hvs⟩

/-- A phrase, the token that must stand after it, and what comes after that. -/
theorem bind_expect {p : α → Phrase} {slot : Slot} {f : α → Token → Parse β}
    {k : Token → Nat → α → Token → Parse β} (hlast : last.kind = .endOfInput)
    (h : Reads last (Viable p) x run ts) (htakes : Takes p x) (hts : Scanned ts)
    (hv : ∀ us, Viable p us → viable us)
    (hf : ∀ a us t rest, Scanned rest → Derives (p a) us → t.kind = slot.kind →
      Reads last (fun vs => viable (us ++ t :: vs)) (f a t) (fun last n => k last n a t) rest) :
    Reads last viable (x >>= fun a => expect last slot >>= f a)
      (fun last n => run last n >>= fun a => expect last slot >>= k last n a) ts := by
  refine h.bind htakes hts hv fun a us rest _ hrest hus => ?_
  refine expect_bind hlast hrest ?_ fun t rest hrest ht => hf a us t rest hrest hus ht
  rw [List.append_nil]
  exact hv us (viable_of_derives hus)

theorem single {kind : TokenKind} {g : Token → α} (hlast : last.kind = .endOfInput)
    (hk : (peek last ts).kind = kind) (hkind : kind ≠ .endOfInput) :
    Reads last viable (single last g) (fun last _ => single last g) ts := by
  obtain ⟨t, rest, rfl, -⟩ := cons_of_peek hlast hkind hk
  exact next (skip (pure _))

end Reads

end Parse

end Grammar

end ScriptLang
