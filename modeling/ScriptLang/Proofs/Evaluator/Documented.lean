import ScriptLang.Proofs.Evaluator.Plain
import ScriptLang.Proofs.Linked.Source

/-!
# Programs from source fail only in documented ways

A run of a program from source has only plain values. A fault arises in one activity of the run, and
each activity has only few ways to fail by itself: a name that is not bound or bound already, an
operator, a step that cannot be noted, a line that cannot be printed, a call of something else than a
function. What the fault is about is a value of the run.

Results:
* `Breaks.documented`: the own faults of an activity are documented;
* `Program.FromSource.run_documented`: so are those of a run, and its values are plain.
-/
namespace ScriptLang

/-! ## Faults of the primitive computations -/

/-- A string has a key, so what goes wrong with it goes wrong after the key is known. -/
theorem Json.IsText.error_of_key {α : Type} {x : Json} {k : Json.Key → Except Fault α} {f : Fault}
    (hx : x.IsText) (h : Scopes.keyOf x >>= k = .error f) : ∃ key, k key = .error f := by
  obtain ⟨s, rfl⟩ := hx
  exact ⟨.text s, h⟩

namespace Eval

variable {m m' : Machine} {f : Fault} {scope : ScopeId} {x : Json}

theorem lookup_fault (hx : x.IsText) (h : lookup scope x m = (.fault f, m')) :
    f = .undeclared x := by
  unfold lookup at h
  split at h
  · cases h
  · next e he =>
    cases h
    obtain ⟨key, he⟩ := hx.error_of_key he
    split at he
    · cases he
    · cases he
      rfl

theorem declare_fault {v : Value} (hx : x.IsText) (h : declare scope x v m = (.fault f, m')) :
    f = .duplicate x := by
  rw [declare_run] at h
  split at h
  · cases h
  · next e he =>
    cases h
    obtain ⟨key, he⟩ := hx.error_of_key he
    split at he
    · cases he
      rfl
    · cases he

theorem assign_fault {v : Value} (hx : x.IsText) (h : assign scope x v m = (.fault f, m')) :
    f = .unassignable x := by
  rw [assign_run] at h
  split at h
  · cases h
  · next e he =>
    cases h
    obtain ⟨key, he⟩ := hx.error_of_key he
    split at he
    · cases he
    · cases he
      rfl

theorem bindParams_fault {params : List Json} {args : List Value} (hparams : ∀ x ∈ params, x.IsText)
    (h : Evaluator.bindParams scope params args m = (.fault f, m')) : ∃ x, f = .duplicate x := by
  induction params generalizing m args with
  | nil => cases h
  | cons param params ih =>
    obtain ⟨hparam, hparams⟩ := List.forall_mem_cons.mp hparams
    obtain h | ⟨⟨⟩, m₁, -, h⟩ := bind_fault.mp h
    · exact ⟨param, declare_fault hparam h⟩
    · exact ih hparams h

/-- A step fails only for a value that is too long, bound in its scope or passed in its call. -/
theorem step_fault {sink : Sink} {rule : Json} {call : Option (Json × List Value)}
    (hm : m.IsWellFormed sink) (hpassed : ∀ y args, call = some (y, args) → ∀ v ∈ args, v.IsPlain)
    (h : step rule scope call m = (.fault f, m')) :
    f.IsDocumented fun v => (∃ y, (y, v) ∈ (m.scopes.get scope).bindings) ∨
      ∃ y args, call = some (y, args) ∧ v ∈ args := by
  unfold step at h
  split at h
  · cases h
  · split at h
    · split at h
      · cases h
      · next b hb =>
        cases h
        obtain ⟨rfl, ⟨e, he, hlong⟩ | ⟨y, args, hcall, v, hv, hlong⟩⟩ :=
          notes_error (fun e he => (hm.bound scope e he).toIsShowable) hpassed hb
        · exact .digitLimit (.inl ⟨e.1, he⟩) hlong
        · exact .digitLimit (.inr ⟨y, args, hcall, hv⟩) hlong
    · cases h

/-- Printing fails only for a value that is too long. -/
theorem callBuiltin_fault {args : List Value} (hm : m.IsWellFormed .unlimited)
    (hargs : ∀ v ∈ args, v.IsPlain) (h : Evaluator.callBuiltin args m = (.fault f, m')) :
    f.IsDocumented (· ∈ args) := by
  unfold Evaluator.callBuiltin at h
  cases ht : texts args with
  | error b =>
    rw [ht] at h
    cases h
    obtain ⟨rfl, v, hv, hlong⟩ := texts_error hargs ht
    exact .digitLimit hv hlong
  | ok words =>
    rw [ht] at h
    obtain h | ⟨words', m₁, hwords, h⟩ := bind_fault.mp h
    · cases h
    · cases hwords
      obtain h | ⟨⟨⟩, m₂, -, h⟩ := bind_fault.mp h
      · unfold print at h
        rw [hm.into] at h
        cases h
      · cases h

theorem return_value {α β : Type} {y : Eval α} {g : α → β} {a : α} (h : y m = (.value a, m')) :
    (do return g (← y)) m = (.value (g a), m') := by
  rw [bind_run, h]
  rfl

end Eval

/-! ## Faults of activities -/

namespace Session

variable {fuel : Nat} {p : Program} {m : Machine}

/-- What there has to be for a run to have only plain values, into a sink that takes every line. -/
abbrev AdmitsPlain (p : Program) (m : Machine) : Prop :=
  Admits (plain .unlimited) (Machine.IsWellFormed .unlimited) p m

theorem Visits.left {a : Activity} (ha : Happens fuel p m a) {o : Outcome (List Value)}
    {m' : Machine} (hrun : a.run = (o, m')) : Visits fuel p m m' := by
  have hafter : a.after = m' := congrArg Prod.snd hrun
  exact hafter ▸ .after ha

theorem Occurs.isPlain (h : AdmitsPlain p m) {v : Value}
    (hv : Occurs fuel p m v) : v.IsPlain := by
  cases hv with
  | bound hvisits hv => exact ((hvisits.invariant plain_keeps h).bound _ _ hv).plain
  | passed ha hv => exact ((ha.fits plain_keeps h).task.passed v hv).plain
  | returned ha hrun hv =>
    have hkept := (ha.fits plain_keeps h).maintained plain_keeps
    rw [hrun] at hkept
    exact (hkept.value _ rfl v hv).plain

theorem Occurs.evaluated {fuel' : Nat} {node : Node} {scope : ScopeId} {v : Value}
    {m₁ m₂ : Machine} (ha : Happens fuel p m ⟨fuel', .evaluate node scope, m₁⟩)
    (hrun : Evaluator.evaluate fuel' node scope m₁ = (.value v, m₂)) : Occurs fuel p m v :=
  .returned ha (Eval.return_value hrun) (List.mem_singleton_self v)

/-- What a name stands for when an activity starts. -/
theorem Occurs.lookedUp {a : Activity} {scope : ScopeId} {x : Json} {v : Value} {m₁ : Machine}
    (ha : Happens fuel p m a) (hlookup : Eval.lookup scope x a.before = (.value v, m₁)) :
    Occurs fuel p m v := by
  unfold Eval.lookup at hlookup
  split at hlookup
  · next w hw =>
    cases hlookup
    obtain ⟨key, owner, -, -, hvalue⟩ := a.before.scopes.lookup_eq_ok.mp hw
    obtain ⟨b, hb, hbv⟩ := Option.map_eq_some_iff.mp hvalue
    have hmem : (b.1, v) ∈ (a.before.scopes.get owner).bindings :=
      hbv ▸ List.mem_of_find?_eq_some hb
    exact .bound (.before ha) hmem
  · cases hlookup

/-- A step that an activity cannot note. -/
theorem step_documented (h : AdmitsPlain p m) {m₁ m₂ : Machine} {rule : Json}
    {scope : ScopeId} {call : Option (Json × List Value)} {f : Fault} (hv : Visits fuel p m m₁)
    (hpassed : ∀ y args, call = some (y, args) → ∀ v ∈ args, Occurs fuel p m v)
    (hstep : Eval.step rule scope call m₁ = (.fault f, m₂)) :
    f.IsDocumented (Occurs fuel p m) := by
  refine (Eval.step_fault (hv.invariant plain_keeps h)
    (fun y args hcall v hv => (hpassed y args hcall v hv).isPlain h) hstep).mono ?_
  rintro v (⟨y, hy⟩ | ⟨y, args, hcall, hv⟩)
  · exact .bound ‹_› hy
  · exact hpassed y args hcall v hv

end Session

open Session in
/-- The own faults of the activities of a run are documented. -/
theorem Breaks.documented {fuel : Nat} {p : Program} {m : Machine} {a : Activity} {f : Fault}
    {m' : Machine} (h : Breaks a f m') (hadmits : AdmitsPlain p m)
    (ha : Happens fuel p m a) : f.IsDocumented (Occurs fuel p m) := by
  have htask := (ha.fits plain_keeps hadmits).task
  cases h with
  | identifier hlookup =>
    rw [Eval.lookup_fault (Code.wellFormed.identifier htask.2) hlookup]
    exact .undeclared _
  | target hop hleft => exact ((Code.wellFormed.assignment htask.2 hop).2.1 hleft).elim
  | assignment hop hright hassign =>
    rw [Eval.assign_fault ((Code.wellFormed.assignment htask.2 hop).1 _ rfl) hassign]
    exact .unassignable _
  | operation hop hleft hright happly =>
    obtain ⟨hassign, hother⟩ := (Code.wellFormed.operation htask.2 hop).2.1
    have hl := Occurs.evaluated (ha.part (.left hop)) hleft
    have hr := Occurs.evaluated (ha.part (.right hop hleft)) hright
    exact Operator.apply_documented hassign hother hl hr (hl.isPlain hadmits) (hr.isPlain hadmits)
      happly
  | callee hlookup =>
    rw [Eval.lookup_fault (Code.wellFormed.call htask.2).1 hlookup]
    exact .undeclared _
  | calling hlookup hargs hstep =>
    have harguments := ha.part (.arguments hlookup)
    exact step_documented hadmits (.left harguments hargs)
      (by rintro _ _ ⟨⟩ v hv; exact .returned harguments hargs hv) hstep
  | builtin hlookup hargs hstep hcall =>
    have harguments := ha.part (.arguments hlookup)
    have hvs : ∀ v ∈ _, Occurs fuel p m v := fun v hv => .returned harguments hargs hv
    have hm := ((Visits.left harguments hargs).invariant plain_keeps hadmits).step hstep
    exact (Eval.callBuiltin_fault hm (fun v hv => (hvs v hv).isPlain hadmits) hcall).mono hvs
  | notAFunction hlookup hclosure hbuiltin hargs =>
    have hcallee := Occurs.lookedUp ha hlookup
    cases hcallee.isPlain hadmits with
    | data hj => exact .notAFunction _ hcallee
    | closure c => exact absurd rfl (hclosure c)
    | builtin name home => exact absurd rfl (hbuiltin name home)
  | noExpression hnode => exact (Code.wellFormed.noExpression htask.2 hnode).elim
  | parameters hscope hparams =>
    obtain ⟨x, rfl⟩ := Eval.bindParams_fault ((plain _).of_closure htask.1).2.1 hparams
    exact .duplicate x
  | statement hstep => exact step_documented hadmits (.before ha) (by simp) hstep
  | declaration hstep hvalue hdeclare =>
    rw [Eval.declare_fault (Code.wellFormed.declaration htask.2).1 hdeclare]
    exact .duplicate _
  | function hstep hdeclare =>
    rw [Eval.declare_fault (Code.wellFormed.function htask.2).1 hdeclare]
    exact .duplicate _
  | importFile hstep => exact .unlinkedImport _
  | noStatement hstep hnode => exact (Code.wellFormed.noStatement htask.2 hnode).elim

open Session in
theorem Session.Stops.documented {fuel : Nat} {p : Program} {m : Machine} {f : Fault}
    {m' : Machine} (h : Stops fuel p m f m') (hadmits : AdmitsPlain p m) :
    f.IsDocumented (Occurs fuel p m) := by
  cases h with
  | inside ha hbreak => exact hbreak.documented hadmits ha
  | mainMissing hhoist hmain => exact .mainMissing
  | calling hhoist hstep =>
    exact step_documented hadmits (.hoisted hhoist) (by rintro _ _ ⟨⟩; simp) hstep

/-- On a fresh machine with an unlimited output, and in either verbosity, every value that a program
from source ever binds, passes or returns is plain, and the program can fail only in documented
ways. -/
theorem Program.FromSource.run_documented {p : Program} (h : p.FromSource) (verbose : Bool) :
    (∀ v, Session.Occurs Evaluator.fuel p (.fresh verbose none) v → v.IsPlain) ∧
    match ((Machine.fresh verbose none).run p).1 with
    | .value v => v.IsPlain
    | .fault f _ => f.IsDocumented (Session.Occurs Evaluator.fuel p (.fresh verbose none))
    | .outOfFuel => True := by
  have hadmits : Session.AdmitsPlain p (.fresh verbose none) :=
    ⟨.fresh _ verbose, trivial, h.wellFormed⟩
  refine ⟨fun v hv => hv.isPlain hadmits, ?_⟩
  unfold Machine.run
  rw [Session.runWith_eq]
  rcases hrun : Session.runBody Evaluator.fuel p (Session.start (.fresh verbose none)) with ⟨o, m'⟩
  cases o with
  | value v =>
    have hkept := plain_keeps.run ((plain _).runBody Evaluator.fuel trivial h.wellFormed)
      (hadmits.start plain_keeps) hrun
    exact (hkept.value v rfl).plain
  | fault f => exact (Session.fault_origin hrun).documented hadmits
  | outOfFuel => trivial

/-- `main` divides by zero. -/
def dividing : Program where
  statements :=
    [.function (.str "main") []
      [.ret (some (.binary (.literal .number (.int 1)) (.str "/") (.literal .number (.int 0))))]]

/-- A division by zero is a documented fault, so a zero has occurred. -/
theorem dividing_documented :
    (∃ last, ((Machine.fresh true none).run dividing).1 = .fault .divisionByZero last) ∧
      ∃ v n, Session.Occurs Evaluator.fuel dividing (.fresh true none) v ∧ v.IsPlain ∧
        v.number? = some n ∧ n.exact = .finite 0 := by
  have hsource : TokenStream.ofSource "func main(){return 1/0;}" =
      .ok ⟨[⟨.funcWord, "func", ⟨1, 1⟩⟩, ⟨.identifier, "main", ⟨1, 6⟩⟩, ⟨.leftParen, "(", ⟨1, 10⟩⟩,
        ⟨.rightParen, ")", ⟨1, 11⟩⟩, ⟨.leftBrace, "\x7b", ⟨1, 12⟩⟩, ⟨.returnWord, "return", ⟨1, 13⟩⟩,
        ⟨.number, "1", ⟨1, 20⟩⟩, ⟨.binaryOperator, "/", ⟨1, 21⟩⟩, ⟨.number, "0", ⟨1, 22⟩⟩,
        ⟨.semicolon, ";", ⟨1, 23⟩⟩, ⟨.rightBrace, "\x7d", ⟨1, 24⟩⟩],
        ⟨.endOfInput, "EOF", ⟨1, 25⟩⟩⟩ := by decide
  obtain ⟨hplain, hresult⟩ :=
    Program.FromSource.run_documented (p := dividing) (.parsed hsource rfl) true
  have hfault : (match ((Machine.fresh true none).run dividing).1 with
      | .fault f _ => some f
      | _ => none) = some .divisionByZero := by decide +kernel
  generalize ((Machine.fresh true none).run dividing).1 = r at hresult hfault
  cases r with
  | value v => cases hfault
  | outOfFuel => cases hfault
  | fault f last =>
    cases hfault
    cases hresult with
    | divisionByZero hv hn hzero => exact ⟨⟨last, rfl⟩, _, _, hv, hplain _ hv, hn, hzero⟩

end ScriptLang
