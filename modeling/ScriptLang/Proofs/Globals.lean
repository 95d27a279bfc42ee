import ScriptLang.Proofs.Evaluator.Framing
import ScriptLang.Proofs.Evaluator.Reordering
import ScriptLang.Proofs.Linked.Source

/-!
# The names of the global scope

A run declares its top-level functions one after another, until there is one whose name is taken;
what it has declared by then stays. Nothing else that a run does declares a name in the global
scope: `framing` says so of `main` and of all that it calls, be it code of this run or of an earlier
one. So the global names of a session are known from the functions of its programs alone.

Results:
* `declarable_isLongestNew`: what of some names can be declared;
* `hoist_globals`, `run_globals`: the names that a run adds, and the name that it stops at;
* `session_globals`: the global names of a session.
-/
namespace ScriptLang

/-! ## Names that can be declared -/

/-- Each of the names is new when it is declared: it is none of the known ones and none of those
before it. -/
def EachNew (known names : List Json) : Prop :=
  ∀ before x after, names = before ++ x :: after → x ∉ known ++ before

/-- The longest beginning of some names in which each name is new when it is declared. -/
structure IsLongestNew (known names new : List Json) : Prop where
  beginning : new <+: names
  eachNew : EachNew known new
  longest : ∀ other, other <+: names → EachNew known other → other <+: new

/-- The names up to the first one that is taken. -/
def declarable (known : List Json) : List Json → List Json
  | [] => []
  | x :: names => if x ∈ known then [] else x :: declarable (known ++ [x]) names

theorem eachNew_cons {known names : List Json} {x : Json} :
    EachNew known (x :: names) ↔ x ∉ known ∧ EachNew (known ++ [x]) names := by
  constructor
  · intro h
    refine ⟨by simpa using h [] x names rfl, ?_⟩
    rintro before y after rfl
    simpa using h (x :: before) y after rfl
  · rintro ⟨hx, hnames⟩ before y after heq
    cases before with
    | nil =>
      cases heq
      simpa using hx
    | cons z before =>
      cases heq
      simpa using hnames before y after rfl

theorem declarable_isLongestNew (known names : List Json) :
    IsLongestNew known names (declarable known names) := by
  induction names generalizing known with
  | nil => exact ⟨List.prefix_rfl, by simp [EachNew, declarable], fun _ h _ => h⟩
  | cons x names ih =>
    unfold declarable
    split
    · next hx =>
      refine ⟨List.nil_prefix, by simp [EachNew], fun other hother hnew => ?_⟩
      -- a longer beginning has the name that is taken in front
      cases other with
      | nil => exact List.prefix_rfl
      | cons y other =>
        rw [(List.cons_prefix_cons.mp hother).1] at hnew
        exact absurd hx (eachNew_cons.mp hnew).1
    · next hx =>
      have hrest := ih (known ++ [x])
      refine ⟨List.cons_prefix_cons.mpr ⟨rfl, hrest.beginning⟩,
        eachNew_cons.mpr ⟨hx, hrest.eachNew⟩, fun other hother hnew => ?_⟩
      cases other with
      | nil => exact List.nil_prefix
      | cons y other =>
        obtain ⟨rfl, htail⟩ := List.cons_prefix_cons.mp hother
        exact List.cons_prefix_cons.mpr ⟨rfl, hrest.longest other htail (eachNew_cons.mp hnew).2⟩

/-! ## The functions of a run -/

/-- The names of the global scope, in the order of their declaration. -/
def Machine.globals (m : Machine) : List Json := (m.scopes.get globalScope).names

namespace Session

variable {fuel : Nat} {m : Machine} {frame : Frame} {below : List Frame}

/-- A function whose name is taken is not declared. -/
theorem execute_function_taken (hm : m.verbose = false) (hstack : m.stack = frame :: below)
    {s : String} {params : List Json} {body : List Node} (hs : .str s ∈ m.globals) :
    Evaluator.execute (fuel + 1) (.function (.str s) params body) Machine.globalScope m =
      (.fault (.duplicate (.str s)),
        { m with log := m.log.record frame.id (.str "FunctionDeclaration") none none }) := by
  have htaken : m.scopes.freeKey Machine.globalScope (.str s) = .error (.duplicate (.str s)) := by
    unfold Scopes.freeKey
    simp [Scopes.keyOf, Json.key?, (Scope.owns_text _ s).mpr hs, bind, Except.bind, throw, throwThe,
      MonadExceptOf.throw]
  unfold Evaluator.execute Evaluator.declareFunction
  rw [Node.kindName, Eval.bind_run, Eval.step_quiet hm hstack]
  dsimp only
  rw [Eval.bind_run, Eval.declare_run]
  simp only [htaken]

/-- What the functions of a program add to the global names, and what the first one whose name is
taken does to the run. -/
structure Adds (m : Machine) (names : List Json) (o : Outcome Unit) (m' : Machine) : Prop where
  globals : m'.globals = m.globals ++ declarable m.globals names
  value : declarable m.globals names = names → o = .value ()
  taken : ∀ x rest, names = declarable m.globals names ++ x :: rest → o = .fault (.duplicate x)

theorem Adds.declared {s : String} {v : Value} {names : List Json} {o : Outcome Unit} {m' : Machine}
    (hs : .str s ∉ m.globals) (hsize : 0 < m.scopes.size)
    (h : Adds (declareAll frame.id [(.str s, v)] m) names o m') :
    Adds m (.str s :: names) o m' := by
  have hglobals : (declareAll frame.id [(.str s, v)] m).globals = m.globals ++ [.str s] := by
    show ((m.scopes.modify Machine.globalScope (·.add (.str s) v)).get _).names = _
    rw [Scopes.get_modify, if_pos ⟨rfl, hsize⟩, Scope.names_add]
    rfl
  obtain ⟨hnames, hvalue, htaken⟩ := h
  rw [hglobals] at hnames hvalue htaken
  have hcons : declarable m.globals (.str s :: names) =
      .str s :: declarable (m.globals ++ [.str s]) names := by
    rw [declarable, if_neg hs]
  exact {
    globals := by rw [hnames, hcons, List.append_assoc]; rfl
    value := fun h => hvalue (List.cons.inj (hcons ▸ h)).2
    taken := fun x rest h => htaken x rest (List.cons.inj (hcons ▸ h)).2 }

theorem hoist_globals (fuel : Nat) (nodes : List Node) (hm : m.verbose = false)
    (hstack : m.stack = frame :: below) (hsize : 0 < m.scopes.size)
    (hnames : ∀ x ∈ (⟨nodes⟩ : Program).functionNames, ∃ s : String, x = .str s) :
    Adds m (⟨nodes⟩ : Program).functionNames (hoist (fuel + 1) nodes m).1
      (hoist (fuel + 1) nodes m).2 := by
  induction nodes generalizing m with
  | nil => exact ⟨(List.append_nil _).symm, fun _ => rfl, fun x rest h => by cases h⟩
  | cons node nodes ih =>
    unfold hoist
    cases node with
    | function x params body =>
      have hcons : (⟨.function x params body :: nodes⟩ : Program).functionNames =
          x :: (⟨nodes⟩ : Program).functionNames := rfl
      rw [hcons] at hnames ⊢
      obtain ⟨⟨s, rfl⟩, hrest⟩ := List.forall_mem_cons.mp hnames
      dsimp only
      rw [Eval.bind_run]
      by_cases hs : .str s ∈ m.globals
      · rw [execute_function_taken hm hstack hs]
        have hnil (names : List Json) : declarable m.globals (.str s :: names) = [] := if_pos hs
        exact {
          globals := by rw [hnil, List.append_nil]; rfl
          value := fun h => by cases (hnil _).symm.trans h
          taken := fun x rest h => by rw [hnil] at h; cases h; rfl }
      · have hfree : (m.scopes.get Machine.globalScope).value? (.text s) = none := by
          rw [← Option.not_isSome_iff_eq_none, ← Scope.owns_eq, Scope.owns_text]
          exact hs
        rw [execute_function hm hstack hfree]
        refine .declared hs hsize (ih hm hstack ?_ hrest)
        show 0 < (m.scopes.modify _ _).size
        rwa [Scopes.size_modify]
    | _ => exact ih hm hstack hsize hnames

/-! ## Runs and sessions -/

/-- A machine between the runs of a session that is not verbose. -/
structure Idle (m : Machine) : Prop where
  quiet : m.verbose = false
  exist : 0 < m.scopes.size

/-- A run keeps the names that the functions of its program have left, whatever `main` does. -/
theorem runBody_globals (fuel : Nat) {p : Program} (hm : Idle m) (hstack : m.stack = frame :: below)
    (hp : p.FromSource) :
    Idle (runBody (fuel + 1) p m).2 ∧
      (runBody (fuel + 1) p m).2.globals = m.globals ++ declarable m.globals p.functionNames ∧
      ∀ x rest, p.functionNames = declarable m.globals p.functionNames ++ x :: rest →
        (runBody (fuel + 1) p m).1 = .fault (.duplicate x) := by
  have hadds := hoist_globals fuel p.statements hm.quiet hstack hm.exist
    hp.wellFormed.functionNames
  have hhoist : Maintained (Machine.Framed m 0) (fun _ _ => True) m
      (hoist (fuel + 1) p.statements m).1 (hoist (fuel + 1) p.statements m).2 :=
    framing_keeps.run ((framing m 0).hoist (fuel + 1) (Nat.zero_le _) fun _ _ => trivial)
      (.refl (Nat.zero_le _) (hstack ▸ List.cons_ne_nil _ _)) rfl
  unfold runBody
  rw [Eval.bind_run]
  rcases hrun : hoist (fuel + 1) p.statements m with ⟨o, m₁⟩
  rw [hrun] at hadds hhoist
  have hidle : Idle m₁ :=
    ⟨hhoist.invariant.verbose.trans hm.quiet, Nat.lt_of_lt_of_le hm.exist hhoist.grows⟩
  cases o with
  | value u =>
    have hmain := framing_keeps.run ((framing m₁ 1).runMain (fuel + 1) trivial)
      (.refl hidle.exist hhoist.invariant.standing) rfl
    refine ⟨⟨hmain.invariant.verbose.trans hidle.quiet, hmain.invariant.exist⟩,
      (hmain.invariant.names _ Nat.zero_lt_one).trans hadds.globals, fun x rest h => ?_⟩
    cases hadds.taken x rest h
  | fault f => exact ⟨hidle, hadds.globals, fun x rest h => by cases hadds.taken x rest h; rfl⟩
  | outOfFuel => exact ⟨hidle, hadds.globals, fun x rest h => by cases hadds.taken x rest h⟩

theorem run_globals {p : Program} (hm : Idle m) (hp : p.FromSource) :
    Idle (m.run p).2 ∧
      (m.run p).2.globals = m.globals ++ declarable m.globals p.functionNames ∧
      ∀ x rest, p.functionNames = declarable m.globals p.functionNames ++ x :: rest →
        ∃ step, (m.run p).1 = .fault (.duplicate x) step := by
  obtain ⟨fuel, hfuel⟩ : ∃ fuel, Evaluator.fuel = fuel + 1 :=
    Nat.exists_eq_succ_of_ne_zero (Nat.ne_of_gt (Nat.pow_pos (by decide)))
  obtain ⟨hidle, hglobals, htaken⟩ := runBody_globals fuel (m := start m)
    ⟨hm.quiet, hm.exist⟩ rfl hp
  unfold Machine.run
  rw [hfuel, runWith_eq]
  generalize runBody (fuel + 1) p (start m) = r at hidle hglobals htaken
  obtain ⟨o, m₁⟩ := r
  cases o with
  | value v =>
    exact ⟨⟨hidle.quiet, hidle.exist⟩, hglobals, fun x rest h => by cases htaken x rest h⟩
  | fault f =>
    refine ⟨hidle, hglobals, fun x rest h => ?_⟩
    cases htaken x rest h
    exact ⟨_, rfl⟩
  | outOfFuel => exact ⟨hidle, hglobals, fun x rest h => by cases htaken x rest h⟩

def globalsAfter (programs : List Program) : List Json :=
  programs.foldl (fun known p => known ++ declarable known p.functionNames) [.str Machine.printName]

theorem runs_globals {programs : List Program} (hsource : ∀ p ∈ programs, p.FromSource)
    (hm : Idle m) :
    Idle (runs m programs) ∧
      (runs m programs).globals =
        programs.foldl (fun known p => known ++ declarable known p.functionNames) m.globals := by
  induction programs generalizing m with
  | nil => exact ⟨hm, rfl⟩
  | cons p programs ih =>
    obtain ⟨hp, hsource⟩ := List.forall_mem_cons.mp hsource
    obtain ⟨hidle, hglobals, -⟩ := run_globals hm hp
    rw [List.foldl_cons, ← hglobals]
    exact ih hsource hidle

/-- Whatever the runs of a session do that is not verbose, its global names are `print` and then for
each run, in order, the longest beginning of the names of its top-level functions in which each name
was new when it was declared. A run that does not declare all of them fails at the next name. -/
theorem session_globals {programs : List Program} (hsource : ∀ p ∈ programs, p.FromSource)
    (sink : Sink) :
    (runs (.freshInto sink false) programs).globals = globalsAfter programs ∧
      ∀ earlier p later, programs = earlier ++ p :: later →
        let m := runs (.freshInto sink false) earlier
        ∃ new, IsLongestNew m.globals p.functionNames new ∧
          (m.run p).2.globals = m.globals ++ new ∧
          ∀ x rest, p.functionNames = new ++ x :: rest →
            ∃ step, (m.run p).1 = .fault (.duplicate x) step := by
  have hfresh : Idle (.freshInto sink false) := ⟨rfl, Nat.zero_lt_one⟩
  refine ⟨(runs_globals hsource hfresh).2, ?_⟩
  rintro earlier p later rfl
  have hearlier : ∀ q ∈ earlier, q.FromSource := fun q hq => hsource q (by simp [hq])
  have hidle := (runs_globals hearlier hfresh).1
  obtain ⟨-, hglobals, htaken⟩ := run_globals hidle (hsource p (by simp))
  exact ⟨_, declarable_isLongestNew _ _, hglobals, htaken⟩

/-- `main` rebinds the other function. -/
def rebinding : Program where
  statements :=
    [.function (.str "f") [] [],
      .function (.str "main") []
        [.expression (.binary (.identifier (.str "f")) (.str "=") (.literal .null .null))]]

/-- The second function has the name of one that `rebinding` declares. -/
def redeclaring : Program where
  statements := [.function (.str "g") [] [], .function (.str "f") [] [], .function (.str "h") [] []]

/-- Run after `rebinding`, `redeclaring` declares its first function and fails at the second one. -/
theorem redeclaring_globals :
    let m := runs (.freshInto .unlimited false) [rebinding]
    m.globals = [.str "print", .str "f", .str "main"] ∧
      (m.run redeclaring).2.globals = [.str "print", .str "f", .str "main", .str "g"] ∧
      ∃ step, (m.run redeclaring).1 = .fault (.duplicate (.str "f")) step := by
  intro m
  have hfirst : Linked.parseText "" "func f(){}func main(){f=null;}" = .ok rebinding := by
    decide +kernel
  have hsecond : Linked.parseText "" "func g(){}func f(){}func h(){}" = .ok redeclaring := by
    decide +kernel
  have hsource : ∀ p ∈ [rebinding, redeclaring], p.FromSource := by
    simpa using ⟨.of_parseText hfirst, .of_parseText hsecond⟩
  obtain ⟨hall, hruns⟩ := session_globals hsource .unlimited
  obtain ⟨new, hnew, hglobals, htaken⟩ := hruns [rebinding] redeclaring [] rfl
  have hm : m.globals = [.str "print", .str "f", .str "main"] := by decide +kernel
  have hrun : (m.run redeclaring).2.globals = [.str "print", .str "f", .str "main", .str "g"] :=
    hall
  have heq : new = [.str "g"] := by
    rw [← List.append_right_inj, ← hglobals, hrun, hm]
    rfl
  exact ⟨hm, hrun, htaken _ [.str "h"] (by rw [heq]; rfl)⟩

end Session

end ScriptLang
