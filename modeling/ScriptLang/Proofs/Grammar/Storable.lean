import ScriptLang.Proofs.Grammar.Image
import ScriptLang.Proofs.Node.Documents
import ScriptLang.Proofs.Number.Digits

/-!
# Programs that a text can hold

The names, operators and literal values of a well-formed program are strings, constants and numbers, so
a text can hold them if it can hold the numbers. A number token stands for an integer only if it has few
enough digits.

Results:
* `isSound_of_value`: a text can hold what a number token stands for;
* `Program.WellFormed.isSound_values`: and so all that a well-formed program is made of.
-/
namespace ScriptLang

open Json (IsSound isSound_str isSound_null)

theorem IntText.ofDigits_lt_pow {ds : List Char} {k : Nat} (h : ∀ d ∈ ds, isDigit d = true)
    (hlength : ds.length ≤ k) : ofDigits ds < Nat.pow 10 k :=
  Nat.lt_of_lt_of_le (ofDigits_lt h) (Nat.pow_le_pow_right (by decide) hlength)

theorem Grammar.isSound_of_value {text : String} {n : Json} (h : NumberValue text n) :
    n.IsSound := by
  cases h with
  | integer hds hlength =>
    refine ⟨?_, rfl⟩
    rw [Json.isWritable, decide_eq_true_eq, Int.natAbs_natCast]
    unfold IntText.tooLarge
    exact IntText.ofDigits_lt_pow hds.2 hlength
  | long | decimal => exact ⟨rfl, rfl⟩

theorem Node.mem_allValues {v : Json} {nodes : List Node} :
    v ∈ allValues nodes ↔ ∃ node ∈ nodes, v ∈ node.values := by
  induction nodes with
  | nil => simp [allValues]
  | cons node nodes ih => simp [allValues, ih]

variable {numbers : Json → Prop}

theorem LiteralValue.isSound (hnumbers : ∀ j, numbers j → j.IsSound) {kind : LiteralKind} {j : Json}
    (h : LiteralValue numbers kind j) : j.IsSound := by
  cases h with
  | string => exact isSound_str _
  | number h => exact hnumbers j h
  | boolean b => exact ⟨rfl, rfl⟩
  | null => exact isSound_null

theorem WellFormedExpression.isSound_values (hnumbers : ∀ j, numbers j → j.IsSound) {node : Node}
    (h : WellFormedExpression numbers node) : ∀ v ∈ node.values, v.IsSound := by
  induction h with
  | identifier => exact List.forall_mem_singleton.mpr (isSound_str _)
  | literal h => exact List.forall_mem_singleton.mpr (h.isSound hnumbers)
  | assignment _ _ ih =>
    refine List.forall_mem_cons.mpr ⟨isSound_str _, List.forall_mem_append.mpr ⟨?_, ih⟩⟩
    exact List.forall_mem_singleton.mpr (isSound_str _)
  | operation _ _ _ ihl ihr =>
    exact List.forall_mem_cons.mpr ⟨isSound_str _, List.forall_mem_append.mpr ⟨ihl, ihr⟩⟩
  | call _ _ ih =>
    refine List.forall_mem_cons.mpr ⟨isSound_str _, fun v hv => ?_⟩
    obtain ⟨arg, harg, hv⟩ := Node.mem_allValues.mp hv
    exact ih arg harg v hv

theorem WellFormedStatement.isSound_values (hnumbers : ∀ j, numbers j → j.IsSound) {node : Node}
    (h : WellFormedStatement numbers node) : ∀ v ∈ node.values, v.IsSound := by
  have all {nodes : List Node} (h : ∀ node ∈ nodes, ∀ v ∈ node.values, v.IsSound) :
      ∀ v ∈ Node.allValues nodes, v.IsSound := by
    intro v hv
    obtain ⟨node, hnode, hv⟩ := Node.mem_allValues.mp hv
    exact h node hnode v hv
  induction h with
  | expression hvalue => exact hvalue.isSound_values hnumbers
  | declare _ hvalue => exact List.forall_mem_cons.mpr ⟨isSound_str _, hvalue.isSound_values hnumbers⟩
  | block _ ih => exact all ih
  | branch htest _ ih =>
    exact List.forall_mem_append.mpr ⟨htest.isSound_values hnumbers, all ih⟩
  | branchElse htest _ _ ihc iha =>
    exact List.forall_mem_append.mpr ⟨htest.isSound_values hnumbers,
      List.forall_mem_append.mpr ⟨all ihc, all iha⟩⟩
  | loop htest _ ih => exact List.forall_mem_append.mpr ⟨htest.isSound_values hnumbers, all ih⟩
  | function _ _ _ ih =>
    refine List.forall_mem_cons.mpr ⟨isSound_str _, List.forall_mem_append.mpr ⟨?_, all ih⟩⟩
    intro param hparam
    obtain ⟨x, -, rfl⟩ := List.mem_map.mp hparam
    exact isSound_str x
  | ret => exact fun v hv => absurd hv List.not_mem_nil
  | retValue hvalue => exact hvalue.isSound_values hnumbers
  | importFile => exact fun v hv => absurd hv List.not_mem_nil

theorem Program.WellFormed.isSound_values {p : Program} (h : p.WellFormed IsSound) :
    ∀ v ∈ Node.allValues p.statements, v.IsSound := by
  intro v hv
  obtain ⟨node, hnode, hv⟩ := Node.mem_allValues.mp hv
  exact (h node hnode).isSound_values (fun _ hj => hj) v hv

end ScriptLang
