import ScriptLang.Proofs.Fault
import ScriptLang.Proofs.Json.Documents
import ScriptLang.Proofs.Node.Documents

/-!
# Where a document is no syntax tree

Reading a document as a tree goes through the items of some fields: the statements of a program or a
block, the arguments of a call, the parameters of a function. Such a field may hold anything. What can
be gone through is read item by item; a scalar that is no string cannot, and that is a fault of its own
kind.

What is read of an object is a list of fields, in an order that depends on its kind (`plan`). Reading
fails in this way exactly if it gets to a scalar in place of a list, with everything in order that is
read before (`Stumbles`).

Result:
* `notIterable_iff_stumbles`: reading fails for something that is not iterable iff it stumbles over
  that.
-/
namespace ScriptLang.Node

/-! ## What is read of an object -/

/-- What a node has to be. -/
inductive Shape where
  | node
  | name
  | block

def Shape.Admits : Shape → Node → Prop
  | .node, _ => True
  | .name, n => ∃ name, n = .identifier name
  | .block, n => ∃ body, n = .block body

/-- A node has been read, and it is what it has to be. -/
def Shape.Reads (shape : Shape) (x : Except FormFault Node) : Prop := ∃ n, x = .ok n ∧ shape.Admits n

/-- What is read of a field: that it is there, one node, or the nodes of a list. -/
inductive Part where
  | present
  | one (shape : Shape)
  | many (shape : Shape)

/-- A node that may be absent, or null. -/
def optional (fields : List (String × Json)) (key : String) (shape : Shape) : List (String × Part) :=
  if (fields.lookup key).getD .null = .null then [] else [(key, .one shape)]

/-- What is read of an object of some kind, in order. -/
def plan (fields : List (String × Json)) : String → List (String × Part)
  | "Program" | "BlockStatement" => [("body", .many .node)]
  | "Identifier" => [("name", .present)]
  | "BinaryExpression" => [("left", .one .node), ("operator", .present), ("right", .one .node)]
  | "CallExpression" => [("callee", .one .name), ("args", .many .node)]
  | "ExpressionStatement" => [("expression", .one .node)]
  | "VariableDeclaration" => [("identifier", .one .name), ("value", .one .node)]
  | "IfStatement" =>
    ("test", .one .node) :: ("consequent", .one .block) :: optional fields "alternate" .block
  | "WhileStatement" => [("test", .one .node), ("body", .one .block)]
  | "FunctionDeclaration" => [("name", .one .name), ("params", .many .name), ("body", .one .block)]
  | "ReturnStatement" => optional fields "argument" .node
  | "ImportStatement" => [("path", .one .node)]
  | _ => []

/-- The field is there, and what is read of it is in order. -/
def Passes (fields : List (String × Json)) (key : String) : Part → Prop
  | .present => ∃ v, fields.lookup key = some v
  | .one shape => ∃ v, fields.lookup key = some v ∧ shape.Reads (ofDocument v)
  | .many shape => ∃ v, fields.lookup key = some v ∧
      ∃ nodes, ofItems v = .ok nodes ∧ ∀ node ∈ nodes, shape.Reads node

/-- Reading an object gets to a field with a value in it: all that is read before is in order. -/
def GetsTo (fields : List (String × Json)) (key : String) (part : Part) (v : Json) : Prop :=
  fields.lookup key = some v ∧ ∃ kind before after, fields.lookup "type" = some (.str kind) ∧
    plan fields kind = before ++ (key, part) :: after ∧ ∀ slot ∈ before, Passes fields slot.1 slot.2

/-- Reading the first document gets to the second one, a scalar that stands in place of a list. -/
inductive Stumbles : Json → Json → Prop
  | list {fields : List (String × Json)} {key : String} {shape : Shape} {v : Json} :
      GetsTo fields key (.many shape) v → v.IsScalar → (∀ s, v ≠ .str s) → Stumbles (.obj fields) v
  | node {fields : List (String × Json)} {key : String} {shape : Shape} {part v : Json} :
      GetsTo fields key (.one shape) part → Stumbles part v → Stumbles (.obj fields) v
  | item {fields : List (String × Json)} {key : String} {shape : Shape} {before after : List Json}
      {item v : Json} :
      GetsTo fields key (.many shape) (.arr (before ++ item :: after)) →
      (∀ other ∈ before, shape.Reads (ofDocument other)) → Stumbles item v → Stumbles (.obj fields) v

/-! ## Failing -/

/-- The reading fails for something that is not iterable. -/
def Fails {α : Type} (x : Except FormFault α) (found : String) : Prop := x = .error (.notIterable found)

section Failing

variable {α β : Type} {x : Except FormFault α} {found : String}

theorem not_fails_ok (a : α) : ¬ Fails (.ok a : Except FormFault α) found := nofun

theorem fails_bind {k : α → Except FormFault β} :
    Fails (x >>= k) found ↔ Fails x found ∨ ∃ a, x = .ok a ∧ Fails (k a) found := bind_eq_error

/-- Some results fail together exactly if one of them does and those before it do not. -/
theorem fails_collect (xs : List (Except FormFault α)) :
    Fails (Fields.collect xs) found ↔ ∃ before x after, xs = before ++ x :: after ∧
      (∀ y ∈ before, ∃ a, y = .ok a) ∧ Fails x found := by
  induction xs with
  | nil => simp [Fields.collect, Fails]
  | cons y ys ih =>
    have hcollect : Fails (Fields.collect (y :: ys)) found ↔
        Fails y found ∨ ∃ a, y = .ok a ∧ Fails (Fields.collect ys) found := by
      rw [Fields.collect, fails_bind]
      simp only [fails_bind, pure, Except.pure, not_fails_ok, and_false, exists_false, or_false]
    rw [hcollect, ih]
    constructor
    · rintro (h | ⟨a, rfl, before, x, after, rfl, hbefore, h⟩)
      · exact ⟨[], y, ys, rfl, nofun, h⟩
      · exact ⟨_ :: before, x, after, rfl, List.forall_mem_cons.mpr ⟨⟨a, rfl⟩, hbefore⟩, h⟩
    · rintro ⟨before, x, after, hsplit, hbefore, h⟩
      cases before with
      | nil =>
        cases hsplit
        exact .inl h
      | cons z before =>
        cases hsplit
        obtain ⟨⟨a, ha⟩, hbefore⟩ := List.forall_mem_cons.mp hbefore
        exact .inr ⟨a, ha, before, x, after, rfl, hbefore, h⟩

theorem collect_eq_ok (xs : List (Except FormFault α)) :
    (∃ as, Fields.collect xs = .ok as) ↔ ∀ x ∈ xs, ∃ a, x = .ok a := by
  induction xs with
  | nil => simp [Fields.collect]
  | cons x xs ih =>
    rw [List.forall_mem_cons, ← ih, Fields.collect]
    cases x with
    | error f => simp [bind, Except.bind]
    | ok a => cases Fields.collect xs <;> simp [bind, Except.bind, pure, Except.pure]

/-- A check of nodes that have been read fails for nothing but what they are. -/
structure Checks (check : Except FormFault Node → Except FormFault α) (shape : Shape) : Prop where
  fails : ∀ x found, Fails (check x) found ↔ Fails x found
  ok : ∀ x, (∃ a, check x = .ok a) ↔ shape.Reads x

namespace Checks

variable {check : Except FormFault Node → Except FormFault α} {shape : Shape}

theorem fails_collect (h : Checks check shape) (nodes : List (Except FormFault Node)) :
    Fails (Fields.collect (nodes.map check)) found ↔ ∃ before node after,
      nodes = before ++ node :: after ∧ (∀ other ∈ before, shape.Reads other) ∧ Fails node found := by
  rw [Node.fails_collect]
  constructor
  · rintro ⟨firsts, x, lasts, hsplit, hfirsts, hx⟩
    obtain ⟨before, rest, rfl, rfl, hrest⟩ := List.map_eq_append_iff.mp hsplit
    obtain ⟨node, after, rfl, rfl, rfl⟩ := List.map_eq_cons_iff.mp hrest
    exact ⟨before, node, after, rfl,
      fun other hother => (h.ok other).mp (hfirsts _ (List.mem_map_of_mem hother)),
      (h.fails _ _).mp hx⟩
  · rintro ⟨before, node, after, rfl, hbefore, hnode⟩
    refine ⟨before.map check, check node, after.map check, List.map_append, ?_,
      (h.fails _ _).mpr hnode⟩
    exact List.forall_mem_map.mpr fun other hother => (h.ok other).mpr (hbefore other hother)

theorem collect_eq_ok (h : Checks check shape) (nodes : List (Except FormFault Node)) :
    (∃ as, Fields.collect (nodes.map check) = .ok as) ↔ ∀ node ∈ nodes, shape.Reads node := by
  rw [Node.collect_eq_ok, List.forall_mem_map]
  exact forall₂_congr fun node _ => h.ok node

end Checks

theorem checks_node : Checks (fun x => x) .node where
  fails _ _ := Iff.rfl
  ok x := by simp [Shape.Reads, Shape.Admits]

/-- A check that looks at the node alone. -/
theorem checks_bind {look : Node → Except FormFault α} {shape : Shape}
    (hfails : ∀ n found, ¬ Fails (look n) found)
    (hok : ∀ n, (∃ a, look n = .ok a) ↔ shape.Admits n) : Checks (· >>= look) shape where
  fails x found := by simp [fails_bind, hfails]
  ok x := by
    cases x with
    | error f => simp [bind, Except.bind, Shape.Reads]
    | ok n => simpa [bind, Except.bind, Shape.Reads] using hok n

theorem checks_name : Checks Fields.nameOf .name := by
  refine checks_bind (fun n found => ?_) fun n => ?_ <;>
    cases n <;> simp [Fails, Shape.Admits, pure, Except.pure, throw, throwThe, MonadExceptOf.throw]

theorem checks_block : Checks Fields.blockOf .block := by
  refine checks_bind (fun n found => ?_) fun n => ?_ <;>
    cases n <;> simp [Fails, Shape.Admits, pure, Except.pure, throw, throwThe, MonadExceptOf.throw]

def asCallee : Node → Except FormFault Json
  | .identifier callee => .ok callee
  | _ => .error .badCallee

theorem checks_callee : Checks (· >>= asCallee) .name := by
  refine checks_bind (fun n found => ?_) fun n => ?_ <;>
    cases n <;> simp [Fails, asCallee, Shape.Admits]

end Failing

/-! ## Fields -/

theorem lookup_ofFields (fields : List (String × Json)) (key : String) :
    (ofFields fields).lookup key = (fields.lookup key).map fieldOf := by
  induction fields with
  | nil => rfl
  | cons field fields ih =>
    obtain ⟨name, value⟩ := field
    rw [ofFields, List.lookup_cons, List.lookup_cons]
    cases key == name with
    | true => rfl
    | false => exact ih

theorem documentOf_ofFields (fields : List (String × Json)) (key : String) :
    (ofFields fields).documentOf key = (fields.lookup key).getD .null := by
  rw [Fields.documentOf, lookup_ofFields]
  cases fields.lookup key <;> rfl

/-- What is read of a value in a field fails for something that is not iterable: it is the value, or it
is in the first node of the list that is not in order. -/
def PartFails (v : Json) (found : String) : Part → Prop
  | .present => False
  | .one _ => Fails (ofDocument v) found
  | .many shape => Fails (ofItems v) found ∨ ∃ before node after,
      ofItems v = .ok (before ++ node :: after) ∧ (∀ other ∈ before, shape.Reads other) ∧
        Fails node found

section Slots

variable {α β : Type} {fields : List (String × Json)} {kind key : String} {part : Part} {shape : Shape}

/-- The reading is that of a part of a field. -/
structure ReadsPart (fields : List (String × Json)) (key : String) (part : Part)
    (x : Except FormFault α) : Prop where
  fails : ∀ found, Fails x found ↔ ∃ v, fields.lookup key = some v ∧ PartFails v found part
  passes : (∃ a, x = .ok a) ↔ Passes fields key part

theorem require_eq (fields : List (String × Json)) (kind key : String) :
    (ofFields fields).require kind key =
      match fields.lookup key with
      | some v => .ok (fieldOf v)
      | none => .error (.missing kind key) := by
  rw [Fields.require, lookup_ofFields]
  cases fields.lookup key <;> rfl

theorem readsPart_present : ReadsPart fields key .present ((ofFields fields).require kind key) := by
  rw [require_eq]
  constructor <;> cases hv : fields.lookup key <;> simp [hv, Fails, PartFails, Passes]

theorem readsPart_one {check : Except FormFault Node → Except FormFault α} (h : Checks check shape) :
    ReadsPart fields key (.one shape) (check ((ofFields fields).nodeOf kind key)) := by
  rw [Fields.nodeOf, require_eq]
  constructor
  · intro found
    rw [h.fails]
    cases fields.lookup key <;> simp [PartFails, fieldOf, bind, Except.bind, Fails]
  · rw [h.ok]
    cases hv : fields.lookup key <;> simp [hv, Passes, Shape.Reads, fieldOf, bind, Except.bind]

theorem readsPart_many {check : Except FormFault Node → Except FormFault α} (h : Checks check shape) :
    ReadsPart fields key (.many shape)
      ((ofFields fields).require kind key >>= Field.nodes >>= fun nodes =>
        Fields.collect (nodes.map check)) := by
  rw [require_eq]
  cases hv : fields.lookup key with
  | none => constructor <;> simp [hv, Passes, Fails, bind, Except.bind]
  | some v =>
    show ReadsPart fields key (.many shape) (ofItems v >>= _)
    constructor
    · intro found
      simp only [hv, Option.some.injEq, exists_eq_left', PartFails, fails_bind, h.fails_collect]
      refine or_congr_right ⟨?_, ?_⟩
      · rintro ⟨nodes, hnodes, before, node, after, rfl, hnode⟩
        exact ⟨before, node, after, hnodes, hnode⟩
      · rintro ⟨before, node, after, hnodes, hnode⟩
        exact ⟨_, hnodes, before, node, after, rfl, hnode⟩
    · simp only [Passes, hv, Option.some.injEq, exists_eq_left', ← h.collect_eq_ok]
      cases ofItems v <;> simp [bind, Except.bind]

/-! ## Objects -/

/-- The reading is that of some parts of fields, one after another. -/
def Follows (fields : List (String × Json)) (slots : List (String × Part)) (x : Except FormFault α) :
    Prop :=
  ∀ found, Fails x found ↔ ∃ before key part after v, slots = before ++ (key, part) :: after ∧
    (∀ slot ∈ before, Passes fields slot.1 slot.2) ∧ fields.lookup key = some v ∧
      PartFails v found part

theorem follows_nothing {x : Except FormFault α} (h : ∀ found, ¬ Fails x found) :
    Follows fields [] x := by
  intro found
  simp [h found]

theorem ReadsPart.bind {x : Except FormFault α} {k : α → Except FormFault β}
    {slots : List (String × Part)} (hx : ReadsPart fields key part x)
    (hk : ∀ a, Follows fields slots (k a)) : Follows fields ((key, part) :: slots) (x >>= k) := by
  intro found
  rw [fails_bind, hx.fails]
  constructor
  · rintro (⟨v, hv, hpart⟩ | ⟨a, ha, hfails⟩)
    · exact ⟨[], key, part, slots, v, rfl, nofun, hv, hpart⟩
    · obtain ⟨before, key', part', after, v, rfl, hbefore, hv, hpart⟩ := (hk a found).mp hfails
      exact ⟨_ :: before, key', part', after, v, rfl,
        List.forall_mem_cons.mpr ⟨hx.passes.mp ⟨a, ha⟩, hbefore⟩, hv, hpart⟩
  · rintro ⟨before, key', part', after, v, hsplit, hbefore, hv, hpart⟩
    cases before with
    | nil =>
      cases hsplit
      exact .inl ⟨v, hv, hpart⟩
    | cons slot before =>
      cases hsplit
      obtain ⟨hpass, hbefore⟩ := List.forall_mem_cons.mp hbefore
      obtain ⟨a, ha⟩ := hx.passes.mpr hpass
      exact .inr ⟨a, ha, (hk a found).mpr ⟨before, key', part', after, v, rfl, hbefore, hv, hpart⟩⟩

theorem ReadsPart.last {x : Except FormFault α} {k : α → Except FormFault β}
    (hx : ReadsPart fields key part x) (hk : ∀ a found, ¬ Fails (k a) found) :
    Follows fields [(key, part)] (x >>= k) := hx.bind fun a => follows_nothing (hk a)

theorem readsPart_nodesOf :
    ReadsPart fields key (.many .node) ((ofFields fields).nodesOf kind key) := by
  have h : ReadsPart fields key (.many .node) ((ofFields fields).require kind key >>= Field.nodes >>=
      fun nodes => Fields.collect (nodes.map fun x => x)) := readsPart_many checks_node
  rw [Fields.nodesOf]
  simpa only [bind_assoc, List.map_id'] using h

/-- An absent node is not read; one that is there is the last. -/
theorem follows_optional {x : Except FormFault α} {k : β → Except FormFault α}
    {check : Except FormFault Node → Except FormFault β} (h : Checks check shape)
    (hx : ∀ found, ¬ Fails x found) (hk : ∀ a found, ¬ Fails (k a) found) :
    Follows fields (optional fields key shape)
      (if (ofFields fields).documentOf key = .null then x
        else check ((ofFields fields).nodeOf kind key) >>= k) := by
  rw [documentOf_ofFields, optional]
  split
  · exact follows_nothing hx
  · exact (readsPart_one h).last hk

theorem assembleKind_call (fields : Fields) :
    assembleKind fields "CallExpression" =
      fields.nodeOf "CallExpression" "callee" >>= asCallee >>= fun callee =>
        fields.nodesOf "CallExpression" "args" >>= fun args => .ok (.call callee args) := by
  show fields.nodeOf "CallExpression" "callee" >>= _ = _
  cases fields.nodeOf "CallExpression" "callee" with
  | error f => rfl
  | ok n => cases n <;> rfl

/-- One case for each kind of node. -/
theorem follows_assembleKind (fields : List (String × Json)) (kind : String) :
    Follows fields (plan fields kind) (assembleKind (ofFields fields) kind) := by
  have one (kind key : String) :
      ReadsPart fields key (.one .node) ((ofFields fields).nodeOf kind key) :=
    readsPart_one checks_node
  have name (kind key : String) :
      ReadsPart fields key (.one .name) (Fields.nameOf ((ofFields fields).nodeOf kind key)) :=
    readsPart_one checks_name
  have block (kind key : String) :
      ReadsPart fields key (.one .block) (Fields.blockOf ((ofFields fields).nodeOf kind key)) :=
    readsPart_one checks_block
  unfold assembleKind
  split
  · exact readsPart_nodesOf.last fun _ _ => nofun
  · exact readsPart_present.last fun _ _ => nofun
  · exact (one _ _).bind fun _ => readsPart_present.bind fun _ => (one _ _).last fun _ _ => nofun
  · show Follows fields _ (assembleKind (ofFields fields) "CallExpression")
    rw [assembleKind_call]
    exact (readsPart_one checks_callee).bind fun _ => readsPart_nodesOf.last fun _ _ => nofun
  · exact (one _ _).last fun _ _ => nofun
  · exact (name _ _).bind fun _ => (one _ _).last fun _ _ => nofun
  · exact readsPart_nodesOf.last fun _ _ => nofun
  · exact (one _ _).bind fun _ => (block _ _).bind fun _ =>
      follows_optional checks_block (fun _ => nofun) fun _ _ => nofun
  · exact (one _ _).bind fun _ => (block _ _).last fun _ _ => nofun
  · refine (name _ _).bind fun _ => ?_
    rw [← bind_assoc, ← bind_assoc]
    exact (readsPart_many checks_name).bind fun _ => (block _ _).last fun _ _ => nofun
  · exact follows_optional checks_node (fun _ => nofun) fun _ _ => nofun
  · refine (one _ _).last fun path found => ?_
    split
    · exact nofun
    · exact nofun
  · have hplan : plan fields kind = [] := by
      unfold plan
      split <;> first | rfl | contradiction
    rw [hplan]
    split
    · exact follows_nothing fun _ => nofun
    · exact follows_nothing fun _ => nofun

/-- Reading an object fails for something that is not iterable iff it gets to a field that does. -/
theorem fails_object (fields : List (String × Json)) (found : String) :
    Fails (ofDocument (.obj fields)) found ↔
      ∃ key part v, GetsTo fields key part v ∧ PartFails v found part := by
  rw [ofDocument, assemble, documentOf_ofFields]
  constructor
  · intro h
    split at h
    · next kind htype =>
      obtain ⟨before, key, part, after, v, hplan, hbefore, hv, hpart⟩ :=
        (follows_assembleKind fields kind found).mp h
      refine ⟨key, part, v, ⟨hv, kind, before, after, ?_, hplan, hbefore⟩, hpart⟩
      cases hlookup : fields.lookup "type" with
      | none =>
        rw [hlookup] at htype
        cases htype
      | some type =>
        rw [hlookup] at htype
        exact congrArg some htype
    · cases h
  · rintro ⟨key, part, v, ⟨hv, kind, before, after, htype, hplan, hbefore⟩, hpart⟩
    rw [htype]
    exact (follows_assembleKind fields kind found).mpr
      ⟨before, key, part, after, v, hplan, hbefore, hv, hpart⟩

end Slots

/-! ## Documents -/

theorem mem_of_lookup {fields : List (String × Json)} {key : String} {v : Json}
    (h : fields.lookup key = some v) : (key, v) ∈ fields := by
  obtain ⟨before, after, rfl, -⟩ := List.lookup_eq_some_iff.mp h
  exact List.mem_append_right _ List.mem_cons_self

theorem ofList_eq_map (items : List Json) : ofList items = items.map ofDocument := by
  induction items with
  | nil => rfl
  | cons item items ih => rw [ofList, ih, List.map_cons]

/-- A value cannot be gone through iff it is a scalar, and no string. -/
theorem fails_ofItems {v : Json} {found : String} :
    Fails (ofItems v) found ↔ v.IsScalar ∧ (∀ s, v ≠ .str s) ∧ v.kindName = found := by
  constructor
  · intro h
    cases v <;> simp only [ofItems] at h <;> cases h
    · exact ⟨.null, nofun, rfl⟩
    · exact ⟨.bool _, nofun, rfl⟩
    · exact ⟨.int _, nofun, rfl⟩
    · exact ⟨.float _, nofun, rfl⟩
  · rintro ⟨hscalar, hstr, rfl⟩
    cases hscalar with
    | str s => exact absurd rfl (hstr s)
    | _ => rfl

/-- Only of a list can an item fail for something that is not iterable. -/
theorem ofItems_eq_ok_of_fails {v : Json} {found : String} {before after : List (Except FormFault Node)}
    {node : Except FormFault Node} (h : ofItems v = .ok (before ++ node :: after))
    (hnode : Fails node found) :
    ∃ firsts item rest, v = .arr (firsts ++ item :: rest) ∧ before = firsts.map ofDocument ∧
      node = ofDocument item := by
  have hplain {α : Type} (items : List α) :
      Except.ok (items.map fun _ => .error (.notANode "str")) ≠
        (.ok (before ++ node :: after) : Except FormFault (List (Except FormFault Node))) := by
    intro heq
    have hmem : node ∈ items.map fun _ => (.error (.notANode "str") : Except FormFault Node) := by
      rw [Except.ok.inj heq]
      exact List.mem_append_right _ List.mem_cons_self
    obtain ⟨_, -, rfl⟩ := List.mem_map.mp hmem
    cases hnode
  cases v with
  | arr items =>
    rw [ofItems, ofList_eq_map] at h
    obtain ⟨firsts, lasts, rfl, rfl, hlasts⟩ := List.map_eq_append_iff.mp (Except.ok.inj h)
    obtain ⟨item, rest, rfl, rfl, -⟩ := List.map_eq_cons_iff.mp hlasts
    exact ⟨firsts, item, rest, rfl, rfl, rfl⟩
  | str s => exact absurd h (hplain _)
  | obj fields => exact absurd h (hplain _)
  | _ => cases h

/-- What fails in a document, the reading of it stumbles over. -/
def Explained (j : Json) : Prop :=
  ∀ found, Fails (ofDocument j) found → ∃ v, Stumbles j v ∧ v.kindName = found

theorem explained_object {fields : List (String × Json)}
    (hfields : ∀ field ∈ fields, Explained field.2 ∧
      ∀ items, field.2 = .arr items → ∀ item ∈ items, Explained item) : Explained (.obj fields) := by
  intro found h
  obtain ⟨key, part, v, hgets, hpart⟩ := (fails_object fields found).mp h
  obtain ⟨hnode, hitems⟩ := hfields _ (mem_of_lookup hgets.1)
  cases part with
  | present => exact hpart.elim
  | one shape =>
    obtain ⟨w, hw, hfound⟩ := hnode found hpart
    exact ⟨w, .node hgets hw, hfound⟩
  | many shape =>
    rcases hpart with hlist | ⟨before, node, after, hnodes, hbefore, hfails⟩
    · obtain ⟨hscalar, hstr, hfound⟩ := fails_ofItems.mp hlist
      exact ⟨v, .list hgets hscalar hstr, hfound⟩
    · obtain ⟨firsts, item, rest, rfl, rfl, rfl⟩ := ofItems_eq_ok_of_fails hnodes hfails
      obtain ⟨w, hw, hfound⟩ := hitems _ rfl item (by simp) found hfails
      exact ⟨w, .item hgets (List.forall_mem_map.mp hbefore) hw, hfound⟩

theorem explained (j : Json) :
    Explained j ∧ ∀ items, j = .arr items → ∀ item ∈ items, Explained item := by
  induction j using Json.induction with
  | null | bool | int | float | str => exact ⟨nofun, nofun⟩
  | arr items ih =>
    refine ⟨nofun, ?_⟩
    rintro _ ⟨⟩ item hitem
    exact (ih item hitem).1
  | obj fields ih => exact ⟨explained_object ih, nofun⟩

theorem Stumbles.fails {j v : Json} (h : Stumbles j v) : Fails (ofDocument j) v.kindName := by
  induction h with
  | list hgets hscalar hstr =>
    exact (fails_object _ _).mpr ⟨_, _, _, hgets, .inl (fails_ofItems.mpr ⟨hscalar, hstr, rfl⟩)⟩
  | node hgets _ ih => exact (fails_object _ _).mpr ⟨_, _, _, hgets, ih⟩
  | @item fields key shape before after item v hgets hbefore _ ih =>
    have hitems : ofItems (.arr (before ++ item :: after)) =
        .ok (before.map ofDocument ++ ofDocument item :: after.map ofDocument) := by
      rw [ofItems, ofList_eq_map, List.map_append, List.map_cons]
    exact (fails_object _ _).mpr
      ⟨_, _, _, hgets, .inr ⟨_, _, _, hitems, List.forall_mem_map.mpr hbefore, ih⟩⟩

/-- Reading fails for something that is not iterable iff it stumbles over that. -/
theorem notIterable_iff_stumbles {j : Json} {found : String} :
    ofDocument j = .error (.notIterable found) ↔ ∃ v, Stumbles j v ∧ v.kindName = found := by
  constructor
  · exact (explained j).1 found
  · rintro ⟨v, h, rfl⟩
    exact h.fails

end ScriptLang.Node
