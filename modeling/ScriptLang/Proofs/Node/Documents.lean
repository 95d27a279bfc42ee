import ScriptLang.Node.Document
import ScriptLang.Proofs.Json.Sound

/-!
# Syntax trees and their documents

Every tree is read back from its document, whatever its names, operators and literal values are and
whatever kinds of nodes stand in it.

Results:
* `ofDocument_toDocument`: reading a document undoes writing it;
* `isSound_toDocument`: a text can hold the document of a tree if it can hold the names, operators
  and literal values in the tree.
-/
namespace ScriptLang.Node

/-! ## Fields of an object -/

/-- A field of an object with what it is read as. -/
def fieldOf (j : Json) : Field := ⟨j, ofDocument j, ofItems j⟩

/-- An object is read by its kind. -/
theorem ofDocument_object (kind : String) (fields : List (String × Json)) :
    ofDocument (object kind fields) =
      assembleKind (("type", fieldOf (.str kind)) :: ofFields fields) kind := by
  rw [object, ofDocument, ofFields]
  rfl

theorem ofDocument_nameDocument (name : Json) :
    ofDocument (nameDocument name) = .ok (.identifier name) := by
  rw [nameDocument, ofDocument_object]
  rfl

theorem ofDocument_literal (kind : LiteralKind) (value : Json) :
    ofDocument (object (literalType kind) [("value", value)]) = .ok (.literal kind value) := by
  rw [ofDocument_object]
  cases kind <;> rfl

/-- A block is read back if its statements are. -/
theorem ofDocument_block {body : List Node}
    (h : Fields.collect (ofList (toDocuments body)) = .ok body) :
    ofDocument (object "BlockStatement" [("body", .arr (toDocuments body))]) =
      .ok (.block body) := by
  rw [ofDocument_object]
  show (do return Node.block (← Fields.collect (ofList (toDocuments body)))) = _
  rw [h]
  rfl

theorem collect_names (params : List Json) :
    Fields.collect ((ofList (params.map nameDocument)).map Fields.nameOf) = .ok params := by
  induction params with
  | nil => rfl
  | cons name params ih =>
    rw [List.map_cons, ofList, List.map_cons, Fields.collect, ofDocument_nameDocument, ih]
    rfl

/-! ## Trees -/

/-- The document of a node is never null, so that it is told from an absent one. -/
theorem toDocument_ne_null (n : Node) : n.toDocument ≠ .null := by
  intro h
  match n with
  | .branch _ _ none => cases h
  | .branch _ _ (some _) => cases h
  | .ret none => cases h
  | .ret (some _) => cases h
  | .program _ | .identifier _ | .literal _ _ | .binary _ _ _ | .call _ _ | .expression _
  | .declare _ _ | .block _ | .loop _ _ | .function _ _ _ | .importFile _ => cases h

mutual

theorem ofDocument_toDocument (n : Node) : ofDocument n.toDocument = .ok n := by
  match n with
  | .program body =>
    rw [toDocument, ofDocument_object]
    show (do return Node.program (← Fields.collect (ofList (toDocuments body)))) = _
    rw [collect_toDocuments body]
    rfl
  | .identifier name => exact ofDocument_nameDocument name
  | .literal kind value => exact ofDocument_literal kind value
  | .binary left operator right =>
    rw [toDocument, ofDocument_object]
    show (do
      let left ← ofDocument left.toDocument
      return Node.binary left operator (← ofDocument right.toDocument)) = _
    rw [ofDocument_toDocument left, ofDocument_toDocument right]
    rfl
  | .call callee args =>
    rw [toDocument, ofDocument_object]
    show (do
      match ← ofDocument (nameDocument callee) with
      | .identifier callee =>
        return Node.call callee (← Fields.collect (ofList (toDocuments args)))
      | _ => throw FormFault.badCallee) = _
    rw [ofDocument_nameDocument, collect_toDocuments args]
    rfl
  | .expression value =>
    rw [toDocument, ofDocument_object]
    show (do return Node.expression (← ofDocument value.toDocument)) = _
    rw [ofDocument_toDocument value]
    rfl
  | .declare name value =>
    rw [toDocument, ofDocument_object]
    show (do
      let name ← Fields.nameOf (ofDocument (nameDocument name))
      return Node.declare name (← ofDocument value.toDocument)) = _
    rw [ofDocument_nameDocument, ofDocument_toDocument value]
    rfl
  | .block body => exact ofDocument_block (collect_toDocuments body)
  | .branch test consequent none =>
    have hblock := ofDocument_block (collect_toDocuments consequent)
    rw [toDocument, ofDocument_object]
    show (do
      let test ← ofDocument test.toDocument
      let consequent ← Fields.blockOf (ofDocument
        (object "BlockStatement" [("body", .arr (toDocuments consequent))]))
      return Node.branch test consequent none) = _
    rw [ofDocument_toDocument test, hblock]
    rfl
  | .branch test consequent (some alternate) =>
    have hthen := ofDocument_block (collect_toDocuments consequent)
    have helse := ofDocument_block (collect_toDocuments alternate)
    rw [toDocument, ofDocument_object]
    show (do
      let test ← ofDocument test.toDocument
      let consequent ← Fields.blockOf (ofDocument
        (object "BlockStatement" [("body", .arr (toDocuments consequent))]))
      let alternate ← Fields.blockOf (ofDocument
        (object "BlockStatement" [("body", .arr (toDocuments alternate))]))
      return Node.branch test consequent (some alternate)) = _
    rw [ofDocument_toDocument test, hthen, helse]
    rfl
  | .loop test body =>
    have hblock := ofDocument_block (collect_toDocuments body)
    rw [toDocument, ofDocument_object]
    show (do
      let test ← ofDocument test.toDocument
      return Node.loop test (← Fields.blockOf (ofDocument
        (object "BlockStatement" [("body", .arr (toDocuments body))])))) = _
    rw [ofDocument_toDocument test, hblock]
    rfl
  | .function name params body =>
    have hblock := ofDocument_block (collect_toDocuments body)
    rw [toDocument, ofDocument_object]
    show (do
      let name ← Fields.nameOf (ofDocument (nameDocument name))
      let params ← Fields.collect ((ofList (params.map nameDocument)).map Fields.nameOf)
      return Node.function name params (← Fields.blockOf (ofDocument
        (object "BlockStatement" [("body", .arr (toDocuments body))])))) = _
    rw [ofDocument_nameDocument, collect_names, hblock]
    rfl
  | .ret none =>
    rw [toDocument, ofDocument_object]
    rfl
  | .ret (some argument) =>
    have hnull := toDocument_ne_null argument
    rw [toDocument, ofDocument_object]
    show (do
      if argument.toDocument = Json.null then return Node.ret none
      else return Node.ret (some (← ofDocument argument.toDocument))) = _
    rw [if_neg hnull, ofDocument_toDocument argument]
    rfl
  | .importFile path =>
    rw [toDocument, ofDocument_object]
    rfl

theorem collect_toDocuments (ns : List Node) :
    Fields.collect (ofList (toDocuments ns)) = .ok ns := by
  match ns with
  | [] => rfl
  | n :: ns =>
    rw [toDocuments, ofList, Fields.collect, ofDocument_toDocument n, collect_toDocuments ns]
    rfl

end

/-! ## Sound trees -/

mutual

/-- The documents in a tree: its names, its operators and the values of its literals. -/
def values : Node → List Json
  | .program body => allValues body
  | .identifier name => [name]
  | .literal _ value => [value]
  | .binary left operator right => operator :: (left.values ++ right.values)
  | .call callee args => callee :: allValues args
  | .expression value => value.values
  | .declare name value => name :: value.values
  | .block body => allValues body
  | .branch test consequent none => test.values ++ allValues consequent
  | .branch test consequent (some alternate) =>
    test.values ++ (allValues consequent ++ allValues alternate)
  | .loop test body => test.values ++ allValues body
  | .function name params body => name :: (params ++ allValues body)
  | .ret none => []
  | .ret (some argument) => argument.values
  | .importFile _ => []

def allValues : List Node → List Json
  | [] => []
  | node :: nodes => node.values ++ allValues nodes

end

open Json (IsSound isSound_arr isSound_obj isSound_str isSound_null)

theorem isSound_object {fields : List (String × Json)} (kind : String)
    (hn : ("type" :: fields.map (·.1)).Nodup) (h : ∀ f ∈ fields, IsSound f.2) :
    IsSound (object kind fields) :=
  (isSound_obj _).mpr ⟨hn, List.forall_mem_cons.mpr ⟨isSound_str kind, h⟩⟩

theorem isSound_nameDocument {name : Json} (h : IsSound name) : IsSound (nameDocument name) :=
  isSound_object _ (by simp) (by simpa using h)

theorem isSound_block {body : List Node} (h : ∀ j ∈ toDocuments body, IsSound j) :
    IsSound (object "BlockStatement" [("body", .arr (toDocuments body))]) :=
  isSound_object _ (by simp) (by simpa [isSound_arr] using h)

mutual

theorem isSound_toDocument (n : Node) (h : ∀ v ∈ n.values, IsSound v) : IsSound n.toDocument := by
  match n with
  | .program body =>
    rw [values] at h
    have hbody := isSound_toDocuments body h
    rw [toDocument]
    exact isSound_object _ (by simp) (by simpa [isSound_arr] using hbody)
  | .identifier name =>
    rw [values, List.forall_mem_singleton] at h
    exact isSound_nameDocument h
  | .literal kind value =>
    rw [values, List.forall_mem_singleton] at h
    rw [toDocument]
    exact isSound_object _ (by simp) (by simpa using h)
  | .binary left operator right =>
    rw [values, List.forall_mem_cons, List.forall_mem_append] at h
    have hleft := isSound_toDocument left h.2.1
    have hright := isSound_toDocument right h.2.2
    rw [toDocument]
    exact isSound_object _ (by simp) (by simpa using ⟨hleft, h.1, hright⟩)
  | .call callee args =>
    rw [values, List.forall_mem_cons] at h
    have hcallee := isSound_nameDocument h.1
    have hargs := isSound_toDocuments args h.2
    rw [toDocument]
    exact isSound_object _ (by simp) (by simpa [isSound_arr] using ⟨hcallee, hargs⟩)
  | .expression value =>
    rw [values] at h
    have hvalue := isSound_toDocument value h
    rw [toDocument]
    exact isSound_object _ (by simp) (by simpa using hvalue)
  | .declare name value =>
    rw [values, List.forall_mem_cons] at h
    have hname := isSound_nameDocument h.1
    have hvalue := isSound_toDocument value h.2
    rw [toDocument]
    exact isSound_object _ (by simp) (by simpa using ⟨hname, hvalue⟩)
  | .block body =>
    rw [values] at h
    exact isSound_block (isSound_toDocuments body h)
  | .branch test consequent none =>
    rw [values, List.forall_mem_append] at h
    have htest := isSound_toDocument test h.1
    have hthen := isSound_block (isSound_toDocuments consequent h.2)
    rw [toDocument]
    exact isSound_object _ (by simp) (by simpa using ⟨htest, hthen⟩)
  | .branch test consequent (some alternate) =>
    rw [values, List.forall_mem_append, List.forall_mem_append] at h
    have htest := isSound_toDocument test h.1
    have hthen := isSound_block (isSound_toDocuments consequent h.2.1)
    have helse := isSound_block (isSound_toDocuments alternate h.2.2)
    rw [toDocument]
    exact isSound_object _ (by simp) (by simpa using ⟨htest, hthen, helse⟩)
  | .loop test body =>
    rw [values, List.forall_mem_append] at h
    have htest := isSound_toDocument test h.1
    have hbody := isSound_block (isSound_toDocuments body h.2)
    rw [toDocument]
    exact isSound_object _ (by simp) (by simpa using ⟨htest, hbody⟩)
  | .function name params body =>
    rw [values, List.forall_mem_cons, List.forall_mem_append] at h
    have hname := isSound_nameDocument h.1
    have hparams : ∀ param ∈ params, IsSound (nameDocument param) :=
      fun param hm => isSound_nameDocument (h.2.1 param hm)
    have hbody := isSound_block (isSound_toDocuments body h.2.2)
    rw [toDocument]
    exact isSound_object _ (by simp) (by simpa [isSound_arr] using ⟨hname, hparams, hbody⟩)
  | .ret none =>
    rw [toDocument]
    exact isSound_object _ (by simp) (by simpa using isSound_null)
  | .ret (some argument) =>
    rw [values] at h
    have hargument := isSound_toDocument argument h
    rw [toDocument]
    exact isSound_object _ (by simp) (by simpa using hargument)
  | .importFile path =>
    have hpath : IsSound (object "StringLiteral" [("value", .str path)]) :=
      isSound_object _ (by simp) (by simpa using isSound_str path)
    rw [toDocument]
    exact isSound_object _ (by simp) (by simpa using hpath)

theorem isSound_toDocuments (ns : List Node) (h : ∀ v ∈ allValues ns, IsSound v) :
    ∀ j ∈ toDocuments ns, IsSound j := by
  match ns with
  | [] =>
    rw [toDocuments]
    exact fun j hj => absurd hj List.not_mem_nil
  | n :: ns =>
    rw [allValues, List.forall_mem_append] at h
    rw [toDocuments, List.forall_mem_cons]
    exact ⟨isSound_toDocument n h.1, isSound_toDocuments ns h.2⟩

end

end ScriptLang.Node
