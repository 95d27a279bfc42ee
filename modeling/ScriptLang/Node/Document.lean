import ScriptLang.Node
import ScriptLang.Json.Display

/-!
# The document form of syntax trees

Each node is an object whose field `type` names its kind. An absent else branch has no field, a
return without an argument has a field that is null. Reading takes any document and says what is
wrong with one that is no tree, at the first place a walk from left to right comes to.
-/
namespace ScriptLang.Node

/-! ## Writing -/

def literalType : LiteralKind → String
  | .string => "StringLiteral"
  | .number => "NumericLiteral"
  | .boolean => "BooleanLiteral"
  | .null => "NullLiteral"

def object (kind : String) (fields : List (String × Json)) : Json :=
  .obj (("type", .str kind) :: fields)

def nameDocument (name : Json) : Json := object "Identifier" [("name", name)]

mutual

/-- The document of a node (`to_dict`). -/
def toDocument : Node → Json
  | .program body => object "Program" [("body", .arr (toDocuments body))]
  | .identifier name => nameDocument name
  | .literal kind value => object (literalType kind) [("value", value)]
  | .binary left operator right =>
    object "BinaryExpression"
      [("left", left.toDocument), ("operator", operator), ("right", right.toDocument)]
  | .call callee args =>
    object "CallExpression" [("callee", nameDocument callee), ("args", .arr (toDocuments args))]
  | .expression value => object "ExpressionStatement" [("expression", value.toDocument)]
  | .declare name value =>
    object "VariableDeclaration" [("identifier", nameDocument name), ("value", value.toDocument)]
  | .block body => object "BlockStatement" [("body", .arr (toDocuments body))]
  | .branch test consequent none =>
    object "IfStatement"
      [("test", test.toDocument),
        ("consequent", object "BlockStatement" [("body", .arr (toDocuments consequent))])]
  | .branch test consequent (some alternate) =>
    object "IfStatement"
      [("test", test.toDocument),
        ("consequent", object "BlockStatement" [("body", .arr (toDocuments consequent))]),
        ("alternate", object "BlockStatement" [("body", .arr (toDocuments alternate))])]
  | .loop test body =>
    object "WhileStatement"
      [("test", test.toDocument),
        ("body", object "BlockStatement" [("body", .arr (toDocuments body))])]
  | .function name params body =>
    object "FunctionDeclaration"
      [("name", nameDocument name), ("params", .arr (params.map nameDocument)),
        ("body", object "BlockStatement" [("body", .arr (toDocuments body))])]
  | .ret none => object "ReturnStatement" [("argument", .null)]
  | .ret (some argument) => object "ReturnStatement" [("argument", argument.toDocument)]
  | .importFile path =>
    object "ImportStatement" [("path", object "StringLiteral" [("value", .str path)])]

def toDocuments : List Node → List Json
  | [] => []
  | node :: nodes => node.toDocument :: toDocuments nodes

end

/-! ## Reading -/

/-- Why a document is no syntax tree (`NodeFormatError`). -/
inductive FormFault where
  | missing (kind key : String)
  | notANode (found : String)
  | notIdentifier (found : String)
  | notBlock (found : String)
  | badCallee
  | badImportPath
  | unknownKind (kind : Json)
  /-- A field that should be a list is a scalar. Of a string the characters count as its items, of
  an object the names of its fields. -/
  | notIterable (found : String)
  deriving DecidableEq

def FormFault.message : FormFault → String
  | .missing kind key => kind ++ " node is missing '" ++ key ++ "'"
  | .notANode found => "Expected a node object but found " ++ found
  | .notIdentifier found => "Expected Identifier but found " ++ found
  | .notBlock found => "Expected BlockStatement but found " ++ found
  | .badCallee => "CallExpression callee must be an Identifier"
  | .badImportPath => "ImportStatement path must be a StringLiteral"
  | .unknownKind kind => "Unknown node type " ++ kind.shown
  | .notIterable found => "'" ++ found ++ "' object is not iterable"

/-- A field of a node's object: the document in it, and what that is as a node and as a list of
nodes. -/
structure Field where
  document : Json
  node : Except FormFault Node
  nodes : Except FormFault (List (Except FormFault Node))

/-- The fields of an object that may be a node. -/
abbrev Fields := List (String × Field)

namespace Fields

/-- A field that a node of the given kind must have (`_require`). -/
def require (fields : Fields) (kind key : String) : Except FormFault Field :=
  match fields.lookup key with
  | some field => .ok field
  | none => .error (.missing kind key)

/-- The document in a field that may be absent. -/
def documentOf (fields : Fields) (key : String) : Json :=
  (fields.lookup key).elim .null (·.document)

def nodeOf (fields : Fields) (kind key : String) : Except FormFault Node := do
  (← fields.require kind key).node

/-- All results, or the first fault among them. -/
def collect {α : Type} : List (Except FormFault α) → Except FormFault (List α)
  | [] => .ok []
  | first :: rest => do
    let value ← first
    return value :: (← collect rest)

def nodesOf (fields : Fields) (kind key : String) : Except FormFault (List Node) := do
  collect (← (← fields.require kind key).nodes)

/-- The name that a node is (`_identifier_name`). -/
def nameOf (node : Except FormFault Node) : Except FormFault Json := do
  match ← node with
  | .identifier name => return name
  | other => throw (.notIdentifier other.kindName)

/-- The statements of the block that a node is (`_block`). -/
def blockOf (node : Except FormFault Node) : Except FormFault (List Node) := do
  match ← node with
  | .block body => return body
  | other => throw (.notBlock other.kindName)

end Fields

/-- The kinds of literals that a kind of objects names. -/
def literalKind? (kind : String) : Option LiteralKind :=
  [LiteralKind.string, .number, .boolean, .null].find? (literalType · == kind)

/-- The node of an object whose kind is a string. -/
def assembleKind (fields : Fields) (kind : String) : Except FormFault Node :=
  match kind with
  | "Program" => do return .program (← fields.nodesOf kind "body")
  | "Identifier" => do return .identifier (← fields.require kind "name").document
  | "BinaryExpression" => do
    let left ← fields.nodeOf kind "left"
    let operator ← fields.require kind "operator"
    return .binary left operator.document (← fields.nodeOf kind "right")
  | "CallExpression" => do
    match ← fields.nodeOf kind "callee" with
    | .identifier callee => return .call callee (← fields.nodesOf kind "args")
    | _ => throw .badCallee
  | "ExpressionStatement" => do return .expression (← fields.nodeOf kind "expression")
  | "VariableDeclaration" => do
    let name ← Fields.nameOf (fields.nodeOf kind "identifier")
    return .declare name (← fields.nodeOf kind "value")
  | "BlockStatement" => do return .block (← fields.nodesOf kind "body")
  | "IfStatement" => do
    let test ← fields.nodeOf kind "test"
    let consequent ← Fields.blockOf (fields.nodeOf kind "consequent")
    if fields.documentOf "alternate" = .null then return .branch test consequent none
    else
      let alternate ← Fields.blockOf (fields.nodeOf kind "alternate")
      return .branch test consequent (some alternate)
  | "WhileStatement" => do
    let test ← fields.nodeOf kind "test"
    return .loop test (← Fields.blockOf (fields.nodeOf kind "body"))
  | "FunctionDeclaration" => do
    let name ← Fields.nameOf (fields.nodeOf kind "name")
    let params ← (← fields.require kind "params").nodes
    let params ← Fields.collect (params.map Fields.nameOf)
    return .function name params (← Fields.blockOf (fields.nodeOf kind "body"))
  | "ReturnStatement" => do
    if fields.documentOf "argument" = .null then return .ret none
    else return .ret (some (← fields.nodeOf kind "argument"))
  | "ImportStatement" => do
    match ← fields.nodeOf kind "path" with
    | .literal .string path => return .importFile path.inMessage
    | _ => throw .badImportPath
  | kind =>
    match literalKind? kind with
    | some form => .ok (.literal form (fields.documentOf "value"))
    | none => .error (.unknownKind (.str kind))

/-- The node of an object. -/
def assemble (fields : Fields) : Except FormFault Node :=
  match fields.documentOf "type" with
  | .str kind => assembleKind fields kind
  | kind => .error (.unknownKind kind)

mutual

/-- The node that a document is the form of (`node_from_dict`). -/
def ofDocument : Json → Except FormFault Node
  | .obj fields => assemble (ofFields fields)
  | j => .error (.notANode j.kindName)

def ofFields : List (String × Json) → Fields
  | [] => []
  | (name, value) :: fields =>
    (name, ⟨value, ofDocument value, ofItems value⟩) :: ofFields fields

/-- The nodes that the items of a document are. -/
def ofItems : Json → Except FormFault (List (Except FormFault Node))
  | .arr items => .ok (ofList items)
  | .str s => .ok (s.toList.map fun _ => .error (.notANode "str"))
  | .obj fields => .ok (fields.map fun _ => .error (.notANode "str"))
  | j => .error (.notIterable j.kindName)

def ofList : List Json → List (Except FormFault Node)
  | [] => []
  | item :: items => ofDocument item :: ofList items

end

end ScriptLang.Node
