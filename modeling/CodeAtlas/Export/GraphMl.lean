import CodeAtlas.Graph.Digraph
import CodeAtlas.Value.Written

/-!
# Graphs as markup

A graph is written as a document of nested elements. Every attribute of a node is declared once, under a key that is
its name together with its type; the declarations stand before the graph, latest first.
-/

namespace CodeAtlas

inductive Element where
  | leaf (tag : String) (attributes : List (String × String)) (text : String)
  | node (tag : String) (attributes : List (String × String)) (children : List Element)
deriving Inhabited

namespace Element

def escapeTextChar : Char → List Char
  | '&' => "&amp;".toList
  | '<' => "&lt;".toList
  | '>' => "&gt;".toList
  | c => [c]

def escapeText (s : String) : String := String.ofList (s.toList.flatMap escapeTextChar)

def escapeAttributeChar : Char → List Char
  | '"' => "&quot;".toList
  | '\r' => "&#13;".toList
  | '\n' => "&#10;".toList
  | '\t' => "&#09;".toList
  | c => escapeTextChar c

def escapeAttribute (s : String) : String := String.ofList (s.toList.flatMap escapeAttributeChar)

def opening (tag : String) (attributes : List (String × String)) : String :=
  "<" ++ tag ++ String.join (attributes.map fun (k, v) => " " ++ k ++ "=\"" ++ escapeAttribute v ++ "\"")

def indent (level : Nat) : String := String.ofList (List.replicate (2 * level) ' ')

mutual

def render (level : Nat) : Element → String
  | .leaf tag attributes text =>
    indent level ++ opening tag attributes
      ++ (if text == "" then " />" else ">" ++ escapeText text ++ "</" ++ tag ++ ">") ++ "\n"
  | .node tag attributes [] => indent level ++ opening tag attributes ++ " />\n"
  | .node tag attributes (child :: children) =>
    indent level ++ opening tag attributes ++ ">\n" ++ render (level + 1) child
      ++ renderAll (level + 1) children ++ indent level ++ "</" ++ tag ++ ">\n"

def renderAll (level : Nat) : List Element → String
  | [] => ""
  | e :: es => render level e ++ renderAll level es

end

end Element

namespace GraphMl

def typeOf? : Value → Option String
  | .bool _ => some "boolean"
  | .int _ => some "long"
  | .float _ => some "double"
  | .text _ => some "string"
  | _ => none

abbrev Keys := List (String × String)

def keyOf (keys : Keys) (key : String × String) : Nat × Keys :=
  match keys.findIdx? (· == key) with
  | some i => (i, keys)
  | none => (keys.length, keys ++ [key])

def keyName (i : Nat) : String := "d" ++ Value.intText i

def dataElements : Keys → List (String × Value) → Except Fault (List Element × Keys)
  | keys, [] => .ok ([], keys)
  | keys, (name, v) :: rest =>
    match typeOf? v with
    | none => .error .graphFormat
    | some type => do
      let (i, keys) := keyOf keys (name, type)
      let (es, keys) ← dataElements keys rest
      return (.leaf "data" [("key", keyName i)] v.display :: es, keys)

def nodeElements : Keys → List (String × Attributes) → Except Fault (List Element × Keys)
  | keys, [] => .ok ([], keys)
  | keys, (name, attributes) :: rest => do
    let (data, keys) ← dataElements keys attributes.entries
    let (es, keys) ← nodeElements keys rest
    return (.node "node" [("id", name)] data :: es, keys)

def edgeElement (e : String × String) : Element := .node "edge" [("source", e.1), ("target", e.2)] []

def keyElement (entry : (String × String) × Nat) : Element :=
  .node "key"
    [("id", keyName entry.2), ("for", "node"), ("attr.name", entry.1.1), ("attr.type", entry.1.2)] []

def rootAttributes : List (String × String) :=
  [("xmlns", "http://graphml.graphdrawing.org/xmlns"),
    ("xmlns:xsi", "http://www.w3.org/2001/XMLSchema-instance"),
    ("xsi:schemaLocation",
      "http://graphml.graphdrawing.org/xmlns http://graphml.graphdrawing.org/xmlns/1.0/graphml.xsd")]

def writtenChar (c : Char) : List Char :=
  if Text.isHalf c then "&#".toList ++ Decimal.digits (Text.code c) ++ [';'] else [c]

def document (g : Digraph) : Except Fault String := do
  let (nodes, keys) ← nodeElements [] g.nodes.entries
  let graph := Element.node "graph" [("edgedefault", "directed")] (nodes ++ g.edges.map edgeElement)
  let root := Element.node "graphml" rootAttributes ((keys.zipIdx.map keyElement).reverse ++ [graph])
  return "<?xml version='1.0' encoding='utf-8'?>\n" ++ String.ofList ((root.render 0).toList.flatMap writtenChar)

end GraphMl

end CodeAtlas
