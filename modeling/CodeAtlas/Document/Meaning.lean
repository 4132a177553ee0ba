import CodeAtlas.Decimal.Complex
import CodeAtlas.Document.Kind
import CodeAtlas.Document.Names
import CodeAtlas.Document.Outcome
import CodeAtlas.Text.Base64
import CodeAtlas.Value.Member

/-!
# Values of a document

What a document means: the value of each text follows from its kind, and those of lists and maps from their parts.
-/

namespace CodeAtlas.Document

/-! ## Texts -/

def truth (s : String) : Except Fault Value :=
  match String.ofList (Text.lower s.toList) with
  | "yes" | "true" | "on" => .ok (.bool true)
  | "no" | "false" | "off" => .ok (.bool false)
  | _ => .error .noSuchKey

def bytes? (s : String) : Option Value :=
  if s.toList.all fun c => c.toNat < 128 then (Text.Base64.decode? s.toList).map fun bs => .atom (.bytes bs)
  else none

def complex (s : String) : Except Fault Value :=
  match Decimal.complex? s.toList with
  | some (re, im) => .ok (.atom (.complex re im))
  | none => .error .badValue

def textValue (k : Kind) (s : String) : Except Reason Value :=
  match k with
  | .text => .ok (.text s)
  | .null => .ok .null
  | .bool => (truth s).mapError .fault
  | .int => ((readInt s.toList).map Value.int).mapError .fault
  | .float => ((readFloat s.toList).map Value.float).mapError .fault
  | .complex => (complex s).mapError .fault
  | .timestamp => (Timestamp.value s.toList).mapError .fault
  | .bytes => orMalformed (bytes? s)
  | .named name => if s == "" then orMalformed (Names.find? name) else .error .malformed
  | _ => .error .malformed

/-! ## Trees -/

def misfit (k : Kind) : Outcome Value := if k.isFilledLater then (Outcome.fail .malformed).later else .fail .malformed

def mapOf (entries : List (Value × Value)) : Value := .map (entries.foldl (fun acc (k, v) => Value.insertEntry k v acc) [])

def setOf (entries : List (Value × Value)) : Value := .set ((mapOf entries).entries.map Prod.fst)

structure Entries where
  broken : Bool := false
  taken : Outcome (List (Value × Value)) := pure []
  own : Outcome (List (Value × Value)) := pure []

namespace Entries

def all (es : Entries) : Outcome (List (Value × Value)) := do
  if es.broken then Outcome.fail Reason.malformed
  let taken ← es.taken
  let own ← es.own
  return taken ++ own

def keyed (key v : Outcome Value) (rest : Entries) : Entries :=
  let entry : Outcome (Value × Value) := do
    let k ← key
    if !k.isKey then Outcome.fail Reason.malformed
    return (k, ← v)
  { rest with own := do return (← entry) :: (← rest.own) }

def merged (first rest : Entries) : Entries :=
  { rest with
    broken := first.broken || rest.broken
    taken := do return (← first.all) ++ (← rest.taken) }

end Entries

namespace Node

mutual

def text? : Node → Option String
  | .scalar _ _ s => some s
  | .map _ es => itselfText? es
  | _ => none

def itselfText? : List (Node × Node) → Option String
  | [] => none
  | (k, v) :: rest => if k.kind == .itself then text? v else itselfText? rest

end

mutual

def value : Node → Outcome Value
  | .within _ => pure (.atom .loop)
  | .scalar tag plain s =>
    let k := (Node.scalar tag plain s).kind
    if k.isFilledLater then misfit k else .ofExcept (textValue k s)
  | .list tag items =>
    match (Node.list tag items).kind with
    | .list => (Value.list <$> values items).later
    | .tuple => Value.tuple <$> values items
    | .pairs => (Value.list <$> pairs items).later
    | k => misfit k
  | .map tag es =>
    match (Node.map tag es).kind with
    | .map => (mapOf <$> (entries es).all).later
    | .set => (setOf <$> (entries es).all).later
    | .timestamp => .fail .malformed
    | k =>
      match itselfText? es with
      | some s => if k.isFilledLater then misfit k else .ofExcept (textValue k s)
      | none => misfit k

def values : List Node → Outcome (List Value)
  | [] => pure []
  | n :: rest => do return (← value n) :: (← values rest)

def pairs : List Node → Outcome (List Value)
  | [] => pure []
  | .map _ [(k, v)] :: rest => do
    let pair := Value.tuple [← value k, ← value v]
    return pair :: (← pairs rest)
  | _ :: _ => .fail .malformed

/-- The entries of a map. The key of what stands for the map itself is a text like others. -/
def entries : List (Node × Node) → Entries
  | [] => {}
  | (k, v) :: rest =>
    match k.kind with
    | .merge => (taken v).merged (entries rest)
    | .itself => (entries rest).keyed (pure (.text (k.text?.getD ""))) (value v)
    | _ => (entries rest).keyed (value k) (value v)

/-- The entries that are taken over from a map, or from all maps of a list, of which the first has the last word. -/
def taken : Node → Entries
  | .map _ es => entries es
  | .list _ items => takenAll items
  | .scalar _ _ _ => { broken := true }
  | .within _ => {}

def takenAll : List Node → Entries
  | [] => {}
  | .map _ es :: rest => (takenAll rest).merged (entries es)
  | .within _ :: rest => takenAll rest
  | _ :: _ => { broken := true }

end

end Node

def read (text : String) : Except Reason Value := do
  let (tokens, broken) := Token.ofText text
  match ← Node.ofTokens tokens broken with
  | none => return .null
  | some n => n.value.result

end CodeAtlas.Document
