import CodeAtlas.Text.Quoted
import CodeAtlas.Value.Basic

/-!
# Written forms of values

`Value.display` is for tables and messages, where a text stands for itself; inside a collection, and in
`Value.literal`, texts are quoted. `Value.json` is the compact ASCII interchange form.
-/

namespace CodeAtlas.Value

def intText (n : Int) : String :=
  if n < 0 then "-" ++ String.ofList (Decimal.digits n.natAbs)
  else String.ofList (Decimal.digits n.natAbs)

def byteText (quote : Char) (b : UInt8) : List Char :=
  let c := Char.ofNat b.toNat
  if c == quote || c == '\\' then ['\\', c]
  else if c == '\n' then ['\\', 'n']
  else if c == '\r' then ['\\', 'r']
  else if c == '\t' then ['\\', 't']
  else if ' ' ≤ c && c ≤ '~' then [c]
  else '\\' :: 'x' :: Text.hex 2 b.toNat

def bytesText (bs : List UInt8) : String :=
  let cs := bs.map fun b => Char.ofNat b.toNat
  let quote := if cs.contains '\x27' && !cs.contains '"' then '"' else '\x27'
  String.ofList ('b' :: quote :: (bs.flatMap (byteText quote) ++ [quote]))

def atomLiteral : Atom → String
  | .bytes bs => bytesText bs
  | .date y m d => DateTime.dateText y m d
  | .moment t => t.isoWith " "
  | .complex re im => "(" ++ Decimal.plain.write re ++ ", " ++ Decimal.plain.write im ++ ")"
  | .named name => name
  | .loop => "..."

mutual

def literal : Value → String
  | .null => "None"
  | .bool b => if b then "True" else "False"
  | .int n => intText n
  | .float x => Decimal.plain.write x
  | .text s => Text.quoted s
  | .list xs => "[" ++ Text.join ", " (literalItems xs) ++ "]"
  | .map es => "\x7b" ++ Text.join ", " (literalEntries es) ++ "\x7d"
  | .tuple [x] => "(" ++ literal x ++ ",)"
  | .tuple xs => "(" ++ Text.join ", " (literalItems xs) ++ ")"
  | .set [] => "set()"
  | .set xs => "\x7b" ++ Text.join ", " (literalItems xs) ++ "\x7d"
  | .atom a => atomLiteral a

def literalItems : List Value → List String
  | [] => []
  | x :: xs => literal x :: literalItems xs

def literalEntries : List (Value × Value) → List String
  | [] => []
  | (k, v) :: es => (literal k ++ ": " ++ literal v) :: literalEntries es

end

def display : Value → String
  | .text s => s
  | v => literal v

def jsonFloat : Decimal.Layout := ⟨-4, 16, "NaN", "Infinity"⟩

def jsonKey : Value → String
  | .null => "null"
  | .bool b => if b then "true" else "false"
  | .int n => intText n
  | .float x => jsonFloat.write x
  | .text s => s
  | v => literal v

mutual

/-- The interchange form: entries in their order, a blank after each colon and comma. -/
def json : Value → String
  | .null => "null"
  | .bool b => if b then "true" else "false"
  | .int n => intText n
  | .float x => jsonFloat.write x
  | .text s => Text.asciiQuoted s
  | .list xs | .tuple xs | .set xs => "[" ++ Text.join ", " (jsonItems xs) ++ "]"
  | .map es => "\x7b" ++ Text.join ", " (jsonEntries es) ++ "\x7d"
  | .atom a => Text.asciiQuoted (atomLiteral a)

def jsonItems : List Value → List String
  | [] => []
  | x :: xs => json x :: jsonItems xs

def jsonEntries : List (Value × Value) → List String
  | [] => []
  | (k, v) :: es => (Text.asciiQuoted (jsonKey k) ++ ": " ++ json v) :: jsonEntries es

end

def isJsonKey : Value → Bool
  | .null | .bool _ | .int _ | .float _ | .text _ => true
  | _ => false

mutual

def jsonFault? : Value → Option Fault
  | .list xs | .tuple xs => jsonFaultItems? xs
  | .map es => jsonFaultEntries? es
  | .set _ => some .wrongKind
  | .atom .loop => some .badValue
  | .atom _ => some .wrongKind
  | _ => none

def jsonFaultItems? : List Value → Option Fault
  | [] => none
  | x :: xs => jsonFault? x <|> jsonFaultItems? xs

def jsonFaultEntries? : List (Value × Value) → Option Fault
  | [] => none
  | (k, v) :: es => if isJsonKey k then jsonFault? v <|> jsonFaultEntries? es else some .wrongKind

end

def toJson (v : Value) : Except Fault String :=
  match v.jsonFault? with
  | some e => .error e
  | none => .ok v.json

end CodeAtlas.Value
