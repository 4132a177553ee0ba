import CodeAtlas.Value.Written

/-!
# Reading the interchange form

Reads what `Value.json` writes: numbers without a point and an exponent are whole, all others are fractions.
-/

namespace CodeAtlas.Value

def isJsonBlank (c : Char) : Bool := c == ' ' || c == '\n' || c == '\t' || c == '\r'

def skipBlanks (cs : List Char) : List Char := cs.dropWhile isJsonBlank

def hexNumeral (ds : List Char) : Nat := Decimal.numeral 16 ds

def unescape : Char → Char
  | 'n' => '\n'
  | 't' => '\t'
  | 'r' => '\r'
  | 'b' => '\x08'
  | 'f' => '\x0c'
  | c => c

def readText : (fuel : Nat) → (acc : List Char) → List Char → Option (String × List Char)
  | 0, _, _ => none
  | _, _, [] => none
  | _ + 1, acc, '"' :: cs => some (String.ofList acc.reverse, cs)
  | fuel + 1, acc, '\\' :: 'u' :: a :: b :: c :: d :: cs =>
    let n := hexNumeral [a, b, c, d]
    match cs with
    | '\\' :: 'u' :: e :: f :: g :: h :: rest =>
      let m := hexNumeral [e, f, g, h]
      if Text.isHighCode n && Text.isLowCode m then readText fuel (Text.joinPair n m :: acc) rest
      else readText fuel (Text.ofCode n :: acc) cs
    | _ => readText fuel (Text.ofCode n :: acc) cs
  | fuel + 1, acc, '\\' :: c :: cs => readText fuel (unescape c :: acc) cs
  | fuel + 1, acc, c :: cs => readText fuel (c :: acc) cs

def isNumberPart (c : Char) : Bool :=
  ('0' ≤ c && c ≤ '9') || c == '-' || c == '+' || c == '.' || c == 'e' || c == 'E'

def readNumber (cs : List Char) : Option (Value × List Char) :=
  let text := cs.takeWhile isNumberPart
  let rest := cs.drop text.length
  let negative := text.head? == some '-'
  let digits := if negative then text.drop 1 else text
  if digits.isEmpty then none
  else if digits.all fun c => '0' ≤ c && c ≤ '9' then
    let n : Int := Decimal.numeral 10 digits
    some (.int (if negative then -n else n), rest)
  else
    let x := Decimal.readFloat digits
    some (.float (if negative then -x else x), rest)

def readNamed (cs : List Char) : Option (Value × List Char) :=
  let infinite : Float := 1.0 / 0.0
  [("NaN", 0.0 / 0.0), ("Infinity", infinite), ("-Infinity", -infinite)].findSome? fun (name, x) =>
    if name.toList.isPrefixOf cs then some (.float x, cs.drop name.length) else none

mutual

def readValue : (fuel : Nat) → List Char → Option (Value × List Char)
  | 0, _ => none
  | fuel + 1, cs =>
    match skipBlanks cs with
    | '"' :: cs => (readText (cs.length + 1) [] cs).map fun (s, rest) => (.text s, rest)
    | '[' :: cs =>
      match skipBlanks cs with
      | ']' :: cs => some (.list [], cs)
      | cs => readItems fuel [] cs
    | '\x7b' :: cs =>
      match skipBlanks cs with
      | '\x7d' :: cs => some (.map [], cs)
      | cs => readEntries fuel [] cs
    | 't' :: 'r' :: 'u' :: 'e' :: cs => some (.bool true, cs)
    | 'f' :: 'a' :: 'l' :: 's' :: 'e' :: cs => some (.bool false, cs)
    | 'n' :: 'u' :: 'l' :: 'l' :: cs => some (.null, cs)
    | cs => (readNamed cs).or (readNumber cs)

def readItems : (fuel : Nat) → (acc : List Value) → List Char → Option (Value × List Char)
  | 0, _, _ => none
  | fuel + 1, acc, cs =>
    match readValue fuel cs with
    | none => none
    | some (v, cs) =>
      match skipBlanks cs with
      | ',' :: cs => readItems fuel (v :: acc) cs
      | ']' :: cs => some (.list (v :: acc).reverse, cs)
      | _ => none

def readEntries : (fuel : Nat) → (acc : List (Value × Value)) → List Char → Option (Value × List Char)
  | 0, _, _ => none
  | fuel + 1, acc, cs =>
    match readValue fuel cs with
    | none => none
    | some (k, cs) =>
      match skipBlanks cs with
      | ':' :: cs =>
        match readValue fuel cs with
        | none => none
        | some (v, cs) =>
          match skipBlanks cs with
          | ',' :: cs => readEntries fuel ((k, v) :: acc) cs
          | '\x7d' :: cs => some (.map ((k, v) :: acc).reverse, cs)
          | _ => none
      | _ => none

end

def ofJson? (s : String) : Option Value :=
  let cs := s.toList
  (readValue (2 * cs.length + 2) cs).map Prod.fst

end CodeAtlas.Value
