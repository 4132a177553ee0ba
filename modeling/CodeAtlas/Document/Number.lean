import CodeAtlas.Decimal.Numeral
import CodeAtlas.Fault

/-!
# Numbers in a document

Whole numbers may be written to base 2, 8, 10, 16 and, with colons, 60, and with lines between the digits. Whether a
plain text is a number is one question; what the number is, which can also be asked of a text that only claims to be
one, is another and is answered more freely.
-/

namespace CodeAtlas.Document

/-! ## Texts that are numbers -/

def isDigitOrLine (c : Char) : Bool := c.isDigit || c == '_'

def isHexDigit (c : Char) : Bool := c.isDigit || ('a' ≤ c && c ≤ 'f') || ('A' ≤ c && c ≤ 'F')

def isSixtieth : List Char → Bool
  | [d] => d.isDigit
  | [d, e] => '0' ≤ d && d ≤ '5' && e.isDigit
  | _ => false

def startsWithDigit (cs : List Char) : Bool := cs.head?.any Char.isDigit

def isLongNumeral (cs : List Char) : Bool := startsWithDigit cs && cs.all isDigitOrLine

def isUnsignedInt : List Char → Bool
  | [] => false
  | ['0'] => true
  | '0' :: 'b' :: cs => !cs.isEmpty && cs.all fun c => c == '0' || c == '1' || c == '_'
  | '0' :: 'x' :: cs => !cs.isEmpty && cs.all fun c => isHexDigit c || c == '_'
  | '0' :: cs => cs.all fun c => ('0' ≤ c && c ≤ '7') || c == '_'
  | cs =>
    match Chars.splitOn ':' cs with
    | first :: places => isLongNumeral first && places.all isSixtieth
    | [] => false

def isInt (cs : List Char) : Bool := isUnsignedInt (Decimal.splitSign cs).2

def isExponent : List Char → Bool
  | [] => true
  | e :: sign :: ds => (e == 'e' || e == 'E') && (sign == '+' || sign == '-') && !ds.isEmpty && ds.all Char.isDigit
  | _ => false

def isFraction (cs : List Char) : Bool :=
  let places := cs.takeWhile isDigitOrLine
  isExponent (cs.drop places.length)

def isUnsignedFloat (signed : Bool) (cs : List Char) : Bool :=
  let whole := cs.takeWhile (· != '.')
  let behind := cs.drop (whole.length + 1)
  let text := String.ofList cs
  [".inf", ".Inf", ".INF"].contains text
    || (!signed && [".nan", ".NaN", ".NAN"].contains text)
    || (cs.contains '.' &&
      if whole.isEmpty then !signed && startsWithDigit behind && isFraction behind
      else if isLongNumeral whole then isFraction behind
      else match Chars.splitOn ':' whole with
        | first :: places => isLongNumeral first && places.all isSixtieth && behind.all isDigitOrLine
        | [] => false)

def isFloat (cs : List Char) : Bool :=
  let digits := (Decimal.splitSign cs).2
  isUnsignedFloat (decide (digits.length < cs.length)) digits

/-! ## Numbers of texts -/

def withoutLines (cs : List Char) : List Char := cs.filter (· != '_')

def based (base : Nat) (cs : List Char) : Except Fault Int :=
  match Decimal.whole? base cs with
  | some n => .ok n
  | none => .error .badValue

def unsignedInt : List Char → Except Fault Int
  | [] => .error .outOfRange
  | ['0'] => .ok 0
  | '0' :: 'b' :: cs => based 2 cs
  | '0' :: 'x' :: cs => based 16 cs
  | '0' :: cs => based 8 ('0' :: cs)
  | cs => do
    let places ← (Chars.splitOn ':' cs).mapM (based 10)
    return places.foldl (fun n p => n * 60 + p) 0

def readInt (cs : List Char) : Except Fault Int :=
  let (negative, digits) := Decimal.splitSign (withoutLines cs)
  (unsignedInt digits).map fun n => if negative then -n else n

def readDecimal (cs : List Char) : Except Fault Float :=
  match Decimal.fraction? cs with
  | some x => .ok x
  | none => .error .badValue

def sixtieths (places : List Float) : Float :=
  (places.foldl (fun (sum, base) p => (sum + p * Float.ofNat base, base * 60)) ((0.0 : Float), 1)).1

def unsignedFloat (cs : List Char) : Except Fault Float :=
  match String.ofList cs with
  | ".inf" => .ok (1.0 / 0.0)
  | ".nan" => .ok (0.0 / 0.0)
  | _ =>
    if cs.contains ':' then do
      let places ← (Chars.splitOn ':' cs).mapM readDecimal
      return sixtieths places.reverse
    else readDecimal cs

def readFloat (cs : List Char) : Except Fault Float :=
  match Text.lower (withoutLines cs) with
  | [] => .error .outOfRange
  | cs =>
    let (negative, digits) := Decimal.splitSign cs
    (unsignedFloat digits).map fun x => if negative then -x else x

end CodeAtlas.Document
