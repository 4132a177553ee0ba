import CodeAtlas.Text.Basic
import CodeAtlas.Text.Folding
import CodeAtlas.Text.Letter

/-!
# Numbers in texts

`numeral` and `readFloat` read digits that are known to be well formed. `whole?` and `fraction?` read what a person
wrote: blanks may stand around a number, an underscore between two digits, and the digits may be of any script.
-/

namespace CodeAtlas.Decimal

def digitOf (c : Char) : Nat :=
  if 'a' ≤ c then c.toNat - 87 else if 'A' ≤ c then c.toNat - 55 else c.toNat - 48

def numeral (base : Nat) (ds : List Char) : Nat := ds.foldl (fun n c => n * base + digitOf c) 0

def readExponent : List Char → Int
  | '-' :: ds => -(numeral 10 ds : Int)
  | '+' :: ds => numeral 10 ds
  | ds => numeral 10 ds

/-- The double nearest to `digits · 10 ^ exponent`, where `digits` has at most `count` digits. -/
def ofScientific (digits count : Nat) (exponent : Int) : Float :=
  if digits == 0 || exponent + count < -400 then 0.0
  else if 400 < exponent then 1.0 / 0.0
  else if 0 ≤ exponent then Float.ofScientific digits false exponent.toNat
  else Float.ofScientific digits true (-exponent).toNat

def readFloat (cs : List Char) : Float :=
  let mantissa := cs.takeWhile fun c => c != 'e' && c != 'E'
  let whole := mantissa.takeWhile (· != '.')
  let places := (mantissa.drop whole.length).drop 1
  let exponent := readExponent ((cs.drop mantissa.length).drop 1) - places.length
  ofScientific (numeral 10 (whole ++ places)) (whole.length + places.length) exponent

/-- The value of a decimal digit of any script. Digits come in runs of ten, each from zero on. -/
def digitIn : List Nat → Nat → Option Nat
  | first :: next :: bounds, n => if first ≤ n && n < next then some ((n - first) % 10) else digitIn bounds n
  | _, _ => none

def plainChar (c : Char) : Char :=
  if c.toNat < 127 then c
  else if Text.isBlank c then ' '
  else match digitIn Text.digitBounds c.toNat with
    | some d => Char.ofNat (48 + d)
    | none => '?'

def isSpace (c : Char) : Bool := c == ' ' || (9 ≤ c.toNat && c.toNat ≤ 13)

def splitSign : List Char → Bool × List Char
  | '-' :: cs => (true, cs)
  | '+' :: cs => (false, cs)
  | cs => (false, cs)

def plainNumber (cs : List Char) : List Char := Chars.trimBy isSpace (cs.map plainChar)

def isDigitOf (base : Nat) (c : Char) : Bool :=
  (Text.asciiDigit c || ('a' ≤ c && c ≤ 'z') || ('A' ≤ c && c ≤ 'Z')) && digitOf (Text.asciiFold c) < base

def joined? (isDigit : Char → Bool) : (before : Option Char) → List Char → Option (List Char)
  | before, '_' :: cs =>
    if before.any isDigit && cs.head?.any isDigit then joined? isDigit (some '_') cs else none
  | _, c :: cs => (joined? isDigit (some c) cs).map (c :: ·)
  | _, [] => some []

def dropBaseSign (base : Nat) : List Char → List Char
  | '0' :: letter :: cs =>
    let l := Text.asciiFold letter
    if (base == 16 && l == 'x') || (base == 8 && l == 'o') || (base == 2 && l == 'b') then
      if cs.head? == some '_' then cs.drop 1 else cs
    else '0' :: letter :: cs
  | cs => cs

def longestNumeral : Nat := 4300

def whole? (base : Nat) (cs : List Char) : Option Int := do
  let (negative, rest) := splitSign (plainNumber cs)
  let digits ← joined? (isDigitOf base) none (dropBaseSign base rest)
  if digits.isEmpty || !digits.all (isDigitOf base) || (base == 10 && longestNumeral < digits.length) then none
  let n : Int := numeral base (digits.map Text.asciiFold)
  return if negative then -n else n

def isFloatText (cs : List Char) : Bool :=
  let mantissa := cs.takeWhile fun c => c != 'e' && c != 'E'
  let behind := cs.drop mantissa.length
  let digits := (splitSign (behind.drop 1)).2
  mantissa.any Text.asciiDigit && mantissa.all (fun c => Text.asciiDigit c || c == '.')
    && (mantissa.filter (· == '.')).length ≤ 1
    && (behind.isEmpty || (!digits.isEmpty && digits.all Text.asciiDigit))

def fraction? (cs : List Char) : Option Float := do
  let (negative, rest) := splitSign (plainNumber cs)
  let size ←
    match String.ofList (rest.map Text.asciiFold) with
    | "inf" | "infinity" => some (1.0 / 0.0)
    | "nan" => some (0.0 / 0.0)
    | _ =>
      match joined? Text.asciiDigit none rest with
      | some text => if isFloatText text then some (readFloat text) else none
      | none => none
  return if negative then -size else size

end CodeAtlas.Decimal
