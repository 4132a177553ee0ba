import CodeAtlas.Decimal.Numeral

/-!
# Complex numbers in texts

A complex number is written as a fraction, as a fraction with a `j`, or as both with a sign between them. Brackets may
stand around it and blanks around either.
-/

namespace CodeAtlas.Decimal

def exponentLength : List Char → Nat
  | e :: cs =>
    let signs := cs.length - (splitSign cs).2.length
    let digits := ((splitSign cs).2.takeWhile Text.asciiDigit).length
    if (e == 'e' || e == 'E') && digits != 0 then 1 + signs + digits else 0
  | [] => 0

def sizeLength (cs : List Char) : Nat :=
  let startsWith (word : String) : Bool := (cs.take word.length).map Text.asciiFold == word.toList
  if startsWith "infinity" then 8
  else if startsWith "inf" || startsWith "nan" then 3
  else
    let whole := (cs.takeWhile Text.asciiDigit).length
    let behind := cs.drop whole
    let places := if behind.head? == some '.' then ((behind.drop 1).takeWhile Text.asciiDigit).length else 0
    let point := if behind.head? == some '.' then 1 else 0
    if whole + places == 0 then 0
    else whole + point + places + exponentLength (behind.drop (point + places))

def leadingFraction? (cs : List Char) : Option (Float × List Char) :=
  let digits := (splitSign cs).2
  let n := sizeLength digits
  if n == 0 then none
  else (fraction? (cs.take (cs.length - digits.length + n))).map fun x => (x, digits.drop n)

def dropUnit? : List Char → Option (List Char)
  | 'j' :: cs | 'J' :: cs => some cs
  | _ => none

def signedOne (cs : List Char) : Float × List Char :=
  let (negative, rest) := splitSign cs
  (if negative then -1.0 else 1.0, rest)

def leadingComplex? (cs : List Char) : Option ((Float × Float) × List Char) :=
  match leadingFraction? cs with
  | none => do
    let (y, rest) := signedOne cs
    return ((0.0, y), ← dropUnit? rest)
  | some (x, rest) =>
    match rest with
    | '+' :: _ | '-' :: _ => do
      let (y, rest) := (leadingFraction? rest).getD (signedOne rest)
      return ((x, y), ← dropUnit? rest)
    | _ =>
      match dropUnit? rest with
      | some rest => some ((0.0, x), rest)
      | none => some ((x, 0.0), rest)

def complex? (cs : List Char) : Option (Float × Float) := do
  let cs ← joined? Text.asciiDigit none (plainNumber cs)
  match cs with
  | '(' :: inner =>
    let (z, rest) ← leadingComplex? (inner.dropWhile isSpace)
    if rest.dropWhile isSpace == [')'] then return z else none
  | _ =>
    let (z, rest) ← leadingComplex? cs
    if rest.isEmpty then return z else none

end CodeAtlas.Decimal
