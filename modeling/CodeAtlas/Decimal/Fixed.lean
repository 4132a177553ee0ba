import CodeAtlas.Decimal.Basic

/-!
# A fixed number of decimal places

The exact value is rounded to the nearest decimal with the given number of places; a half goes to the
even neighbour.
-/

namespace CodeAtlas.Decimal

def scaled? (x : Float) (places : Nat) : Option (Bool × Nat) :=
  match Parts.ofFloat x with
  | .finite negative m q _ =>
    let (num, den) := scaleTwo (m * tenTo places) q
    some (negative, roundDiv num den)
  | _ => none

def pointed (n places : Nat) : List Char :=
  let whole := digits (n / tenTo places)
  if places == 0 then whole
  else
    let tail := digits (n % tenTo places)
    whole ++ '.' :: (List.replicate (places - tail.length) '0' ++ tail)

def fixed (x : Float) (places : Nat) : String :=
  match Parts.ofFloat x, scaled? x places with
  | .nan, _ => "nan"
  | .infinite negative, _ => if negative then "-inf" else "inf"
  | _, some (negative, n) => String.ofList ((if negative then ['-'] else []) ++ pointed n places)
  | _, none => ""

def roundTo (x : Float) (places : Nat) : Float :=
  match scaled? x places with
  | some (negative, n) =>
    let y := Float.ofScientific n true places
    if negative then -y else y
  | none => x

end CodeAtlas.Decimal
