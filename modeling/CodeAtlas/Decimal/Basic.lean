/-!
# Binary fractions as exact numbers

A finite double is `± m · 2 ^ q` with natural `m`. Everything printed about a double is computed from
`m` and `q` in natural numbers.
-/

namespace CodeAtlas.Decimal

def twoTo (n : Nat) : Nat := Nat.pow 2 n

def tenTo (n : Nat) : Nat := Nat.pow 10 n

def total (ns : List Nat) : Nat := ns.foldl (· + ·) 0

inductive Parts where
  | nan
  | infinite (negative : Bool)
  /-- `± mantissa · 2 ^ exponent`; `isolated` marks a power of two whose lower neighbour is at half the
  distance of the upper one. -/
  | finite (negative : Bool) (mantissa : Nat) (exponent : Int) (isolated : Bool)
deriving Repr

def Parts.ofFloat (x : Float) : Parts :=
  let bits := x.toBits.toNat
  let negative := bits / twoTo 63 == 1
  let biased : Nat := bits / twoTo 52 % twoTo 11
  let fraction := bits % twoTo 52
  if biased == 2047 then
    if fraction == 0 then .infinite negative else .nan
  else if biased == 0 then .finite negative fraction (-1074) false
  else .finite negative (fraction + twoTo 52) ((biased : Int) - 1075) (fraction == 0 && 1 < biased)

def roundDiv (num den : Nat) : Nat :=
  let q := num / den
  let r := num % den
  if 2 * r < den then q
  else if den < 2 * r then q + 1
  else if q % 2 == 0 then q else q + 1

def scaleTwo (a : Nat) (q : Int) : Nat × Nat :=
  if 0 ≤ q then (a * twoTo q.toNat, 1) else (a, twoTo (-q).toNat)

def truncate? (x : Float) : Option Int :=
  match Parts.ofFloat x with
  | .finite negative m q _ =>
    let (num, den) := scaleTwo m q
    some (if negative then -((num / den : Nat) : Int) else ((num / den : Nat) : Int))
  | _ => none

def digits (n : Nat) : List Char := Nat.toDigits 10 n

end CodeAtlas.Decimal
