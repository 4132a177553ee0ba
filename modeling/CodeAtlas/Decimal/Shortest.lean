import CodeAtlas.Decimal.Basic

/-!
# The shortest decimal of a double

Of all decimals that read back as a given double, `shortest` picks one with the fewest digits, and of
those the nearest. `Layout` says how the digits are laid out.
-/

namespace CodeAtlas.Decimal

def compareGrid (d : Nat) (e : Int) (num den : Nat) : Ordering :=
  if 0 ≤ e then compare (d * tenTo e.toNat * den) num
  else compare (d * den) (num * tenTo (-e).toNat)

def gridFloor (e : Int) (num den : Nat) : Nat :=
  if 0 ≤ e then num / (den * tenTo e.toNat) else num * tenTo (-e).toNat / den

/-- Twice the distance test: whether `lo · 10 ^ e` is nearer to `num / den` than `(lo + 1) · 10 ^ e`, an
even `lo` winning a tie. -/
def lowerIsNearer (lo : Nat) (e : Int) (num den : Nat) : Bool :=
  match compareGrid (2 * lo + 1) e (2 * num) den with
  | .gt => true
  | .lt => false
  | .eq => lo % 2 == 0

/-- The reals that read as one double: numerators of the lower end, the value and the upper end over
one denominator, and whether the ends belong to it. -/
structure Interval where
  low : Nat
  value : Nat
  high : Nat
  den : Nat
  closed : Bool

def Interval.contains (i : Interval) (d : Nat) (e : Int) : Bool :=
  let above := compareGrid d e i.low i.den
  let below := compareGrid d e i.high i.den
  if i.closed then above != .lt && below != .gt else above == .gt && below == .lt

/-- The decimal exponent of `num / den`: the `k` with `10 ^ k ≤ num / den < 10 ^ (k + 1)`. -/
def leadingExponent (num den : Nat) : Int :=
  if den ≤ num then (digits (num / den)).length - 1
  else
    match (List.range 400).find? fun j => den ≤ num * tenTo (j + 1) with
    | some j => -((j : Int) + 1)
    | none => 0

def searchGrid (i : Interval) (k : Int) : List Nat → Nat × Int
  | [] => (i.value / i.den, 0)
  | n :: ns =>
    let e := k - n
    let lo := gridFloor e i.value i.den
    match i.contains lo e && 0 < lo, i.contains (lo + 1) e with
    | true, true => if lowerIsNearer lo e i.value i.den then (lo, e) else (lo + 1, e)
    | true, false => (lo, e)
    | false, true => (lo + 1, e)
    | false, false => searchGrid i k ns

def dropZeros : Nat → Nat → Int → Nat × Int
  | 0, d, e => (d, e)
  | fuel + 1, d, e => if d % 10 == 0 && d != 0 then dropZeros fuel (d / 10) (e + 1) else (d, e)

/-- Digits `d` and exponent `e` of the shortest `d · 10 ^ e` that reads back as `m · 2 ^ q`, for a
positive `m`. -/
def shortest (m : Nat) (q : Int) (isolated : Bool) : Nat × Int :=
  let (value, den) := scaleTwo (4 * m) (q - 2)
  let (low, _) := scaleTwo (4 * m - (if isolated then 1 else 2)) (q - 2)
  let (high, _) := scaleTwo (4 * m + 2) (q - 2)
  let i : Interval := ⟨low, value, high, den, m % 2 == 0⟩
  let (d, e) := searchGrid i (leadingExponent value den) (List.range 20)
  dropZeros 25 d e

structure Layout where
  /-- Numbers of at least `10 ^ leastPositional` are written without an exponent … -/
  leastPositional : Int
  /-- … if they are below `10 ^ leastScientific`. -/
  leastScientific : Int
  nan : String
  infinity : String

def positional (ds : List Char) (point : Int) : List Char :=
  if point ≤ 0 then '0' :: '.' :: (List.replicate (-point).toNat '0' ++ ds)
  else
    let p := point.toNat
    if ds.length ≤ p then ds ++ List.replicate (p - ds.length) '0' ++ ['.', '0']
    else ds.take p ++ '.' :: ds.drop p

def scientific (ds : List Char) (exponent : Int) : List Char :=
  let body := match ds with
    | [] => ['0']
    | [d] => [d]
    | d :: rest => d :: '.' :: rest
  let es := digits exponent.natAbs
  body ++ 'e' :: (if exponent < 0 then '-' else '+') :: (List.replicate (2 - es.length) '0' ++ es)

def Layout.write (f : Layout) (x : Float) : String :=
  match Parts.ofFloat x with
  | .nan => f.nan
  | .infinite negative => if negative then "-" ++ f.infinity else f.infinity
  | .finite negative m q isolated =>
    let sign := if negative then ['-'] else []
    if m == 0 then String.ofList (sign ++ ['0', '.', '0'])
    else
      let (d, e) := shortest m q isolated
      let ds := digits d
      let exponent := e + ds.length - 1
      let body :=
        if f.leastPositional ≤ exponent && exponent < f.leastScientific then
          positional ds (exponent + 1)
        else scientific ds exponent
      String.ofList (sign ++ body)

def plain : Layout := ⟨-4, 16, "nan", "inf"⟩

end CodeAtlas.Decimal
