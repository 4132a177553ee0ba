import CodeAtlas.Value.Basic

/-!
# Durations from numbers of units

A duration may be given as so many weeks, days, hours and so on. Whole numbers are counted exactly. The parts of fractions
that are less than a microsecond are summed up, and their sum is rounded in the end: a half goes to the even
neighbour of the whole count.
-/

namespace CodeAtlas.Duration

def units : List (String × Nat) :=
  [("microseconds", 1), ("milliseconds", 1000), ("seconds", 1000000), ("minutes", 60000000), ("hours", 3600000000),
    ("days", 86400000000), ("weeks", 604800000000)]

structure Count where
  whole : Int := 0
  left : Float := 0

namespace Count

def add (c : Count) (unit : Nat) (v : Value) : Except Fault Count :=
  match v.asInt?, v with
  | some n, _ => .ok { c with whole := c.whole + n * unit }
  | none, .float x =>
    match Decimal.truncate? x with
    | none => .error (if x.isNaN then .badValue else .tooLarge)
    | some n =>
      let part := Float.ofNat unit * (x - Float.ofInt n)
      let m := (Decimal.truncate? part).getD 0
      .ok ⟨c.whole + n * unit + m, c.left + (part - Float.ofInt m)⟩
  | none, _ => .error .wrongKind

def rounded (c : Count) : Int :=
  let near := c.left.round
  let x :=
    if (near - c.left).abs == 0.5 then
      let odd : Float := if c.whole % 2 == 0 then 0 else 1
      2 * ((c.left + odd) * 0.5).round - odd
    else near
  (Decimal.truncate? x).getD 0

end Count

def maxDays : Int := 999999999

def ofMicros (n : Int) : Except Fault Duration :=
  let days := n / 86400000000
  if -maxDays ≤ days && days ≤ maxDays then .ok ⟨n⟩ else .error .tooLarge

def ofUnits (parts : List (String × Value)) : Except Fault Duration := do
  if parts.any fun (name, _) => (units.lookup name).isNone then throw .wrongKind
  let c ← units.foldlM
    (fun (c : Count) (name, unit) =>
      match parts.lookup name with
      | some v => c.add unit v
      | none => .ok c)
    {}
  ofMicros (c.whole + c.rounded)

end CodeAtlas.Duration
