import CodeAtlas.Decimal.Numeral
import CodeAtlas.Duration

/-!
# Dates and times

A date with the time of day, as it stands on a clock, and the distance of that clock from universal time if
it is known. `DateTime.ofMicros` reads a count of microseconds since the start of 1970; `DateTime.ofIso?` reads
the international form, in which a day is given by its month or by its week.
-/

namespace CodeAtlas

structure DateTime where
  year : Nat
  month : Nat
  day : Nat
  hour : Nat := 0
  minute : Nat := 0
  second : Nat := 0
  micro : Nat := 0
  offset : Option Int := none
deriving Repr, DecidableEq, Inhabited

namespace DateTime

/-- Year, month and day of a day counted from the start of 1970. Years are counted from March on, so that the
leap day is the last of its year. -/
def civil (day : Int) : Nat × Nat × Nat :=
  let z := day + 719468
  let era := z / 146097
  let doe := (z - era * 146097).toNat
  let yoe := (doe - doe / 1460 + doe / 36524 - doe / 146096) / 365
  let doy := doe - (365 * yoe + yoe / 4 - yoe / 100)
  let mp := (5 * doy + 2) / 153
  let d := doy - (153 * mp + 2) / 5 + 1
  let m := if mp < 10 then mp + 3 else mp - 9
  let y := (yoe : Int) + era * 400 + (if m ≤ 2 then 1 else 0)
  (y.toNat, m, d)

def dayNumber (year month day : Nat) : Int :=
  let y : Int := (year : Int) - (if month ≤ 2 then 1 else 0)
  let era := y / 400
  let yoe := (y - era * 400).toNat
  let doy := (153 * (if 2 < month then month - 3 else month + 9) + 2) / 5 + day - 1
  let doe := yoe * 365 + yoe / 4 - yoe / 100 + doy
  era * 146097 + doe - 719468

def isLeapYear (year : Nat) : Bool := year % 4 == 0 && (year % 100 != 0 || year % 400 == 0)

def daysInMonth (year month : Nat) : Nat :=
  if month == 2 then (if isLeapYear year then 29 else 28)
  else if [4, 6, 9, 11].contains month then 30
  else 31

def isDay (year month day : Nat) : Bool :=
  1 ≤ year && year ≤ 9999 && 1 ≤ month && month ≤ 12 && 1 ≤ day && day ≤ daysInMonth year month

def dayLength : Int := 86400000000

def isValid (t : DateTime) : Bool :=
  isDay t.year t.month t.day && t.hour < 24 && t.minute < 60 && t.second < 60
    && t.offset.all fun o => -dayLength < o && o < dayLength

def clockMicros (t : DateTime) : Int :=
  dayNumber t.year t.month t.day * dayLength
    + ((t.hour * 3600 + t.minute * 60 + t.second : Nat) : Int) * 1000000 + t.micro

/-- Whether two times are the same. A clock whose distance from universal time is known is never the same as one whose
distance is not. -/
def same (s t : DateTime) : Bool :=
  match s.offset, t.offset with
  | some a, some b => s.clockMicros - a == t.clockMicros - b
  | none, none => s.clockMicros == t.clockMicros
  | _, _ => false

def ofMicros (micros : Int) : DateTime :=
  let (y, m, d) := civil (micros / 86400000000)
  let rest := (micros % 86400000000).toNat
  { year := y, month := m, day := d
    hour := rest / 3600000000
    minute := rest / 60000000 % 60
    second := rest / 1000000 % 60
    micro := rest % 1000000 }

def inRange (micros : Int) : Bool :=
  dayNumber 1 1 1 * dayLength ≤ micros && micros < dayNumber 10000 1 1 * dayLength

def padded (width n : Nat) : String := Text.padLeft (String.ofList (Decimal.digits n)) width '0'

def offsetText (sep : String) (offset : Int) : String :=
  let n := offset.natAbs / 1000000
  let micro := offset.natAbs % 1000000
  let fraction := if micro == 0 then "" else "." ++ padded 6 micro
  (if offset < 0 then "-" else "+") ++ padded 2 (n / 3600) ++ sep ++ padded 2 (n / 60 % 60)
    ++ (if n % 60 == 0 && micro == 0 then "" else sep ++ padded 2 (n % 60) ++ fraction)

def offsetSuffix (sep : String) (t : DateTime) : String := (t.offset.map (offsetText sep)).getD ""

def clock (t : DateTime) : String :=
  padded 2 t.hour ++ ":" ++ padded 2 t.minute ++ ":" ++ padded 2 t.second

def dateText (year month day : Nat) : String := padded 4 year ++ "-" ++ padded 2 month ++ "-" ++ padded 2 day

/-- The international form, with `sep` behind the date; a fraction of zero is left out. -/
def isoWith (sep : String) (t : DateTime) : String :=
  dateText t.year t.month t.day ++ sep ++ t.clock
    ++ (if t.micro == 0 then "" else "." ++ padded 6 t.micro) ++ t.offsetSuffix ":"

def iso (t : DateTime) : String := t.isoWith "T"

def precise (t : DateTime) : String :=
  padded 1 t.year ++ "-" ++ padded 2 t.month ++ "-" ++ padded 2 t.day ++ "T" ++ t.clock
    ++ "." ++ padded 6 t.micro ++ t.offsetSuffix ""

def dayFirst (t : DateTime) : String :=
  padded 2 t.day ++ "/" ++ padded 2 t.month ++ "/" ++ padded 1 t.year

def monthFirst (t : DateTime) : String :=
  padded 2 t.month ++ "/" ++ padded 2 t.day ++ "/" ++ padded 1 t.year ++ ", " ++ t.clock

/-! ### Reading the international form -/

def takeDigits? (n : Nat) (cs : List Char) : Option (Nat × List Char) :=
  let ds := cs.take n
  if ds.length == n && ds.all Text.asciiDigit then some (Decimal.numeral 10 ds, cs.drop n) else none

/-- The number of characters in front of the sign between date and time. Where the day is given by its week, the digits
behind it decide: those of a time come in pairs. -/
def dateLength (cs : List Char) : Nat :=
  let at? (i : Nat) : Option Char := (cs.drop i).head?
  if cs.length == 7 then 7
  else if at? 4 == some '-' then
    if at? 5 == some 'W' then
      if at? 8 == some '-' && !(at? 10).any Text.asciiDigit then 10 else 8
    else 10
  else if at? 4 == some 'W' then
    let stop := 7 + ((cs.drop 7).takeWhile Text.asciiDigit).length
    if stop < 9 then stop else if stop % 2 == 0 then 7 else 8
  else 8

/-- The Monday of the first week of a year: the week that has the first Thursday. -/
def firstMonday (year : Nat) : Int :=
  let first := dayNumber year 1 1
  let weekday := (first + 3) % 7
  if 3 < weekday then first - weekday + 7 else first - weekday

def weeksIn (year : Nat) : Nat := if firstMonday (year + 1) - firstMonday year == 371 then 53 else 52

def ofWeek? (year week day : Nat) : Option (Nat × Nat × Nat) :=
  if 1 ≤ year && year ≤ 9999 && 1 ≤ week && week ≤ weeksIn year && 1 ≤ day && day ≤ 7 then
    some (civil (firstMonday year + ((week - 1) * 7 + (day - 1) : Nat)))
  else none

def skipDash? (dashed : Bool) (cs : List Char) : Option (List Char) :=
  if !dashed then some cs
  else match cs with
    | '-' :: rest => some rest
    | _ => none

def readDate? (cs : List Char) : Option (Nat × Nat × Nat) := do
  let (y, cs) ← takeDigits? 4 cs
  let dashed := cs.head? == some '-'
  let cs := if dashed then cs.drop 1 else cs
  match cs with
  | 'W' :: cs =>
    let (w, cs) ← takeDigits? 2 cs
    if cs.isEmpty then ofWeek? y w 1
    else
      let (d, _) ← takeDigits? 1 (← skipDash? dashed cs)
      ofWeek? y w d
  | _ =>
    let (m, cs) ← takeDigits? 2 cs
    let (d, _) ← takeDigits? 2 (← skipDash? dashed cs)
    return (y, m, d)

structure Reading where
  parts : List Nat
  micro : Nat := 0
  leftover : Bool

def readFraction? (parts : List Nat) (followed : Bool) (cs : List Char) : Option Reading :=
  let ds := cs.take 6
  if ds.all Text.asciiDigit then
    let rest := (cs.drop 6).dropWhile Text.asciiDigit
    some ⟨parts, Decimal.numeral 10 ((ds ++ List.replicate 6 '0').take 6), followed || !rest.isEmpty⟩
  else none

/-- Hours, minutes and seconds, of which `left` more may come. `colons` says whether colons stand between them, and
`followed` whether an offset follows the text. -/
def readParts? (followed : Bool) : (left : Nat) → (parts : List Nat) → (colons : Option Bool) → List Char → Option Reading
  | 0, parts, _, cs => readFraction? parts followed cs
  | left + 1, parts, colons, cs =>
    match takeDigits? 2 cs with
    | none => none
    | some (n, cs) =>
      let parts := parts ++ [n]
      let colons := colons.getD (cs.head? == some ':')
      match cs with
      | [] => some ⟨parts, 0, followed⟩
      | [c] => if c.toNat < 128 then some ⟨parts, 0, true⟩ else none
      | c :: rest =>
        if colons && c == ':' then readParts? followed left parts (some colons) rest
        else if c == '.' || c == ',' then readFraction? parts followed rest
        else if !colons then readParts? followed left parts (some colons) (c :: rest)
        else none

def Reading.micros (r : Reading) : Int :=
  match r.parts with
  | h :: m :: s :: _ => ((h * 3600 + m * 60 + s : Nat) : Int) * 1000000 + r.micro
  | [h, m] => ((h * 3600 + m * 60 : Nat) : Int) * 1000000 + r.micro
  | [h] => ((h * 3600 : Nat) : Int) * 1000000 + r.micro
  | [] => r.micro

def readOffset? (negative : Bool) (cs : List Char) : Option Int := do
  let r ← readParts? false 3 [] none cs
  if r.leftover then none
  return if r.micros < 1000000 then 0 else if negative then -r.micros else r.micros

def startsOffset (c : Char) : Bool := c == '+' || c == '-' || c == 'Z'

def readTime? (cs : List Char) : Option (Reading × Option Int) := do
  let time := cs.takeWhile fun c => !startsOffset c
  match cs.drop time.length with
  | [] =>
    let r ← readParts? false 3 [] none time
    if r.leftover then none else return (r, none)
  | sign :: rest =>
    let r ← readParts? true 3 [] none time
    if sign == 'Z' then
      if rest.isEmpty then return (r, some 0) else none
    else return (r, some (← readOffset? (sign == '-') rest))

def ofIso? (s : String) : Option DateTime := do
  let cs := s.toList
  let n := dateLength cs
  let (year, month, day) ← readDate? (cs.take n)
  let t ← match cs.drop n with
    | [] => some { year := year, month := month, day := day }
    | _ :: rest => do
      let (r, offset) ← readTime? rest
      some
        { year := year, month := month, day := day
          hour := r.parts.headD 0
          minute := (r.parts.drop 1).headD 0
          second := (r.parts.drop 2).headD 0
          micro := r.micro
          offset := offset }
  if t.isValid then some t else none

end DateTime

end CodeAtlas
