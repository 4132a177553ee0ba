import CodeAtlas.Value.Basic

/-!
# Dates and times in a document

A day is written as year, month and day. The time of day may follow, and behind it the distance of the clock from
universal time.
-/

namespace CodeAtlas.Document

structure Timestamp where
  day : List (List Char)
  clock : List (List Char) := []
  fraction : List Char := []
  offset : Option (Bool × List (List Char)) := none
deriving Repr, DecidableEq

namespace Timestamp

def digits? (least : Nat) (cs : List Char) : Option (List Char × List Char) :=
  let ds := (cs.take 2).takeWhile Char.isDigit
  if least ≤ ds.length then some (ds, cs.drop ds.length) else none

def sign? (c : Char) (cs : List Char) : Option (List Char) := if cs.head? == some c then some (cs.drop 1) else none

def day? (cs : List Char) : Option (List (List Char) × List Char) := do
  let (century, cs) ← digits? 2 cs
  let (year, cs) ← digits? 2 cs
  let (month, cs) ← digits? 1 (← sign? '-' cs)
  let (day, cs) ← digits? 1 (← sign? '-' cs)
  return ([century ++ year, month, day], cs)

def isBlank (c : Char) : Bool := c == ' ' || c == '\t'

def gap? (cs : List Char) : Option (List Char) :=
  match cs with
  | 'T' :: rest | 't' :: rest => some rest
  | _ => if cs.head?.any isBlank then some (cs.dropWhile isBlank) else none

def clock? (cs : List Char) : Option (List (List Char) × List Char) := do
  let (hour, cs) ← digits? 1 cs
  let (minute, cs) ← digits? 2 (← sign? ':' cs)
  let (second, cs) ← digits? 2 (← sign? ':' cs)
  return ([hour, minute, second], cs)

def fractionOf (cs : List Char) : List Char × List Char :=
  match cs with
  | '.' :: rest => (rest.takeWhile Char.isDigit, rest.dropWhile Char.isDigit)
  | _ => ([], cs)

def distance? (cs : List Char) : Option (List (List Char) × List Char) := do
  let (hours, cs) ← digits? 1 cs
  match cs with
  | ':' :: rest =>
    let (minutes, cs) ← digits? 2 rest
    return ([hours, minutes], cs)
  | _ => return ([hours], cs)

def isEnd (cs : List Char) : Bool := cs.isEmpty || cs == ['\n']

def offset? (cs : List Char) : Option (Option (Bool × List (List Char))) :=
  if isEnd cs then some none
  else match cs.dropWhile isBlank with
    | 'Z' :: rest => if isEnd rest then some (some (false, [])) else none
    | sign :: rest =>
      if sign == '+' || sign == '-' then
        match distance? rest with
        | some (parts, rest) => if isEnd rest then some (some (sign == '-', parts)) else none
        | none => none
      else none
    | [] => none

def ofText? (cs : List Char) : Option Timestamp := do
  let (day, cs) ← day? cs
  if isEnd cs then return { day := day }
  let (clock, cs) ← clock? (← gap? cs)
  let (fraction, cs) := fractionOf cs
  return { day := day, clock := clock, fraction := fraction, offset := ← offset? cs }

def isPlain (t : Timestamp) : Bool := !t.clock.isEmpty || (t.day.drop 1).all fun ds => ds.length == 2

def part (parts : List (List Char)) (n : Nat) : Nat := Decimal.numeral 10 ((parts.drop n).headD [])

def offsetMicros (behind : Bool) (parts : List (List Char)) : Int :=
  let n : Int := ((part parts 0 * 3600 + part parts 1 * 60 : Nat) : Int) * 1000000
  if behind then -n else n

def moment (t : Timestamp) : DateTime :=
  { year := part t.day 0, month := part t.day 1, day := part t.day 2
    hour := part t.clock 0, minute := part t.clock 1, second := part t.clock 2
    micro := Decimal.numeral 10 ((t.fraction ++ List.replicate 6 '0').take 6)
    offset := t.offset.map fun (behind, parts) => offsetMicros behind parts }

def value (cs : List Char) : Except Fault Value :=
  match ofText? cs with
  | none => .error .noSuchPart
  | some t =>
    let m := t.moment
    if !m.isValid then .error .badValue
    else if t.clock.isEmpty then .ok (.atom (.date m.year m.month m.day))
    else .ok (.atom (.moment m))

end Timestamp

end CodeAtlas.Document
