import CodeAtlas.Decimal.Fixed
import CodeAtlas.Fault
import CodeAtlas.Text.Basic
import CodeAtlas.Text.Letter

/-!
# Durations and their written form

A duration is a number of microseconds. Its written form shows hours, minutes, seconds and
milliseconds; whole days are left out.
-/

namespace CodeAtlas

structure Duration where
  micros : Int
deriving Repr, DecidableEq

namespace Duration

def seconds (d : Duration) : Nat := (d.micros / 1000000 % 86400).toNat

def microseconds (d : Duration) : Nat := (d.micros % 1000000).toNat

def twoDigits (n : Nat) : String :=
  Text.padLeft (String.ofList (Decimal.digits n)) 2 '0'

def field? (d : Duration) (letter : List Char) : Option String :=
  match letter with
  | ['H'] => some (twoDigits (d.seconds / 3600))
  | ['M'] => some (twoDigits (d.seconds % 3600 / 60))
  | ['S'] => some (twoDigits (d.seconds % 60))
  | ['s'] => some (String.ofList (Decimal.digits (Decimal.roundDiv d.microseconds 1000)))
  | _ => none

def isNameStart (c : Char) : Bool := Text.asciiLetter c || c == '_'

def isNamePart (c : Char) : Bool := Text.asciiAlnum c || c == '_'

def name? (cs : List Char) : Option (List Char × List Char) :=
  match cs with
  | c :: _ =>
    if isNameStart c then some (cs.takeWhile isNamePart, cs.dropWhile isNamePart) else none
  | [] => none

/-- What a percent sign introduces: a name, bare or in braces, or a second percent sign. The first part
is `none` for the latter. -/
def placeholder? (cs : List Char) : Option (Option (List Char) × List Char) :=
  match cs with
  | '%' :: rest => some (none, rest)
  | '\x7b' :: rest =>
    match name? rest with
    | some (name, '\x7d' :: rest) => some (some name, rest)
    | _ => none
  | _ => (name? cs).map fun (name, rest) => (some name, rest)

def fill (d : Duration) : (fuel : Nat) → List Char → Except Fault (List Char)
  | 0, cs => .ok cs
  | _, [] => .ok []
  | fuel + 1, '%' :: cs =>
    match placeholder? cs with
    | none => .error .badValue
    | some (none, rest) => do return '%' :: (← d.fill fuel rest)
    | some (some name, rest) =>
      match d.field? name with
      | none => .error .noSuchKey
      | some text => do return text.toList ++ (← d.fill fuel rest)
  | fuel + 1, c :: cs => do return c :: (← d.fill fuel cs)

def format (d : Duration) (template : String) : Except Fault String :=
  (d.fill (template.toList.length + 1) template.toList).map String.ofList

def display (d : Duration) : String :=
  twoDigits (d.seconds / 3600) ++ ":" ++ twoDigits (d.seconds % 3600 / 60) ++ ":"
    ++ twoDigits (d.seconds % 60) ++ " + "
    ++ String.ofList (Decimal.digits (Decimal.roundDiv d.microseconds 1000)) ++ " ms"

end Duration

end CodeAtlas
