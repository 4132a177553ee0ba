import CodeAtlas.Value.Basic

/-!
# Indentation as a measure of complexity

A line of code counts one for every tab and a quarter for every blank of its indent. Complexity is
kept as a number of quarters, which is exact.
-/

namespace CodeAtlas.Whitespace

def tabs (line : List Char) : Nat :=
  ((line.filter (· != ' ')).takeWhile (· == '\t')).length

def spaces (line : List Char) : Nat :=
  ((line.filter (· != '\t')).takeWhile (· == ' ')).length

def isCode (line : List Char) : Bool := !line.all Text.isBlank

def quarters (line : List Char) : Nat := 4 * tabs line + spaces line

def codeLines (source : List Char) : List (List Char) := (Chars.splitOn '\n' source).filter isCode

def lineQuarters (source : List Char) : List Nat := (codeLines source).map quarters

def totalQuarters (source : List Char) : Nat := Decimal.total (lineQuarters source)

def fraction (q : Nat) : Value := .float (Float.ofNat q / 4)

def complexity (source : String) : Value :=
  match lineQuarters source.toList with
  | [] => .int 0
  | qs => fraction (Decimal.total qs)

end CodeAtlas.Whitespace
