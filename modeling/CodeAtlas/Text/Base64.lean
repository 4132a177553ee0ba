import CodeAtlas.Text.Basic

/-!
# Bytes as letters

Four letters, each one of 64, stand for three bytes; equal signs fill up the last four. Characters that are none of
these do not count.
-/

namespace CodeAtlas.Text.Base64

def letter? (c : Char) : Option Nat :=
  let n := c.toNat
  if 'A' ≤ c && c ≤ 'Z' then some (n - 65)
  else if 'a' ≤ c && c ≤ 'z' then some (n - 71)
  else if '0' ≤ c && c ≤ '9' then some (n + 4)
  else if c == '+' then some 62
  else if c == '/' then some 63
  else none

/-- The bytes of the letters from a place on. `place` letters of the current four were read, of which `carry` is left,
and `fill` equal signs behind the last of them. Equal signs that complete the four end the bytes. -/
def decodeFrom? (place carry fill : Nat) : List Char → Option (List UInt8)
  | [] => if place == 0 then some [] else none
  | c :: cs =>
    if c == '=' then
      if 2 ≤ place && 4 ≤ place + fill + 1 then some []
      else decodeFrom? place carry (if 2 ≤ place then fill + 1 else fill) cs
    else match letter? c with
      | none => decodeFrom? place carry fill cs
      | some n =>
        match place with
        | 0 => decodeFrom? 1 n 0 cs
        | 1 => (decodeFrom? 2 (n % 16) 0 cs).map ((carry * 4 + n / 16).toUInt8 :: ·)
        | 2 => (decodeFrom? 3 (n % 4) 0 cs).map ((carry * 16 + n / 4).toUInt8 :: ·)
        | _ => (decodeFrom? 0 0 0 cs).map ((carry * 64 + n).toUInt8 :: ·)

def decode? (cs : List Char) : Option (List UInt8) := decodeFrom? 0 0 0 cs

end CodeAtlas.Text.Base64
