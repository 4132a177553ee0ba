/-!
# Halves of pairs

UTF-16 writes a character beyond the first 65536 as a pair of halves, numbered from `firstHalf` on.
A text can hold a half on its own, for which there is no `Char`: it is held as a private character,
`halfShift` further on. Such a half can be compared, searched for and shown, but it has no form in
UTF-8. The private characters from U+10F000 to U+10F7FF are lost to it as characters of their own,
and a half that stands for an escaped byte counts as four bytes in the name of a file, not as one.
-/

namespace CodeAtlas.Text

def firstHalf : Nat := 0xD800

def firstLowHalf : Nat := 0xDC00

def endOfHalves : Nat := 0xE000

def halfShift : Nat := 0x101800

def isHalfCode (n : Nat) : Bool := firstHalf ≤ n && n < endOfHalves

def isHighCode (n : Nat) : Bool := firstHalf ≤ n && n < firstLowHalf

def isLowCode (n : Nat) : Bool := firstLowHalf ≤ n && n < endOfHalves

def ofCode (n : Nat) : Char := Char.ofNat (if isHalfCode n then n + halfShift else n)

def isHalf (c : Char) : Bool := halfShift ≤ c.toNat && isHalfCode (c.toNat - halfShift)

def code (c : Char) : Nat := if isHalf c then c.toNat - halfShift else c.toNat

def joinPair (high low : Nat) : Char := Char.ofNat (0x10000 + (high - firstHalf) * 0x400 + (low - firstLowHalf))

end CodeAtlas.Text
