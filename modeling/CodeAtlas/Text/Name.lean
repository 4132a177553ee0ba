import CodeAtlas.Text.Letter
import CodeAtlas.Text.Width

/-!
# Names

A name starts with a letter or an underscore; further on, digits and marks of any script may stand in it too.
-/

namespace CodeAtlas.Text

/-- Bounds of the characters beyond ASCII that start a name without being letters, or are letters and start none. -/
def nameStartExceptions : List Nat := boundsAfter 0 [
    890,1,2744,1,127,1,2106,3,404,2,2193,1,21,1,49,35,2,4,3238,1,471,1,25,9,14,3,30379,10,21870,6,406,2,116,1,1,1,1,1,1,1,1,1,1,1,
    1,1,1,1,287,2,416,53,460,1,8,1,134,5,8234,111]

/-- Bounds of the characters beyond ASCII that continue a name without being digits or taking no cell, or the other way round. -/
def nameInnerExceptions : List Nat := boundsAfter 0 [
    173,1,9,1,719,1,256,2,374,6,22,1,192,1,49,1,384,2,80,1,1040,1,319,1,127,1,26,1,657,160,361,9,1180,1,118,2,339,1,227,1,1356,5,
    24,7,16,2,19,1,11,5,1,10,109,4,1,3,34187,3,12605,80,9779,2,24,3,175,1,63,1,94,2,89,3,3841,3,445,1,15,1,371,1,3262,2,1,1,48,7,
    3,5,5357,17,6,15,34890,4,5327,8,3860,1,1116,4,3851,5,789505,1,30,96]

def continuesName (c : Char) : Bool :=
  (inRanges digitBounds c.toNat || inRanges zeroWidthBounds c.toNat) != inRanges nameInnerExceptions c.toNat

def startsName (c : Char) : Bool :=
  c == '_' || isLetter c != inRanges nameStartExceptions c.toNat

def isNamePart (c : Char) : Bool :=
  startsName c || asciiDigit c || (128 ≤ c.toNat && continuesName c)

def isName : List Char → Bool
  | [] => false
  | c :: cs => startsName c && cs.all isNamePart

end CodeAtlas.Text
