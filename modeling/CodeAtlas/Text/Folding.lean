import CodeAtlas.Text.Case

/-!
# Comparing without regard to case

Two characters differ in case only if their lower-case forms are equal or next of kin: a few lower-case characters
have the same upper-case form, such as `s` and the long `ſ`.
-/

namespace CodeAtlas.Text

def kinGroups : List (List Nat) :=
  [
    [0x69, 0x131], [0x73, 0x17F], [0xB5, 0x3BC], [0x345, 0x3B9, 0x1FBE], [0x390, 0x1FD3], [0x3B0, 0x1FE3],
    [0x3B2, 0x3D0], [0x3B5, 0x3F5], [0x3B8, 0x3D1], [0x3BA, 0x3F0], [0x3C0, 0x3D6], [0x3C1, 0x3F1],
    [0x3C2, 0x3C3], [0x3C6, 0x3D5], [0x432, 0x1C80], [0x434, 0x1C81], [0x43E, 0x1C82], [0x441, 0x1C83],
    [0x442, 0x1C84, 0x1C85], [0x44A, 0x1C86], [0x463, 0x1C87], [0x1C88, 0xA64B], [0x1E61, 0x1E9B],
    [0xFB05, 0xFB06]]

def kin (c : Char) : List Char :=
  match kinGroups.find? (·.contains c.toNat) with
  | some group => group.map Char.ofNat
  | none => [c]

def fold (c : Char) : Char := (lowerChar c).headD c

def asciiFold (c : Char) : Char := if 'A' ≤ c && c ≤ 'Z' then Char.ofNat (c.toNat + 32) else c

def raised (d : Char) : List Char :=
  let ascii := if 'a' ≤ d && d ≤ 'z' then [Char.ofNat (d.toNat - 32)] else []
  let dotted := if d == 'i' then ['\u0130'] else []
  [d] ++ ascii ++ dotted ++ lowerRuns.filterMap fun (first, last, step, shift) =>
    let n := Int.toNat (d.toNat - shift)
    if inRun first last step n && (n : Int) + shift == d.toNat then some (Char.ofNat n) else none

def caseForms (c : Char) : List Char := (kin (fold c)).flatMap raised

def asciiCaseForms (c : Char) : List Char :=
  let d := asciiFold c
  if 'a' ≤ d && d ≤ 'z' then [d, Char.ofNat (d.toNat - 32)] else [d]

end CodeAtlas.Text
