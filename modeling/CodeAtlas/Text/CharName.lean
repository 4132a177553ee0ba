import CodeAtlas.Text.Basic
import CodeAtlas.Text.Folding
import CodeAtlas.Text.Letter

/-!
# Names of characters

Characters can be called by name: Latin, Greek and Cyrillic letters, signs in common use, controls by their customary names,
ideographs by their number and Korean syllables by their sounds.
-/

namespace CodeAtlas.Text

/-- Phrases that come often in the names, and the signs that stand for them in the rows. -/
def namePhrases : List (Char × String) :=
  [('!', "ACUTE"), ('c', "CAPITAL LETTER"), ('d', "DIAERESIS"), ('g', "GRAVE"), ('i', "SIGN"), ('k', "MARK"),
    ('q', "QUOTATION MARK"), ('s', "SMALL LETTER"), ('u', "CIRCUMFLEX"), ('w', "WITH")]

/-- Rows of neighbouring characters: the first one and the names, with a comma or the end of a line between two of them. A number
in front of a name says how many words it starts with as the name before it does, which are left out; if there is none, it is as
many as last time. -/
def nameRows : List (Nat × String) :=
  [
    (0x20, "SPACE,EXCLAMATIONk,q,NUMBERi,DOLLARi,PERCENTi,AMPERSAND,APOSTROPHE,LEFT PARENTHESIS,RIGHT PARENTHESIS,ASTERISK,PLUSi
    COMMA,HYPHEN-MINUS,FULL STOP,SOLIDUS,DIGIT ZERO,1ONE,TWO,THREE,FOUR,FIVE,SIX,SEVEN,EIGHT,NINE,0COLON,SEMICOLON,LESS-THANi
    EQUALSi,GREATER-THANi,QUESTIONk,COMMERCIAL AT,LATINcA,3B,C,D,E,F,G,H,I,J,K,L,M,N,O,P,Q,R,S,T,U,V,W,X,Y,Z,0LEFT SQUARE BRACKET
    REVERSE SOLIDUS,RIGHT SQUARE BRACKET,uACCENT,LOW LINE,gACCENT,LATINsA,3B,C,D,E,F,G,H,I,J,K,L,M,N,O,P,Q,R,S,T,U,V,W,X,Y,Z
    0LEFT CURLY BRACKET,VERTICAL LINE,RIGHT CURLY BRACKET,TILDE"),
    (0xA0, "NO-BREAK SPACE,INVERTED EXCLAMATIONk,CENTi,POUNDi,CURRENCYi,YENi,BROKEN BAR,SECTIONi,d,COPYRIGHTi
    FEMININE ORDINAL INDICATOR,LEFT-POINTING DOUBLE ANGLEq,NOTi,SOFT HYPHEN,REGISTEREDi,MACRON,DEGREEi,PLUS-MINUSi
    SUPERSCRIPT TWO,1THREE,0!ACCENT,MICROi,PILCROWi,MIDDLE DOT,CEDILLA,SUPERSCRIPT ONE,MASCULINE ORDINAL INDICATOR
    RIGHT-POINTING DOUBLE ANGLEq,VULGAR FRACTION ONE QUARTER,3HALF,2THREE QUARTERS,0INVERTED QUESTIONk,LATINcAwg,5!,u,TILDE,d
    RING ABOVE,3AE,CwCEDILLA,Ewg,5!,u,d,3Iwg,5!,u,d,3ETH,NwTILDE,Owg,5!,u,TILDE,d,0MULTIPLICATIONi,LATINcOwSTROKE,3Uwg,5!,u,d
    3Yw!,THORN,1sSHARP S,3Awg,5!,u,TILDE,d,RING ABOVE,3AE,CwCEDILLA,Ewg,5!,u,d,3Iwg,5!,u,d,3ETH,NwTILDE,Owg,5!,u,TILDE,d
    0DIVISIONi,LATINsOwSTROKE,3Uwg,5!,u,d,3Yw!,THORN,Ywd"),
    (0x391, "GREEKcALPHA,3BETA,GAMMA,DELTA,EPSILON,ZETA,ETA,THETA,IOTA,KAPPA,LAMDA,MU,NU,XI,OMICRON,PI,RHO"),
    (0x3A3, "GREEKcSIGMA,3TAU,UPSILON,PHI,CHI,PSI,OMEGA"),
    (0x3B1, "GREEKsALPHA,3BETA,GAMMA,DELTA,EPSILON,ZETA,ETA,THETA,IOTA,KAPPA,LAMDA,MU,NU,XI,OMICRON,PI,RHO,FINAL SIGMA,SIGMA
    TAU,UPSILON,PHI,CHI,PSI,OMEGA"),
    (0x410, "CYRILLICcA,3BE,VE,GHE,DE,IE,ZHE,ZE,I,SHORT I,KA,EL,EM,EN,O,PE,ER,ES,TE,U,EF,HA,TSE,CHE,SHA,SHCHA,HARDi,YERU,SOFTi,E
    YU,YA,1sA,3BE,VE,GHE,DE,IE,ZHE,ZE,I,SHORT I,KA,EL,EM,EN,O,PE,ER,ES,TE,U,EF,HA,TSE,CHE,SHA,SHCHA,HARDi,YERU,SOFTi,E,YU,YA"),
    (0x2010, "HYPHEN,NON-BREAKING HYPHEN,FIGURE DASH,EN DASH,EM DASH"),
    (0x2018, "LEFT SINGLEq,RIGHT SINGLEq,SINGLE LOW-9q,1HIGH-REVERSED-9q,0LEFT DOUBLEq,RIGHT DOUBLEq"),
    (0x2022, "BULLET"),
    (0x2026, "HORIZONTAL ELLIPSIS"),
    (0x2028, "LINE SEPARATOR,PARAGRAPH SEPARATOR"),
    (0x20AC, "EUROi"),
    (0x2190, "LEFTWARDS ARROW,UPWARDS ARROW,RIGHTWARDS ARROW,DOWNWARDS ARROW"),
    (0x2603, "SNOWMAN"),
    (0x1F40D, "SNAKE")]

def otherNames : List (Nat × List String) :=
  [
    (0x0, ["NUL", "NULL"]), (0x7, ["ALERT", "BEL"]), (0x8, ["BACKSPACE", "BS"]),
    (0x9, ["CHARACTER TABULATION", "HORIZONTAL TABULATION", "HT", "TAB"]),
    (0xA, ["END OF LINE", "EOL", "LF", "LINE FEED", "NEW LINE", "NL"]),
    (0xB, ["LINE TABULATION", "VERTICAL TABULATION", "VT"]), (0xC, ["FF", "FORM FEED"]),
    (0xD, ["CARRIAGE RETURN", "CR"]), (0x1A, ["SUB", "SUBSTITUTE"]), (0x1B, ["ESC", "ESCAPE"]), (0x20, ["SP"]),
    (0x7F, ["DEL", "DELETE"]), (0x85, ["NEL", "NEXT LINE"]), (0xA0, ["NBSP"]), (0xAD, ["SHY"]), (0x200B, ["ZWSP"]),
    (0x200C, ["ZWNJ"]), (0x200D, ["ZWJ"]), (0xFEFF, ["BOM", "BYTE ORDER MARK", "ZWNBSP"])]

def entryWords (entry : List Char) : List (List Char) :=
  let full := entry.flatMap fun c =>
    match namePhrases.lookup c with
    | some phrase => ' ' :: phrase.toList ++ [' ']
    | none => [c]
  (Chars.splitOn ' ' full).filter fun w => !w.isEmpty

def rowName (before : List (List Char)) (shared : Nat) : List Char → List (List Char) × Nat
  | [] => (before, shared)
  | c :: cs =>
    if asciiDigit c then (before.take (c.toNat - 48) ++ entryWords cs, c.toNat - 48)
    else (before.take shared ++ entryWords (c :: cs), shared)

def placeInRow? (name : List (List Char)) : (before : List (List Char)) → (shared : Nat) → List (List Char) → Option Nat
  | _, _, [] => none
  | before, shared, entry :: entries =>
    let (words, shared) := rowName before shared (entry.dropWhile (· == ' '))
    if words == name then some 0 else (placeInRow? name words shared entries).map (· + 1)

def inRows? (name : List Char) : Option Nat :=
  let words := Chars.splitOn ' ' name
  nameRows.findSome? fun (first, row) =>
    let entries := (Chars.splitOn '\n' row.toList).flatMap (Chars.splitOn ',')
    (placeInRow? words [] 0 entries).map (first + ·)

def ideographBounds : List Nat :=
  [0x3400, 0x4DC0, 0x4E00, 0xA000, 0x20000, 0x2A6E0, 0x2A700, 0x2B739, 0x2B740, 0x2B81E, 0x2B820, 0x2CEA2,
    0x2CEB0, 0x2EBE1, 0x30000, 0x3134B]

def isUpperHex (c : Char) : Bool := asciiDigit c || ('A' ≤ c && c ≤ 'F')

def ideograph? (digits : List Char) : Option Nat :=
  let n := digits.foldl (fun n c => n * 16 + (if asciiDigit c then c.toNat - 48 else c.toNat - 55)) 0
  if (digits.length == 4 || digits.length == 5) && digits.all isUpperHex && inRanges ideographBounds n then some n
  else none

def leadSounds : List String :=
  ["G", "GG", "N", "D", "DD", "R", "M", "B", "BB", "S", "SS", "", "J", "JJ", "C", "K", "T", "P", "H"]

def middleSounds : List String :=
  ["A", "AE", "YA", "YAE", "EO", "E", "YEO", "YE", "O", "WA", "WAE", "OE", "YO", "U", "WEO", "WE", "WI", "YU",
    "EU", "YI", "I"]

def lastSounds : List String :=
  ["", "G", "GG", "GS", "N", "NJ", "NH", "D", "L", "LG", "LM", "LB", "LS", "LT", "LP", "LH", "M", "B", "BS", "S",
    "SS", "NG", "J", "C", "K", "T", "P", "H"]

/-- The place of the longest sound with which a text starts, and what follows it. -/
def sound? (sounds : List String) (cs : List Char) : Option (Nat × List Char) :=
  let fitting := sounds.zipIdx.filter fun (s, _) => s.toList.isPrefixOf cs
  match fitting.foldl (fun (best : Option (String × Nat)) (s, i) =>
      if best.any fun (t, _) => s.length ≤ t.length then best else some (s, i)) none with
  | some (s, i) => some (i, cs.drop s.length)
  | none => none

def syllable? (cs : List Char) : Option Nat := do
  let (lead, cs) ← sound? leadSounds cs
  let (middle, cs) ← sound? middleSounds cs
  let (last, cs) ← sound? lastSounds cs
  if cs.isEmpty then some (0xAC00 + (lead * 21 + middle) * 28 + last) else none

def behind? (start : String) (cs : List Char) : Option (List Char) :=
  if start.toList.isPrefixOf cs then some (cs.drop start.length) else none

def asciiRaise (c : Char) : Char := if 'a' ≤ c && c ≤ 'z' then Char.ofNat (c.toNat - 32) else c

def charNamed? (name : List Char) : Option Char :=
  let upper := name.map asciiRaise
  let found : Option Nat :=
    match behind? "HANGUL SYLLABLE " name, behind? "CJK UNIFIED IDEOGRAPH-" name with
    | some cs, _ => syllable? cs
    | none, some cs => ideograph? cs
    | none, none =>
      match inRows? upper with
      | some n => some n
      | none => (otherNames.find? fun (entry : Nat × List String) => entry.2.contains (String.ofList upper)).map Prod.fst
  found.map Char.ofNat

end CodeAtlas.Text
