import CodeAtlas.Language
import CodeAtlas.Version

/-!
# The command line

Options have a short and a long name. The long one may be cut off as long as one option is meant. Short ones that
take no value can be written in one word, the first of them also with an equals sign behind it. A value follows as the
next word, behind an equals sign, or directly behind a short name.
-/

namespace CodeAtlas.CommandLine

inductive Flag where
  | help
  | config
  | verbose
  | debug
  | error
  | addConfig
deriving Repr, DecidableEq, Inhabited

namespace Flag

def all : List Flag := [.help, .config, .verbose, .debug, .error, .addConfig]

def short : Flag → String
  | .help => "-h"
  | .config => "-c"
  | .verbose => "-v"
  | .debug => "-d"
  | .error => "-e"
  | .addConfig => "-a"

def long : Flag → String
  | .help => "--help"
  | .config => "--config"
  | .verbose => "--verbose"
  | .debug => "--debug"
  | .error => "--error"
  | .addConfig => "--add-config"

def valueName? : Flag → Option String
  | .config => some "YAMLCONFIG"
  | .addConfig => some "LANGUAGE"
  | _ => none

def takesValue (f : Flag) : Bool := f.valueName?.isSome

def purpose : Flag → String
  | .help => "show this help message and exit"
  | .config => "set yaml config file"
  | .verbose => "set logging level to INFO"
  | .debug => "set logging level to DEBUG"
  | .error => "set logging level to ERROR"
  | .addConfig => "add a new config from a template, where LANGUAGE is one of ["
      ++ Text.join ", " (Language.scanners.map Language.name) ++ "]"

def ofName? (s : String) : Option Flag := all.find? fun f => f.short == s || f.long == s

def ofShort? (c : Char) : Option Flag := all.find? fun f => f.short == String.ofList ['-', c]

end Flag

/-! ### Words -/

inductive Word where
  | plain (text : String)
  | divider
  | flag (f : Flag)
  | assigned (f : Flag) (value : String)
  | joined (f : Flag) (rest : List Char)
  | unknown
  | ambiguous
deriving Repr, DecidableEq

def isNegativeNumber : List Char → Bool
  | '-' :: cs =>
    let cs := if cs.getLast? == some '\n' then cs.dropLast else cs
    let whole := cs.takeWhile Text.isDigit
    match cs.drop whole.length with
    | [] => !whole.isEmpty
    | '.' :: places => !places.isEmpty && places.all Text.isDigit
    | _ => false
  | _ => false

def longWord (name : List Char) (value : Option String) : Word :=
  match Flag.all.filter fun f => name.isPrefixOf f.long.toList, value with
  | [f], some v => .assigned f v
  | [f], none => .flag f
  | [], _ => .unknown
  | _, _ => .ambiguous

def dashedWord (s : String) : Word :=
  let cs := s.toList
  let name := cs.takeWhile (· != '=')
  let value := if name.length < cs.length then some (String.ofList (cs.drop (name.length + 1))) else none
  let otherwise := if isNegativeNumber cs || cs.contains ' ' then .plain s else .unknown
  match Flag.ofName? (String.ofList name), value with
  | some f, some v =>
    if f.takesValue || v == "" || f.long.toList == name then .assigned f v else .joined f v.toList
  | _, _ =>
    match cs with
    | '-' :: '-' :: _ =>
      match longWord name value with
      | .unknown => otherwise
      | w => w
    | '-' :: c :: rest =>
      match Flag.ofShort? c with
      | some f => .joined f rest
      | none => otherwise
    | _ => .plain s

def Word.ofText (s : String) : Word :=
  match s.toList, Flag.ofName? s with
  | _, some f => .flag f
  | '-' :: _ :: _, none => dashedWord s
  | _, none => .plain s

def words : List String → List Word
  | [] => []
  | "--" :: rest => .divider :: rest.map Word.plain
  | s :: rest => Word.ofText s :: words rest

/-! ### Options -/

structure Options where
  config : Option String := none
  verbose : Bool := false
  debug : Bool := false
  error : Bool := false
  language : Option String := none
deriving Repr, DecidableEq, Inhabited

def Options.isEmpty (o : Options) : Bool := o == {}

inductive Request where
  | run (options : Options)
  | help
  | refused
deriving Repr, DecidableEq, Inhabited

def Options.switch (o : Options) : Flag → Options
  | .verbose => { o with verbose := true }
  | .debug => { o with debug := true }
  | .error => { o with error := true }
  | _ => o

def Options.assign (o : Options) (f : Flag) (value : String) : Options :=
  match f with
  | .config => { o with config := some value }
  | .addConfig => { o with language := some value }
  | _ => o

/-- The options that are written in one word: those without a value, and the last one with what is left of the word
for its value. -/
def together (f : Flag) : List Char → Option (List Flag × Flag × Option String)
  | [] => some ([], f, none)
  | c :: cs =>
    if f.takesValue then some ([], f, some (String.ofList (c :: cs)))
    else match Flag.ofShort? c with
      | none => none
      | some g => (together g cs).map fun (before, last, value) => (f :: before, last, value)

def withValue (o : Options) (f : Flag) (value : Option String) (rest : List Word)
    (continue_ : Options → List Word → Request) : Request :=
  if f.takesValue then
    match value, rest with
    | some v, rest => continue_ (o.assign f v) rest
    | none, .plain v :: rest => continue_ (o.assign f v) rest
    | none, _ => .refused
  else if value.isSome then .refused
  else if f = .help then .help
  else continue_ (o.switch f) rest

/-- Reads the words one after the other. A word that belongs to no option is refused in the end; help is given before
that. -/
def read : (fuel : Nat) → Options → (stray : Bool) → List Word → Request
  | 0, _, _, _ => .refused
  | _ + 1, o, stray, [] => if stray then .refused else .run o
  | fuel + 1, o, stray, w :: rest =>
    match w with
    | .plain _ | .divider | .unknown => read fuel o true rest
    | .ambiguous => .refused
    | .flag f => withValue o f none rest fun o rest => read fuel o stray rest
    | .assigned f v => withValue o f (some v) rest fun o rest => read fuel o stray rest
    | .joined f cs =>
      match together f cs with
      | none => .refused
      | some (before, last, value) =>
        if last.takesValue && value.isNone && !(rest.head?.any fun w => w matches .plain _) then .refused
        else if before.contains .help then .help
        else withValue (before.foldl Options.switch o) last value rest fun o rest => read fuel o stray rest

def Request.ofArguments (arguments : List String) : Request :=
  let ws := words arguments
  if ws.contains .ambiguous then .refused else read (ws.length + 1) {} false ws

/-! ### Help -/

def width : Nat := 78

def purposeColumn : Nat := 24

def Flag.usage (f : Flag) : String :=
  match f.valueName? with
  | some v => "[" ++ f.short ++ " " ++ v ++ "]"
  | none => "[" ++ f.short ++ "]"

def Flag.heading (f : Flag) : String :=
  match f.valueName? with
  | some v => f.short ++ " " ++ v ++ ", " ++ f.long ++ " " ++ v
  | none => f.short ++ ", " ++ f.long

def spaces (n : Nat) : String := String.ofList (List.replicate n ' ')

def fill (width indent : Nat) : (used : Nat) → (line : List String) → List String → List (List String)
  | _, [], [] => []
  | _, line, [] => [line]
  | used, line, piece :: rest =>
    if width < used + piece.length && !line.isEmpty then
      line :: fill width indent (indent + piece.length + 1) [piece] rest
    else fill width indent (used + piece.length + 1) (line ++ [piece]) rest

def lines (indent : Nat) (xs : List (List String)) : String :=
  Text.join ("\n" ++ spaces indent) (xs.map (Text.join " "))

/-- How the program is called. A long line is broken below the name of the program, or below the first word if the
name itself is long. -/
def usageText (program : String) : String :=
  let lead := "usage: "
  let pieces := Flag.all.map Flag.usage
  let line := lead ++ Text.join " " ((program :: pieces).filter (· != ""))
  if line.length ≤ width then line
  else if 4 * (lead.length + program.length) ≤ 3 * width then
    let indent := lead.length + program.length + 1
    lead ++ lines indent (fill width indent lead.length [] (program :: pieces))
  else
    lead ++ program ++ "\n" ++ spaces lead.length
      ++ lines lead.length (fill width lead.length lead.length [] pieces)

def flagText (f : Flag) : String :=
  let heading := "  " ++ f.heading
  let purpose := lines purposeColumn (fill (width - purposeColumn) 0 0 [] (Text.splitOn f.purpose ' '))
  if heading.length + 2 ≤ purposeColumn then
    heading ++ spaces (purposeColumn - heading.length) ++ purpose
  else heading ++ "\n" ++ spaces purposeColumn ++ purpose

def closeUp : (breaks : Nat) → List Char → List Char
  | _, [] => []
  | breaks, c :: cs =>
    if c != '\n' then c :: closeUp 0 cs
    else if breaks < 2 then c :: closeUp (breaks + 1) cs
    else closeUp breaks cs

def helpText (calledAs : String) : String :=
  let program := ((Text.splitOn calledAs '/').getLast?).getD ""
  let text := usageText program ++ "\n\n🔎 Welcome to Graph Code Mapper " ++ version ++ "\n\noptions:\n"
    ++ Text.join "\n" (Flag.all.map flagText) ++ "\n"
  String.ofList (closeUp 0 text.toList)

end CodeAtlas.CommandLine
