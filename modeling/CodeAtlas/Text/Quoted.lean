import CodeAtlas.Decimal.Basic
import CodeAtlas.Text.Half
import CodeAtlas.Text.Printable

/-!
# Quoted texts

Two ways to write a text between quotes: for people (`quoted`), where printable characters of every
script stand for themselves, and in plain ASCII (`asciiQuoted`), where they are given by their UTF-16
units.
-/

namespace CodeAtlas.Text

def hexDigit (n : Nat) : Char :=
  if n < 10 then Char.ofNat (48 + n) else Char.ofNat (87 + n)

def hex : (width n : Nat) → List Char
  | 0, _ => []
  | width + 1, n => hex width (n / 16) ++ [hexDigit (n % 16)]

def quotedChar (quote c : Char) : List Char :=
  if c == quote || c == '\\' then ['\\', c]
  else if c == '\n' then ['\\', 'n']
  else if c == '\r' then ['\\', 'r']
  else if c == '\t' then ['\\', 't']
  else if isPrintable c then [c]
  else if code c < 0x100 then '\\' :: 'x' :: hex 2 (code c)
  else if code c < 0x10000 then '\\' :: 'u' :: hex 4 (code c)
  else '\\' :: 'U' :: hex 8 (code c)

def quoted (s : String) : String :=
  let cs := s.toList
  let quote := if cs.contains '\x27' && !cs.contains '"' then '"' else '\x27'
  String.ofList (quote :: (cs.flatMap (quotedChar quote) ++ [quote]))

def unitEscapes (c : Char) : List Char :=
  let n := code c
  if n < 0x10000 then '\\' :: 'u' :: hex 4 n
  else
    '\\' :: 'u' :: (hex 4 (0xD800 + (n - 0x10000) / 0x400)
      ++ '\\' :: 'u' :: hex 4 (0xDC00 + (n - 0x10000) % 0x400))

def asciiQuotedChar (c : Char) : List Char :=
  if c == '"' || c == '\\' then ['\\', c]
  else if c == '\n' then ['\\', 'n']
  else if c == '\r' then ['\\', 'r']
  else if c == '\t' then ['\\', 't']
  else if c.toNat == 8 then ['\\', 'b']
  else if c.toNat == 12 then ['\\', 'f']
  else if ' ' ≤ c && c ≤ '~' then [c]
  else unitEscapes c

def asciiQuoted (s : String) : String :=
  String.ofList ('"' :: (s.toList.flatMap asciiQuotedChar ++ ['"']))

end CodeAtlas.Text
