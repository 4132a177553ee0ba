import CodeAtlas.Text.Basic
import CodeAtlas.Text.Width

/-!
# Boxed tables

A table of two columns with a header, drawn with lines. The first column is aligned to the right, the
second to the left. A cell may have several lines.
-/

namespace CodeAtlas

structure Table where
  left : String
  right : String
  rows : List (String × String)
deriving Repr

namespace Table

def cellLines (cell : String) : List (List Char) := Chars.splitOn '\n' cell.toList

def cellWidth (cell : String) : Int :=
  match (cellLines cell).map Text.width with
  | [] => 0
  | w :: ws => ws.foldl max w

def columnWidth (header : String) (cells : List String) : Int :=
  cells.foldl (fun w cell => max w (cellWidth cell)) (cellWidth header)

def blanks (n : Int) : List Char := List.replicate n.toNat ' '

def alignRight (width : Int) (line : List Char) : List Char :=
  blanks (width - Text.width line) ++ line

def alignLeft (width : Int) (line : List Char) : List Char :=
  line ++ blanks (width - Text.width line)

def drawLine (wl wr : Int) (l r : List Char) : List Char :=
  '|' :: ' ' :: (alignRight wl l ++ [' ', '|', ' '] ++ alignLeft wr r ++ [' ', '|'])

def rule (wl wr : Int) : List Char :=
  let dashes (w : Int) : List Char := List.replicate (w + 2).toNat '-'
  '+' :: (dashes wl ++ '+' :: (dashes wr ++ ['+']))

def drawRow (wl wr : Int) (row : String × String) : List (List Char) :=
  let l := cellLines row.1
  let r := cellLines row.2
  let height := max l.length r.length
  let fill (ls : List (List Char)) : List (List Char) := ls ++ List.replicate (height - ls.length) []
  List.zipWith (drawLine wl wr) (fill l) (fill r)

def draw (t : Table) : String :=
  let wl := columnWidth t.left (t.rows.map Prod.fst)
  let wr := columnWidth t.right (t.rows.map Prod.snd)
  let line := rule wl wr
  let all := [line, drawLine wl wr t.left.toList t.right.toList, line]
    ++ t.rows.flatMap (drawRow wl wr) ++ [line]
  String.ofList (Chars.join ['\n'] all)

end Table

end CodeAtlas
