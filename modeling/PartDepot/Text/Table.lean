import PartDepot.Text.Width

/-!
# Tables

Rows of cells in a frame with rounded corners.  The heading is centred, everything else stands at
the left; a column is as wide as its widest cell, with one blank on each side.
-/

namespace PartDepot.Text

def blanks (n : Nat) : String := String.ofList (List.replicate n ' ')

def atLeft (columns : Nat) (s : String) : String := s ++ blanks (columns - width s)

/-- A text between blanks; of an odd number of them the right side gets one more. -/
def centred (columns : Nat) (s : String) : String :=
  let gap := columns - width s
  blanks (gap / 2) ++ s ++ blanks (gap - gap / 2)

def columnWidths (header : List String) (rows : List (List String)) : List Nat :=
  rows.foldl (fun ws row => List.zipWith max ws (row.map width)) (header.map width)

def ruler (left joint right : String) (widths : List Nat) : String :=
  let runs := widths.map fun w => String.ofList (List.replicate (w + 2) '─')
  left ++ joint.intercalate runs ++ right

def rowText (cells : List String) : String := "│ " ++ " │ ".intercalate cells ++ " │"

def tableLines (header : List String) (rows : List (List String)) : List String :=
  let widths := columnWidths header rows
  [ruler "╭" "┬" "╮" widths, rowText (List.zipWith centred widths header),
    ruler "├" "┼" "┤" widths]
    ++ rows.map (fun row => rowText (List.zipWith atLeft widths row))
    ++ [ruler "╰" "┴" "╯" widths]

def table (header : List String) (rows : List (List String)) : String :=
  "\n".intercalate (tableLines header rows)

end PartDepot.Text
