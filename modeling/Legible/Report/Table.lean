/-!
# Tables

A table of two columns in a frame with rounded corners. Cells are aligned to the left with a space
on each side, a column is as wide as its widest cell, and a rule stands below the header.
-/

namespace Legible.Report

abbrev Row := String × String

def pad (width : Nat) (s : String) : String :=
  s ++ String.ofList (List.replicate (width - s.length) ' ')

def columnWidth (cells : List String) : Nat := (cells.map String.length).foldl max 0

/-- A horizontal line of the frame, with the given ends and crossing. -/
def rule (left cross right : String) (widths : Nat × Nat) : String :=
  let bar (width : Nat) := String.ofList (List.replicate (width + 2) '─')
  left ++ bar widths.1 ++ cross ++ bar widths.2 ++ right

def rowLine (widths : Nat × Nat) (row : Row) : String :=
  "│ " ++ pad widths.1 row.1 ++ " │ " ++ pad widths.2 row.2 ++ " │"

/-- The table with the given header and rows, without a final line feed. -/
def table (header : Row) (rows : List Row) : String :=
  let all := header :: rows
  let widths := (columnWidth (all.map Prod.fst), columnWidth (all.map Prod.snd))
  "\n".intercalate <|
    [rule "╭" "┬" "╮" widths, rowLine widths header, rule "├" "┼" "┤" widths]
      ++ rows.map (rowLine widths) ++ [rule "╰" "┴" "╯" widths]

end Legible.Report
