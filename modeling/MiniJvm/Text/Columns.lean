import MiniJvm.Text.Bytes
import MiniJvm.Text.Utf8

/-!
# Columns

Lays out text whose cells end with tabs. The cells of consecutive lines that stand at the same
place and end with a tab form a column, which is as wide as its widest cell and two blanks. What
follows the last tab of a line belongs to no column. A form feed ends a line like a line feed, but
no column goes on after it. Between two bytes 0xFF nothing ends a cell; these bytes are kept, and
have no width.
-/

namespace MiniJvm.Columns

def padding : Nat := 2

/-- The byte before and after text in which nothing ends a cell. -/
def quote : UInt8 := 255

/-- The lines whose columns have nothing to do with other lines; each is a list of its cells. -/
abbrev Section := List (List Bytes)

/-- A text that is being cut into cells. What is collected is kept backwards. -/
structure Cutting where
  sections : List Section := []
  lines : Section := []
  cells : List Bytes := []
  cell : Bytes := []
  quoted : Bool := false

namespace Cutting

def endCell (c : Cutting) : Cutting := { c with cells := c.cell.reverse :: c.cells, cell := [] }

def endLine (c : Cutting) : Cutting := { c with lines := c.cells.reverse :: c.lines, cells := [] }

def endSection (c : Cutting) : Cutting :=
  { c with sections := c.lines.reverse :: c.sections, lines := [] }

/-- Adds a byte to the cell; a quote changes whether the next bytes are quoted. -/
def addByte (c : Cutting) (b : UInt8) : Cutting :=
  { c with cell := b :: c.cell, quoted := c.quoted != (b == quote) }

/-- Takes a byte. A section that ends with a form feed has an empty last line, as a text that ends
with a line feed has. -/
def step (c : Cutting) (b : UInt8) : Cutting :=
  if c.quoted then c.addByte b
  else if b == 9 || b == 11 then c.endCell
  else if b == 10 then c.endCell.endLine
  else if b == 12 then c.endCell.endLine.endLine.endSection
  else c.addByte b

def finish (c : Cutting) : List Section :=
  (if c.cell.isEmpty then c else c.endCell).endLine.endSection.sections.reverse

end Cutting

def sections (text : Bytes) : List Section := (text.foldl Cutting.step {}).finish

/-- The width of a cell: its characters without quotes. -/
def width (cell : Bytes) : Nat := Utf8.count cell - cell.count quote

/-- The width of the cell at a place of a line, if it ends with a tab. -/
def widthAt (column : Nat) (row : List Bytes) : Option Nat :=
  if column + 1 < row.length then (row[column]?).map width else none

/-- The widths at a place of the lines that follow each other and have a cell there. -/
def block (column : Nat) (lines : List (List Bytes)) : List Nat :=
  (lines.map (widthAt column)).takeWhile Option.isSome |>.filterMap id

/-- The width of the column at a place that a line is part of; the lines before it are given
backwards. -/
def columnWidth (column : Nat) (before after : List (List Bytes)) : Nat :=
  ((block column before ++ block column after).foldl max 0) + padding

/-- A cell with blanks after it up to a width. -/
def pad (size : Nat) (cell : Bytes) : Bytes := cell ++ List.replicate (size - width cell) 32

def layLine (before : List (List Bytes)) (line : List Bytes) (after : List (List Bytes)) : Bytes :=
  let padded (i : Nat × Bytes) : Bytes :=
    if i.1 + 1 < line.length then pad (columnWidth i.1 before (line :: after)) i.2 else i.2
  ((List.range line.length).zip line).flatMap padded

/-- Lays out lines; those before them are given backwards. -/
def layLines (before : List (List Bytes)) : List (List Bytes) → List Bytes
  | [] => []
  | line :: after => layLine before line after :: layLines (line :: before) after

def layOut (text : Bytes) : Bytes :=
  (sections text).flatMap fun lines => Bytes.join "\n" (layLines [] lines)

end MiniJvm.Columns

/-! ## Timestamps

The date and time of a clock that counts nanoseconds from the start of 1970, in universal time. -/

namespace MiniJvm.Timestamp

structure Date where
  year : Int
  month : Nat
  day : Nat
  deriving DecidableEq, Repr

/-- The date of a day counted from the start of 1970. Years are taken to start in March, so that a
leap day is the last day of its year, and 400 of them have 146097 days. -/
def dateOfDay (n : Int) : Date :=
  let shifted := n + 719468
  let era := shifted.fdiv 146097
  let dayOfEra := (shifted.fmod 146097).toNat
  let yearOfEra := (dayOfEra - dayOfEra / 1460 + dayOfEra / 36524 - dayOfEra / 146096) / 365
  let dayOfYear := dayOfEra - (365 * yearOfEra + yearOfEra / 4 - yearOfEra / 100)
  let monthFromMarch := (5 * dayOfYear + 2) / 153
  let month := if monthFromMarch < 10 then monthFromMarch + 3 else monthFromMarch - 9
  { year := era * 400 + yearOfEra + (if month ≤ 2 then 1 else 0)
    month
    day := dayOfYear - (153 * monthFromMarch + 2) / 5 + 1 }

def padded (width n : Nat) : Bytes := Bytes.zeroPad width (Bytes.ofNat n)

def yearText (year : Int) : Bytes :=
  if year < 0 then 45 :: padded 4 year.natAbs else padded 4 year.natAbs

/-- A time as date and time of day, to the second. -/
def text (nanoseconds : Int64) : Bytes :=
  let seconds := nanoseconds.toInt.fdiv 1000000000
  let d := dateOfDay (seconds.fdiv 86400)
  let rest := (seconds.fmod 86400).toNat
  yearText d.year ++ "-" ++ padded 2 d.month ++ "-" ++ padded 2 d.day ++ " "
    ++ padded 2 (rest / 3600) ++ ":" ++ padded 2 (rest / 60 % 60) ++ ":" ++ padded 2 (rest % 60)

end MiniJvm.Timestamp
