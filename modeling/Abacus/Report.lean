import Abacus.Engine
import Abacus.Text.Width

set_option autoImplicit false

namespace Abacus

namespace Report

/-- What a stretch of a report is for, and so the ink it is drawn with. -/
inductive Ink where
  | accent
  | margin
  | gap
  | source
  | note
deriving DecidableEq, Repr

/-- The terminal parameters that select an ink. -/
def Ink.parameters : Ink → String
  | accent => "31"
  | margin => "38;5;246"
  | gap => "38;5;240"
  | source => "38;5;249"
  | note => "38;5;115"

/-- A stretch of a row in one ink, or in none. -/
structure Span where
  ink : Option Ink
  text : String
deriving DecidableEq, Repr

abbrev Row := List Span

namespace Span

def bare (text : String) : Span := ⟨none, text⟩

def each (ink : Ink) (text : List Char) : Row :=
  text.map fun c => ⟨some ink, c.toString⟩

/-- The stretch as it is sent out; on a terminal without colour all inks look the same. -/
def render (colour : Bool) (span : Span) : String :=
  match colour, span.ink with
  | true, some ink => "\x1b[" ++ ink.parameters ++ "m" ++ span.text ++ "\x1b[0m"
  | _, _ => span.text

end Span

/-- A row as it is sent out, its line feed included. -/
def Row.render (colour : Bool) (row : Row) : String :=
  String.join (row.map (Span.render colour)) ++ "\n"

/-- A line of a source text, its number from one, and the characters from offset `first` to before offset `stop`
that a report points at: one character, or none at the end of the text. -/
structure Target where
  number : Nat
  line : Text.Line
  first : Nat
  stop : Nat
deriving DecidableEq, Repr

namespace Target

/-- The target at an offset. Offsets beyond the end of the text stand for its end. -/
def ofOffset (source : List Char) (offset : Nat) : Target :=
  let first := min offset source.length
  let reached := (Text.lines source).takeWhile (fun line => line.start ≤ first)
  { number := reached.length
    line := reached.getLast?.getD ⟨0, []⟩
    first
    stop := min (first + 1) source.length }

def column (target : Target) : Nat := target.first - target.line.start

def isCharacter (target : Target) : Bool := target.first < target.stop

def covers (target : Target) (index : Nat) : Bool :=
  target.first ≤ target.line.start + index && target.line.start + index < target.stop

/-- The characters of the line that are shown: all up to the last that is not blank. -/
def shown (target : Target) : List Char := Text.trimEnd target.line.text

end Target

/-- How the character at an index of a line is drawn: a tab as one to four spaces, by the index and not by the columns
before it, and any other blank as one. -/
def drawn (index : Nat) (c : Char) : List Char :=
  if c = '\t' then List.replicate (4 - index % 4) ' '
  else if Text.isBlank c then [' ']
  else [c]

/-- The number of columns that the character at an index of a line is given. -/
def columnsAt (index : Nat) (c : Char) : Nat :=
  if c = '\t' then 4 - index % 4
  else if Text.isBlank c then 1
  else Text.columns c

/-- The columns of the characters below which something is drawn: those of the line up to two beyond the target. Beyond
the end of what is shown every place counts as one column. -/
def Target.widths (target : Target) : List Nat :=
  let count := target.stop - target.line.start + 2
  let shown := (target.shown.take count).zipIdx.map fun (c, index) => columnsAt index c
  shown ++ List.replicate (count - shown.length) 1

def spaces (count : Nat) : List Char := List.replicate count ' '

/-- A stroke over a number of columns that begins with a sign of its own. -/
def stroke (first rest : Char) : Nat → List Char
  | 0 => []
  | width + 1 => first :: List.replicate width rest

/-- What stands in front of a report: the code, if there is one, and the message. -/
def header (diagnostic : Diagnostic) : Row :=
  let label := match diagnostic.code with
    | some code => "[" ++ code.pushn ' ' (2 - code.length) ++ "] Error:"
    | none => "Error:"
  [⟨some .accent, label⟩, .bare (" " ++ diagnostic.message)]

def numberWidth (target : Target) : Nat := (toString target.number).length

def location (target : Target) : Row :=
  .bare (String.ofList (spaces (numberWidth target + 2))) :: Span.each .margin ['╭', '─', '['] ++
    .bare s!" <input>:{target.number}:{target.column + 1} " :: Span.each .margin [']']

def lead (target : Target) : Row :=
  [.bare (String.ofList (spaces (numberWidth target + 2))), ⟨some .margin, "│"⟩]

/-- The line itself, with the target in the accent ink. -/
def sourceLine (target : Target) : Row :=
  [.bare " ", ⟨some .margin, s!"{target.number} │"⟩, .bare " "] ++
    target.shown.zipIdx.flatMap fun (c, index) =>
      Span.each (if target.covers index then .accent else .source) (drawn index c)

def margin (target : Target) : Row :=
  [.bare " ", ⟨some .gap, String.ofList (spaces (numberWidth target + 1)) ++ "│"⟩, .bare " "]

/-- The row that marks the target: nothing is drawn for a character without width. -/
def marker (target : Target) : Row :=
  margin target ++ target.widths.zipIdx.flatMap fun (width, index) =>
    if index = target.column then
      Span.each .accent <|
        if target.isCharacter then stroke '┬' '─' width else stroke '│' ' ' width
    else [.bare (String.ofList (spaces width))]

def pointer (target : Target) (message : String) : Row :=
  margin target ++ (target.widths.zipIdx.flatMap fun (width, index) =>
    if index < target.column then [.bare (String.ofList (spaces width))]
    else Span.each .accent (stroke (if index = target.column then '╰' else '─') '─' width)) ++
    [.bare (" " ++ message)]

/-- The lines of an advice; it may end with a line feed or without. -/
def adviceLines (advice : String) : List String :=
  let parts := advice.splitOn "\n"
  if parts.getLast? = some "" then parts.dropLast else parts

def advice (target : Target) : Option String → List Row
  | none => []
  | some advice =>
    margin target :: (adviceLines advice).zipIdx.map fun (line, index) =>
      margin target ++
        if index = 0 then [⟨some .note, "Help"⟩, .bare (": " ++ line)]
        else [.bare (String.ofList (spaces 6) ++ line)]

def closing (target : Target) : Row :=
  [⟨some .margin, String.ofList (List.replicate (numberWidth target + 2) '─') ++ "╯"⟩]

def rows (diagnostic : Diagnostic) (source : String) : List Row :=
  let target := Target.ofOffset source.toList diagnostic.position.offset
  [header diagnostic, location target, lead target, sourceLine target, marker target,
    pointer target diagnostic.message] ++ advice target diagnostic.help ++ [closing target]

end Report

def Diagnostic.render (diagnostic : Diagnostic) (source : String) (colour : Bool) : String :=
  String.join ((Report.rows diagnostic source).map (Report.Row.render colour))

/-- The report of an error. A failed statement is named by its number from one, in one line without colour. -/
def EngineError.render (error : EngineError) (colour : Bool) : String :=
  match error with
  | parse diagnostic source => diagnostic.render source colour
  | evaluation statement error =>
    s!"Evaluation error in statement {statement + 1}: {error.message}\n"

end Abacus
