import Abacus.Lexeme

set_option autoImplicit false

namespace Abacus

/-- A place in a source text. Lines and columns count from one, the offset counts the characters
before the place. -/
structure Position where
  line : Nat
  column : Nat
  offset : Nat
deriving DecidableEq, Repr

namespace Position

def start : Position := ⟨1, 1, 0⟩

/-- The place after the character `c`. Only a line feed begins a new line. -/
def advance (place : Position) (c : Char) : Position :=
  if c = '\n' then ⟨place.line + 1, 1, place.offset + 1⟩
  else ⟨place.line, place.column + 1, place.offset + 1⟩

def advanceAll (place : Position) (text : List Char) : Position :=
  text.foldl advance place

instance : ToString Position where
  toString place := s!"line {place.line}, column {place.column}"

@[simp] theorem advanceAll_nil (place : Position) : place.advanceAll [] = place := rfl

@[simp] theorem advanceAll_cons (place : Position) (c : Char) (text : List Char) :
    place.advanceAll (c :: text) = (place.advance c).advanceAll text := rfl

theorem advanceAll_append (place : Position) (first second : List Char) :
    place.advanceAll (first ++ second) = (place.advanceAll first).advanceAll second :=
  List.foldl_append

@[simp] theorem offset_advance (place : Position) (c : Char) :
    (place.advance c).offset = place.offset + 1 := by
  unfold advance
  split <;> rfl

end Position

structure Token where
  lexeme : Lexeme
  position : Position
deriving DecidableEq, Repr

structure Scan where
  tokens : List Token
  stop : Position
deriving DecidableEq, Repr

namespace Scan

/-- Cuts the text that stands at `place`. The first `held` characters belong to the token before it;
a held character moves the place like any other. -/
def ofChars (place : Position) : Nat → List Char → Scan
  | _, [] => ⟨[], place⟩
  | held + 1, c :: rest => ofChars (place.advance c) held rest
  | 0, c :: rest =>
    if Text.isLayout c then ofChars (place.advance c) 0 rest
    else
      let (lexeme, held) := Lexeme.first c rest
      let after := ofChars (place.advance c) held rest
      ⟨⟨lexeme, place⟩ :: after.tokens, after.stop⟩

/-- Whether a text lacks the mark that ends its statement: a text of one line that is not blank and
whose last mark is not a semicolon. -/
def lacksTerminator (source : List Char) : Bool :=
  match Text.lastMark? source with
  | none => false
  | some mark => mark != ';' && !source.contains '\n'

def terminated (source : List Char) : List Char :=
  if lacksTerminator source then source ++ [';'] else source

/-- The tokens of a source text, the semicolon that it lacks included. -/
def ofSource (source : String) : Scan :=
  ofChars .start 0 (terminated source.toList)

def lexemes (scan : Scan) : List Lexeme := scan.tokens.map (·.lexeme)

/-- The place of the token at an index; the end of the text has the index after the last one. -/
def positionAt (scan : Scan) (index : Nat) : Position :=
  match scan.tokens[index]? with
  | some token => token.position
  | none => scan.stop

end Scan

/-- What a scanner has not read yet, and the place where that begins. -/
structure Scanner where
  place : Position
  rest : List Char
deriving DecidableEq, Repr

namespace Scanner

/-- The scanner of a source text, the semicolon that it lacks included. -/
def ofSource (source : String) : Scanner := ⟨.start, Scan.terminated source.toList⟩

def skip (scanner : Scanner) (count : Nat) : Scanner where
  place := scanner.place.advanceAll (scanner.rest.take count)
  rest := scanner.rest.drop count

def skipLayout (scanner : Scanner) : Scanner :=
  scanner.skip (scanner.rest.takeWhile Text.isLayout).length

/-- One call: the next lexeme, `none` at the end of the text, and its place; then the scanner behind it. -/
def next (scanner : Scanner) : (Option Lexeme × Position) × Scanner :=
  let visible := scanner.skipLayout
  match visible.rest with
  | [] => ((none, visible.place), visible)
  | c :: rest =>
    let (lexeme, held) := Lexeme.first c rest
    ((some lexeme, visible.place), visible.skip (held + 1))

/-- What the call after `earlier` other calls gives. -/
def call (scanner : Scanner) : (earlier : Nat) → Option Lexeme × Position
  | 0 => scanner.next.1
  | earlier + 1 => scanner.next.2.call earlier

end Scanner

end Abacus
