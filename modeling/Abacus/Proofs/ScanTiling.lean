import Abacus.Proofs.LexemeCover
import Abacus.Proofs.ScanConcat

set_option autoImplicit false

namespace Abacus

/-- The place behind a text: its lines, the characters of its last line, and its characters. -/
structure Position.Counts (place : Position) (text : List Char) : Prop where
  line : place.line = 1 + text.count '\n'
  column : place.column = 1 + (Text.lastLine text).length
  offset : place.offset = text.length

theorem Position.counts_advanceAll (text : List Char) : (start.advanceAll text).Counts text := by
  rw [← behind_start]
  exact ⟨rfl, rfl, Nat.zero_add _⟩

namespace Scan

theorem ofChars_held (place : Position) (held : Nat) (text : List Char) :
    ofChars place held text = ofChars (place.advanceAll (text.take held)) 0 (text.drop held) := by
  induction held generalizing place text with
  | zero => rfl
  | succ held ih =>
      cases text with
      | nil => rfl
      | cons c rest => exact ih (place.advance c) rest

theorem ofChars_skipLayout (place : Position) (text : List Char) :
    ofChars place 0 text =
      ofChars (place.advanceAll (text.takeWhile Text.isLayout)) 0 (text.dropWhile Text.isLayout) := by
  induction text generalizing place with
  | nil => rfl
  | cons c rest ih =>
      by_cases layout : Text.isLayout c = true
      · rw [ofChars_of_layout layout, ih, List.takeWhile_cons_of_pos layout,
          List.dropWhile_cons_of_pos layout, Position.advanceAll_cons]
      · rw [List.takeWhile_cons_of_neg layout, List.dropWhile_cons_of_neg layout]
        rfl

end Scan

namespace Scanner

def remaining (scanner : Scanner) : Scan := Scan.ofChars scanner.place 0 scanner.rest

/-- What a call finds: a lexeme behind some layout, or nothing but layout. -/
inductive Finds (scanner : Scanner) : Prop
  | stop (blank : ∀ c ∈ scanner.rest, Text.isLayout c = true)
      (given : scanner.next =
        ((none, scanner.place.advanceAll scanner.rest), ⟨scanner.place.advanceAll scanner.rest, []⟩))
      (left : scanner.remaining = ⟨[], scanner.place.advanceAll scanner.rest⟩)
  | token {layout text after : List Char} {lexeme : Lexeme} {behind : Scanner}
      (parts : scanner.rest = layout ++ text ++ after)
      (moved : behind = ⟨scanner.place.advanceAll (layout ++ text), after⟩)
      (blank : ∀ c ∈ layout, Text.isLayout c = true) (filled : text ≠ [])
      (covers : lexeme.Covers text after)
      (given : scanner.next = ((some lexeme, scanner.place.advanceAll layout), behind))
      (left : scanner.remaining = ⟨⟨lexeme, scanner.place.advanceAll layout⟩ :: behind.remaining.tokens,
        behind.remaining.stop⟩)

theorem skipLayout_eq (scanner : Scanner) :
    scanner.skipLayout = ⟨scanner.place.advanceAll (scanner.rest.takeWhile Text.isLayout),
      scanner.rest.dropWhile Text.isLayout⟩ := by
  rw [skipLayout, skip, Lexeme.take_length_takeWhile, Lexeme.drop_length_takeWhile]

theorem finds (scanner : Scanner) : scanner.Finds := by
  have blank : ∀ c ∈ scanner.rest.takeWhile Text.isLayout, Text.isLayout c = true :=
    List.all_eq_true.mp List.all_takeWhile
  have parts : scanner.rest.takeWhile Text.isLayout ++ scanner.rest.dropWhile Text.isLayout = scanner.rest :=
    List.takeWhile_append_dropWhile
  have left := Scan.ofChars_skipLayout scanner.place scanner.rest
  cases visible : scanner.rest.dropWhile Text.isLayout with
  | nil =>
      rw [visible, List.append_nil] at parts
      rw [parts] at blank
      refine .stop blank ?_ ?_
      · simp only [next, skipLayout_eq, visible, parts]
      · rw [remaining, left, visible, parts]
        rfl
  | cons c rest =>
      have seen : Text.isLayout c = false :=
        Lexeme.ends_dropWhile Text.isLayout scanner.rest c (by rw [visible]; rfl)
      refine .token ?_ rfl blank (List.cons_ne_nil _ _) (Lexeme.covers_first rest seen) ?_ ?_
      · rw [List.append_assoc, List.cons_append, List.take_append_drop, ← visible, parts]
      · simp only [next, skipLayout_eq, visible, skip, List.take_succ_cons, List.drop_succ_cons,
          ← Position.advanceAll_append]
      · rw [remaining, left, visible, Scan.ofChars_of_visible (Bool.eq_false_iff.mp seen),
          Scan.ofChars_held, Position.advanceAll_append]
        rfl

/-- Each call gives the next token and its place; after the last one, each gives the end of the text and its place. -/
theorem call_eq (scanner : Scanner) (earlier : Nat) :
    scanner.call earlier =
      (scanner.remaining.lexemes[earlier]?, scanner.remaining.positionAt earlier) := by
  induction earlier generalizing scanner with
  | zero =>
      cases scanner.finds with
      | stop _ given left => rw [call, given, left]; rfl
      | token _ _ _ _ _ given left => rw [call, given, left]; rfl
  | succ earlier ih =>
      cases scanner.finds with
      | stop _ given left => rw [call, given, ih, left]; rfl
      | token _ _ _ _ _ given left => rw [call, given, ih, left]; rfl

end Scanner

/-- A token, the text that it covers and the layout in front of it. -/
structure Tile where
  layout : List Char
  text : List Char
  token : Token

namespace Tile

def covered (tiles : List Tile) : List Char := tiles.flatMap fun tile => tile.layout ++ tile.text

theorem covered_cons (tile : Tile) (tiles : List Tile) :
    covered (tile :: tiles) = tile.layout ++ tile.text ++ covered tiles :=
  List.flatMap_cons

/-- The tile belongs between two parts of a text: its token stands where its text begins, it covers that text in front
of the second part, and it is written as the text is spelled. -/
structure Fits (tile : Tile) (before after : List Char) : Prop where
  blank : ∀ c ∈ tile.layout, Text.isLayout c = true
  filled : tile.text ≠ []
  placed : tile.token.position.Counts (before ++ tile.layout)
  covers : tile.token.lexeme.Covers tile.text after
  written : tile.token.lexeme.text = Lexeme.spelling tile.text

end Tile

namespace Scan

open Tile

/-- The tiles of a text that stands behind `past`, with the layout `last` at its end: they hold the tokens, cover the
text, and each fits where it is; the scan ends where the text does. -/
structure TiledBy (scan : Scan) (past text : List Char) (tiles : List Tile) (last : List Char) : Prop where
  tokens : tiles.map (·.token) = scan.tokens
  whole : covered tiles ++ last = text
  lastBlank : ∀ c ∈ last, Text.isLayout c = true
  fits : ∀ before tile after, tiles = before ++ tile :: after →
    tile.Fits (past ++ covered before) (covered after ++ last)
  stop : scan.stop.Counts (past ++ text)

theorem tiledBy_nil {past text : List Char} {stop : Position} (blank : ∀ c ∈ text, Text.isLayout c = true)
    (counts : stop.Counts (past ++ text)) : TiledBy ⟨[], stop⟩ past text [] text where
  tokens := rfl
  whole := rfl
  lastBlank := blank
  fits before tile after parts := by cases before <;> cases parts
  stop := counts

theorem tiledBy_cons {scan : Scan} {tile : Tile} {past after last : List Char} {tiles : List Tile}
    (fit : tile.Fits past after)
    (tiled : scan.TiledBy (past ++ (tile.layout ++ tile.text)) after tiles last) :
    TiledBy ⟨tile.token :: scan.tokens, scan.stop⟩ past (tile.layout ++ tile.text ++ after) (tile :: tiles)
      last where
  tokens := congrArg _ tiled.tokens
  whole := by rw [covered_cons, List.append_assoc, tiled.whole]
  lastBlank := tiled.lastBlank
  fits before other others parts := by
    cases before with
    | nil =>
        obtain ⟨rfl, rfl⟩ := List.cons.inj parts
        rw [covered, List.flatMap_nil, List.append_nil, tiled.whole]
        exact fit
    | cons head before =>
        obtain ⟨rfl, partsRest⟩ := List.cons.inj parts
        rw [covered_cons, ← List.append_assoc]
        exact tiled.fits before other others partsRest
  stop := by
    rw [← List.append_assoc]
    exact tiled.stop

end Scan

/-- The rest of a text, at any place in it, is tiled by the tokens that are left. -/
theorem Scanner.exists_tiles (scanner : Scanner) {past : List Char}
    (reached : scanner.place = Position.start.advanceAll past) :
    ∃ tiles last, scanner.remaining.TiledBy past scanner.rest tiles last := by
  -- Every token takes at least one character, so the induction is on what is left of the text.
  induction size : scanner.rest.length using Nat.strong_induction_on generalizing scanner past with
  | _ size ih =>
    cases scanner.finds with
    | stop blank given left =>
        refine ⟨[], scanner.rest, ?_⟩
        rw [left, reached, ← Position.advanceAll_append]
        exact Scan.tiledBy_nil blank (Position.counts_advanceAll _)
    | @token layout text after lexeme behind parts moved blank filled covers given left =>
        subst moved
        have shorter : after.length < scanner.rest.length := by
          have taken := List.length_pos_iff.mpr filled
          rw [parts]
          simp only [List.length_append]
          omega
        have reachedNext : scanner.place.advanceAll (layout ++ text) =
            Position.start.advanceAll (past ++ (layout ++ text)) := by
          rw [reached, ← Position.advanceAll_append]
        obtain ⟨tiles, last, tiled⟩ := ih after.length (size ▸ shorter) ⟨_, after⟩ reachedNext rfl
        have placed : (scanner.place.advanceAll layout).Counts (past ++ layout) := by
          rw [reached, ← Position.advanceAll_append]
          exact Position.counts_advanceAll _
        have fit : Tile.Fits ⟨layout, text, lexeme, scanner.place.advanceAll layout⟩ past after :=
          ⟨blank, filled, placed, covers, covers.text_eq_spelling⟩
        rw [left, parts]
        exact ⟨_, last, Scan.tiledBy_cons fit tiled⟩

namespace Scan

/-- A text needs a terminator if it has one line, is not blank, and has none at its end, blanks aside. -/
structure NeedsTerminator (text : List Char) : Prop where
  oneLine : '\n' ∉ text
  filled : ∃ c ∈ text, Text.isBlank c = false
  unended : (Text.trimEnd text).getLast? ≠ some ';'

theorem lastMark?_eq (text : List Char) : Text.lastMark? text = (Text.trimEnd text).getLast? := by
  have first (reversed : List Char) : (reversed.filter fun c => !Text.isBlank c).head? =
      (reversed.dropWhile Text.isBlank).head? := by
    induction reversed with
    | nil => rfl
    | cons c reversed ih =>
        cases blank : Text.isBlank c with
        | true => rw [List.filter_cons_of_neg (by rw [blank]; decide), List.dropWhile_cons_of_pos blank, ih]
        | false =>
            rw [List.filter_cons_of_pos (by rw [blank]; rfl),
              List.dropWhile_cons_of_neg (Bool.eq_false_iff.mp blank)]
            rfl
  rw [Text.lastMark?, Text.trimEnd, List.getLast?_reverse, ← first, List.filter_reverse, List.head?_reverse]

theorem lacksTerminator_iff {text : List Char} : lacksTerminator text = true ↔ NeedsTerminator text := by
  have ended := lastMark?_eq text
  unfold lacksTerminator
  cases last : Text.lastMark? text with
  | none =>
      refine ⟨nofun, fun needs => ?_⟩
      obtain ⟨c, member, visible⟩ := needs.filled
      have blank := List.filter_eq_nil_iff.mp (List.getLast?_eq_none_iff.mp last) c member
      rw [visible] at blank
      exact (blank rfl).elim
  | some mark =>
      rw [last] at ended
      obtain ⟨member, visible⟩ := List.mem_filter.mp (List.mem_of_getLast? last)
      simp only [Bool.and_eq_true, bne_iff_ne, Bool.not_eq_true', List.contains_eq_mem, decide_eq_false_iff_not]
      constructor
      · rintro ⟨other, oneLine⟩
        refine ⟨oneLine, ⟨mark, member, (Bool.not_eq_true' _).mp visible⟩, fun same => ?_⟩
        rw [← ended] at same
        exact other (Option.some.inj same)
      · intro needs
        refine ⟨fun same => needs.unended ?_, needs.oneLine⟩
        rw [← ended, same]

/-- The tokens of every source text tile it, with the terminator that it lacks: the text is their texts in order with
layout between, each token stands at the offset, the line and the column where its text begins, and that text is what
its kind takes there. Calls of a scanner give the tokens in order and then, again and again, the end of the text. -/
theorem ofSource_tiles (source : String) :
    ∃ (text : List Char) (tiles : List Tile) (last : List Char),
      (NeedsTerminator source.toList → text = source.toList ++ [';']) ∧
      (¬NeedsTerminator source.toList → text = source.toList) ∧
      (ofSource source).TiledBy [] text tiles last ∧
      (∀ earlier token, (ofSource source).tokens[earlier]? = some token →
        (Scanner.ofSource source).call earlier = (some token.lexeme, token.position)) ∧
      ∀ earlier, (ofSource source).tokens.length ≤ earlier →
        (Scanner.ofSource source).call earlier = (none, (ofSource source).stop) := by
  have reached : (Scanner.ofSource source).place = Position.start.advanceAll [] := rfl
  obtain ⟨tiles, last, tiled⟩ := (Scanner.ofSource source).exists_tiles reached
  have calls (earlier : Nat) : (Scanner.ofSource source).call earlier =
      ((ofSource source).lexemes[earlier]?, (ofSource source).positionAt earlier) :=
    (Scanner.ofSource source).call_eq earlier
  refine ⟨terminated source.toList, tiles, last, fun needs => ?_, fun whole => ?_, tiled, ?_, ?_⟩
  · rw [terminated, if_pos (lacksTerminator_iff.mpr needs)]
  · rw [terminated, if_neg fun lacks => whole (lacksTerminator_iff.mp lacks)]
  · intro earlier token found
    rw [calls, lexemes, List.getElem?_map, positionAt, found]
    rfl
  · intro earlier all
    rw [calls, lexemes, List.getElem?_map, positionAt, List.getElem?_eq_none all]
    rfl

/-- The line feed that an ampersand takes with it begins a line too. -/
example : (Scanner.ofSource "a&\n b").call 2 = (some (.name "b"), ⟨2, 2, 4⟩) := by cbv

end Scan

end Abacus
