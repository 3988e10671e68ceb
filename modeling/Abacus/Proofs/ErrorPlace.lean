import Abacus.Proofs.ParserRoutines

set_option autoImplicit false

namespace Abacus

/-- Only a semicolon by itself ends in a semicolon, and the second character of an ampersand or a bar can be one. -/
theorem Lexeme.Covers.pair_of_semicolon {lexeme : Lexeme} {text body after : List Char}
    (covers : lexeme.Covers text after) (ended : text = body ++ [';']) (other : lexeme ≠ .semicolon) :
    ∃ c op, body = [c] ∧ pair? c = some op ∧ lexeme = logic op := by
  have member : ';' ∈ text := by
    rw [ended]
    exact List.mem_append_right body List.mem_cons_self
  have last : text.getLast? = some ';' := by
    rw [ended]
    exact List.getLast?_concat
  have front : text.dropLast = body := by
    rw [ended]
    exact List.dropLast_concat
  cases covers with
  | word start more ends =>
      rcases List.mem_cons.mp member with rfl | later
      · cases start
      · cases more _ later
  | hex marked hexadecimal ends =>
      rcases List.mem_cons.mp member with impossible | later
      · cases impossible
      · rcases List.mem_cons.mp later with rfl | later
        · rcases marked with impossible | impossible <;> cases impossible
        · cases hexadecimal _ later
  | decimal filled decimals ends unmarked => cases decimals _ member
  | pair d doubled => exact ⟨_, _, front.symm, doubled, rfl⟩
  | lastPair doubled =>
      obtain rfl := Option.some.inj last
      cases doubled
  | joined marks => cases Option.some.inj last
  | alone marks unequal =>
      obtain rfl := Option.some.inj last
      cases marks
  | sign signs =>
      obtain rfl := Option.some.inj last
      cases signs
      exact (other rfl).elim
  | unknown visible noWord noDigit noSign noPair noMark =>
      obtain rfl := Option.some.inj last
      cases noSign

namespace Scan

open Tile

variable {scan : Scan} {source : String} {index : Nat}

theorem exists_tiles_ofSource (source : String) :
    ∃ tiles last, (ofSource source).TiledBy [] (terminated source.toList) tiles last :=
  (Scanner.ofSource source).exists_tiles rfl

theorem terminated_of_needs {text : List Char} (needs : NeedsTerminator text) : terminated text = text ++ [';'] :=
  if_pos (lacksTerminator_iff.mpr needs)

theorem terminated_of_whole {text : List Char} (whole : ¬NeedsTerminator text) : terminated text = text :=
  if_neg fun lacks => whole (lacksTerminator_iff.mp lacks)

theorem exists_terminated (text : List Char) : ∃ added, terminated text = text ++ added := by
  by_cases needs : NeedsTerminator text
  · exact ⟨[';'], terminated_of_needs needs⟩
  · exact ⟨[], (terminated_of_whole needs).trans (List.append_nil text).symm⟩

/-- The place with an index cuts the text in two: a token covers the beginning of the second part, and behind the last
token there is none. -/
structure CutAt (scan : Scan) (index : Nat) (past rest : List Char) : Prop where
  counts : (scan.positionAt index).Counts past
  token : ∀ token, scan.tokens[index]? = some token →
    ∃ text after, rest = text ++ after ∧ text ≠ [] ∧ token.lexeme.Covers text after
  stop : scan.tokens.length ≤ index → rest = []

/-- The text before a tile and its layout, and the text from there on. -/
theorem TiledBy.parts_at {past text last : List Char} {tiles before after : List Tile} {tile : Tile}
    (tiled : scan.TiledBy past text tiles last) (parts : tiles = before ++ tile :: after) :
    text = covered before ++ tile.layout ++ (tile.text ++ (covered after ++ last)) := by
  rw [← tiled.whole, parts, covered, List.flatMap_append, List.flatMap_cons]
  simp only [covered, List.append_assoc]

theorem TiledBy.exists_cut {text last : List Char} {tiles : List Tile} (tiled : scan.TiledBy [] text tiles last)
    (index : Nat) : ∃ past rest, text = past ++ rest ∧ scan.CutAt index past rest := by
  have length : tiles.length = scan.tokens.length := by rw [← tiled.tokens, List.length_map]
  by_cases inside : index < tiles.length
  · have parts : tiles = tiles.take index ++ tiles[index] :: tiles.drop (index + 1) := by
      rw [← List.drop_eq_getElem_cons inside, List.take_append_drop]
    have fit := tiled.fits _ _ _ parts
    have found : scan.tokens[index]? = some tiles[index].token := by
      rw [← tiled.tokens, List.getElem?_map, List.getElem?_eq_getElem inside]
      rfl
    refine ⟨_, _, tiled.parts_at parts, ?_, fun token same => ?_, fun beyond => absurd inside (by omega)⟩
    · rw [positionAt, found]
      exact fit.placed
    · rw [found] at same
      cases same
      exact ⟨_, _, rfl, fit.filled, fit.covers⟩
  · have none : scan.tokens[index]? = none := List.getElem?_eq_none (by omega)
    refine ⟨text, [], (List.append_nil text).symm, ?_, fun token same => ?_, fun _ => rfl⟩
    · rw [positionAt, none]
      exact tiled.stop
    · rw [none] at same
      cases same

/-- If the last character of a text is no layout, the last token covers it with all that stands from its place on. -/
theorem TiledBy.exists_last {text last : List Char} {tiles : List Tile} {d : Char}
    (tiled : scan.TiledBy [] (text ++ [d]) tiles last) (visible : Text.isLayout d = false) :
    ∃ token before body, scan.tokens.getLast? = some token ∧ text = before ++ body ∧ token.position.Counts before ∧
      token.lexeme.Covers (body ++ [d]) [] := by
  obtain rfl | ⟨layout, c, rfl⟩ := List.eq_nil_or_concat' last
  · obtain rfl | ⟨before, tile, rfl⟩ := List.eq_nil_or_concat' tiles
    · exact absurd tiled.whole.symm (List.append_ne_nil_of_right_ne_nil _ (List.cons_ne_nil _ _))
    · have fit := tiled.fits before tile [] rfl
      obtain empty | ⟨body, c, ended⟩ := List.eq_nil_or_concat' tile.text
      · exact absurd empty fit.filled
      · have parts := tiled.parts_at (show before ++ [tile] = before ++ tile :: [] from rfl)
        have same : text = covered before ++ tile.layout ++ body ∧ [d] = [c] := by
          refine List.append_inj' ?_ rfl
          rw [parts, ended]
          simp only [covered, List.flatMap_nil, List.append_nil, List.append_assoc]
        obtain ⟨whole, mark⟩ := same
        obtain rfl := List.head_eq_of_cons_eq mark
        refine ⟨tile.token, _, body, ?_, whole, fit.placed, ?_⟩
        · rw [← tiled.tokens, List.map_append]
          exact List.getLast?_concat
        · rw [← ended]
          exact fit.covers
  · have same := (List.append_inj' ((List.append_assoc (covered tiles) layout [c]).trans tiled.whole) rfl).2
    obtain rfl := List.head_eq_of_cons_eq same
    rw [tiled.lastBlank c (List.mem_append_right layout List.mem_cons_self)] at visible
    cases visible

/-- The semicolon that a text lacks is no token of it: the ampersand or bar at the end of the text took it. -/
structure SwallowsTerminator (source : String) : Prop where
  needs : NeedsTerminator source.toList
  swallowed : ∃ before c op place, source.toList = before ++ [c] ∧ Lexeme.pair? c = some op ∧ place.Counts before ∧
    (ofSource source).tokens.getLast? = some ⟨.logic op, place⟩

theorem swallowsTerminator_of_unended (needs : NeedsTerminator source.toList)
    (unended : (ofSource source).lexemes.getLast? ≠ some .semicolon) : SwallowsTerminator source := by
  obtain ⟨tiles, last, tiled⟩ := exists_tiles_ofSource source
  rw [terminated_of_needs needs] at tiled
  obtain ⟨token, before, body, lastToken, whole, placed, covers⟩ := tiled.exists_last rfl
  have other : token.lexeme ≠ .semicolon := fun same => unended (by
    rw [lexemes, List.getLast?_map, lastToken, Option.map_some, same])
  obtain ⟨c, op, rfl, doubled, lexeme⟩ := covers.pair_of_semicolon rfl other
  refine ⟨needs, before, c, op, token.position, whole, doubled, placed, ?_⟩
  rw [lastToken, ← lexeme]

/-- A token of a text stands at a place, and the first character that it covers is `c`. -/
def TokenBegins (source : String) (place : Position) (c : Char) : Prop :=
  ∃ token ∈ (ofSource source).tokens, token.position = place ∧
    ∃ before more after, terminated source.toList = before ++ (c :: more ++ after) ∧ place.Counts before ∧
      token.lexeme.Covers (c :: more) after

end Scan

/-- Behind the last statement a program ends: it does not halt there. -/
theorem Read.getLast?_ne_of_halts_at_end {limit : Nat} {input : List Lexeme} {halt : Halt}
    (halts : program limit input = .error halt) (atEnd : halt.rest = []) : input.getLast? ≠ some .semicolon := by
  induction length : input.length using Nat.strongRecOn generalizing input with
  | ind n ih =>
      obtain ⟨taken, takes, took⟩ := Parser.Mirrors.statement limit input
      have parts := takes.parts
      rw [program_eq (ne_nil_of_halts halts)] at halts
      rcases bind_eq_error_iff.mp halts with stops | ⟨⟨head, rest⟩, outcome, stops⟩
      · rw [stops] at parts took
        rw [leftOver, atEnd, List.append_nil] at parts
        rw [parts]
        exact fun last => List.count_eq_zero.mp took (List.mem_of_getLast? last)
      · rcases bind_eq_error_iff.mp stops with later | ⟨others, -, impossible⟩
        · have shorter := length_lt_of_outcome outcome
          rw [outcome, leftOver] at parts
          rw [parts, List.getLast?_append_of_ne_nil _ (ne_nil_of_halts later)]
          exact ih rest.length (by omega) later rfl
        · cases impossible

namespace Program

open Scan

variable {limit : Nat} {source : String} {error : ParseError}

/-- An error stands in the text, at its end, or behind the semicolon that was added, if that was taken. -/
theorem offset_le_of_parse (failed : parse limit source = .error error) :
    error.position.offset ≤ source.length + 1 ∧
      (error.position.offset = source.length + 1 → SwallowsTerminator source) := by
  obtain ⟨halt, halts, rfl⟩ := exists_halt_of_parse failed
  obtain ⟨tiles, last, tiled⟩ := exists_tiles_ofSource source
  obtain ⟨past, rest, parts, cut⟩ := tiled.exists_cut ((ofSource source).haltIndex halt)
  have offset : ((ofSource source).error halt).position.offset = past.length := cut.counts.offset
  have lengths := congrArg List.length parts
  rw [List.length_append] at lengths
  rw [offset, ← String.length_toList]
  by_cases needs : NeedsTerminator source.toList
  · rw [terminated_of_needs needs, List.length_append, List.length_singleton] at lengths
    refine ⟨by omega, fun behind => swallowsTerminator_of_unended needs ?_⟩
    have empty : rest = [] := List.length_eq_zero_iff.mp (by omega)
    refine Read.getLast?_ne_of_halts_at_end halts ?_
    have filled : 0 < (ofSource source).tokens.length := by
      rw [← length_lexemes]
      exact List.length_pos_iff.mpr (Read.ne_nil_of_halts halts)
    have beyond : (ofSource source).tokens.length ≤ (ofSource source).haltIndex halt := by
      refine Nat.le_of_not_lt fun inside => ?_
      obtain ⟨text, after, same, some, -⟩ := cut.token _ (List.getElem?_eq_getElem inside)
      rw [empty] at same
      exact some (List.append_eq_nil_iff.mp same.symm).1
    rw [haltIndex] at beyond
    exact List.length_eq_zero_iff.mp (by omega)
  · rw [terminated_of_whole needs] at lengths
    exact ⟨by omega, fun behind => absurd lengths (by omega)⟩

/-- An error that does not stand behind the text stands in front of the token that begins there, if the text goes on. -/
theorem exists_place_of_parse (failed : parse limit source = .error error)
    (within : error.position.offset ≤ source.length) :
    ∃ past future, source.toList = past ++ future ∧ error.position.Counts past ∧
      ∀ c ∈ future.head?, TokenBegins source error.position c := by
  obtain ⟨halt, halts, rfl⟩ := exists_halt_of_parse failed
  obtain ⟨tiles, last, tiled⟩ := exists_tiles_ofSource source
  obtain ⟨past, rest, parts, cut⟩ := tiled.exists_cut ((ofSource source).haltIndex halt)
  have counts : ((ofSource source).error halt).position.Counts past := cut.counts
  rw [counts.offset, ← String.length_toList] at within
  obtain ⟨added, ended⟩ := exists_terminated source.toList
  obtain ⟨future, whole⟩ : past <+: source.toList :=
    List.prefix_of_prefix_length_le ⟨rest, parts.symm⟩ ⟨added, ended.symm⟩ within
  have goesOn : rest = future ++ added := by
    rw [ended, ← whole, List.append_assoc] at parts
    exact (List.append_cancel_left parts).symm
  refine ⟨past, future, whole.symm, counts, fun c head => ?_⟩
  obtain ⟨others, rfl⟩ := List.head?_eq_some_iff.mp head
  have inside : (ofSource source).haltIndex halt < (ofSource source).tokens.length := by
    refine Nat.lt_of_not_le fun beyond => ?_
    have empty := cut.stop beyond
    rw [goesOn] at empty
    cases empty
  have found := List.getElem?_eq_getElem inside
  obtain ⟨text, after, same, filled, covers⟩ := cut.token _ found
  obtain ⟨d, more, rfl⟩ := List.exists_cons_of_ne_nil filled
  obtain rfl : c = d := List.head_eq_of_cons_eq (goesOn.symm.trans same)
  refine ⟨_, List.getElem_mem inside, ?_, past, more, after, by rw [parts, same], counts, covers⟩
  rw [Scan.error, positionAt, found]

end Program

end Abacus
