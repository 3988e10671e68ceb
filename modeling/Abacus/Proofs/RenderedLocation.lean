import Abacus.Proofs.DirectEvaluation
import Abacus.Proofs.ErrorPlace
import Abacus.Proofs.TextLines
import Abacus.Report

set_option autoImplicit false

/- The report of a rejected text names the place that its diagnostic has, and marks the character that stands there. The
diagnostic counts line feeds up to a token; the report cuts the text into lines again, by other rules, and goes by the
offset alone. -/
namespace Abacus

theorem Text.trimEnd_append_cons {past rest : List Char} {c : Char} (visible : isBlank c = false) :
    trimEnd (past ++ c :: rest) = past ++ c :: trimEnd rest := by
  have kept : (c :: past.reverse).dropWhile isBlank = c :: past.reverse := by
    rw [List.dropWhile_cons_of_neg (Bool.eq_false_iff.mp visible)]
  simp only [trimEnd, List.reverse_append, List.reverse_cons, List.append_assoc, List.singleton_append,
    List.dropWhile_append, kept]
  cases List.dropWhile isBlank rest.reverse with
  | nil => simp
  | cons => simp

theorem Text.length_trimEnd_le (text : List Char) : (trimEnd text).length ≤ text.length := by
  have shorter := (List.dropWhile_sublist isBlank (l := text.reverse)).length_le
  rwa [List.length_reverse, ← List.length_reverse] at shorter

namespace Report

def naming (place : Position) : Row :=
  .bare (String.ofList (spaces ((toString place.line).length + 2))) :: Span.each .margin ['╭', '─', '['] ++
    .bare s!" <input>:{place.line}:{place.column} " :: Span.each .margin [']']

namespace Target

variable {target : Target} {past future : List Char}

/-- The target is behind `past` and in front of `future`, on the last line of `past`. -/
structure StandsBehind (target : Target) (past future : List Char) : Prop where
  number : target.number = 1 + past.count '\n'
  column : target.column = (Text.lastLine past).length
  start : target.line.start + target.column = target.first
  first : target.first = past.length
  stop : target.stop = min (past.length + 1) (past.length + future.length)
  shown : ∃ shown, target.line.text = Text.lastLine past ++ shown ∧ shown.head? = future.head?

theorem ofOffset_standsBehind (feeds : Text.EndsInFeeds (past ++ future))
    (ended : future = [] → past.getLast? ≠ some '\n') :
    (ofOffset (past ++ future) past.length).StandsBehind past future := by
  obtain ⟨line, reaches⟩ := feeds.exists_reaches_lines ended
  have first : min past.length (past.length + future.length) = past.length :=
    Nat.min_eq_left (Nat.le_add_right _ _)
  have target : ofOffset (past ++ future) past.length =
      ⟨1 + past.count '\n', line, past.length, min (past.length + 1) (past.length + future.length)⟩ := by
    have number := reaches.count
    have last := reaches.last
    rw [Text.linesUpTo] at number last
    simp only [ofOffset, List.length_append, first, number, last, Option.getD_some]
  have place := reaches.place
  have column : past.length - line.start = (Text.lastLine past).length := by omega
  have start : line.start + (past.length - line.start) = past.length := by omega
  rw [target]
  exact ⟨rfl, column, start, rfl, rfl, reaches.shown⟩

theorem StandsBehind.location_eq {place : Position} (stands : target.StandsBehind past future)
    (counts : place.Counts past) : location target = naming place := by
  rw [location, naming, numberWidth, stands.number, stands.column, counts.line, counts.column,
    Nat.add_comm 1 (Text.lastLine past).length]

/-- The target is one character of the text, which it covers in the line that is shown. -/
structure IsCharacterAt (target : Target) (offset : Nat) (c : Char) : Prop where
  first : target.first = offset
  stop : target.stop = offset + 1
  shown : target.line.text[target.column]? = some c
  covers : ∀ index, target.covers index = true ↔ index = target.column

/-- The target is the end of a text of so many characters, behind all that is shown. -/
structure IsEndAt (target : Target) (length : Nat) : Prop where
  first : target.first = length
  stop : target.stop = length
  behind : target.column = target.line.text.length
  covers : ∀ index, target.covers index = false

theorem StandsBehind.isCharacterAt {c : Char} {rest : List Char} (stands : target.StandsBehind past (c :: rest)) :
    target.IsCharacterAt past.length c where
  first := stands.first
  stop := by
    rw [stands.stop, List.length_cons]
    omega
  shown := by
    obtain ⟨shown, text, begun⟩ := stands.shown
    rw [text, stands.column, List.getElem?_append_right (Nat.le_refl _), Nat.sub_self, ← List.head?_eq_getElem?]
    exact begun
  covers index := by
    have start := stands.start
    have stop := stands.stop
    rw [List.length_cons, ← stands.first] at stop
    rw [Target.covers, Bool.and_eq_true, decide_eq_true_eq, decide_eq_true_eq]
    omega

theorem StandsBehind.isEndAt (stands : target.StandsBehind past []) : target.IsEndAt past.length where
  first := stands.first
  stop := by
    rw [stands.stop, List.length_nil]
    omega
  behind := by
    obtain ⟨shown, text, begun⟩ := stands.shown
    rw [text, List.head?_eq_none_iff.mp begun, List.append_nil, stands.column]
  covers index := by
    have stop := stands.stop
    rw [List.length_nil, ← stands.first] at stop
    rw [Target.covers, Bool.and_eq_false_iff, decide_eq_false_iff_not, decide_eq_false_iff_not]
    omega

end Target

/-- The columns that the characters from the beginning of a line on are given. -/
def columnsOf (text : List Char) : List Nat := text.zipIdx.map fun (c, index) => columnsAt index c

theorem length_columnsOf (text : List Char) : (columnsOf text).length = text.length := by
  rw [columnsOf, List.length_map, List.length_zipIdx]

theorem length_drawn {index : Nat} {c : Char} (narrow : Text.isBlank c = false → Text.columns c = 1) :
    (drawn index c).length = columnsAt index c := by
  unfold drawn columnsAt
  split
  · exact List.length_replicate
  · split
    · rfl
    · rename_i visible
      exact (narrow (Bool.eq_false_iff.mpr visible)).symm

/-- Characters that take one column each are drawn in as many columns as they are given. -/
theorem length_drawn_line {text : List Char} (narrow : ∀ c ∈ text, Text.isBlank c = false → Text.columns c = 1) :
    (text.zipIdx.flatMap fun (c, index) => drawn index c).length = (columnsOf text).sum := by
  rw [List.length_flatMap, columnsOf]
  refine congrArg List.sum (List.map_congr_left ?_)
  rintro ⟨c, index⟩ member
  exact length_drawn (narrow c (List.fst_mem_of_mem_zipIdx member))

def blanks (widths : List Nat) : Row := widths.map fun width => .bare (String.ofList (spaces width))

theorem columnsOf_append_cons (past rest : List Char) (c : Char) :
    ∃ after, columnsOf (past ++ c :: rest) = columnsOf past ++ columnsAt past.length c :: after := by
  refine ⟨(rest.zipIdx (past.length + 1)).map fun (c, index) => columnsAt index c, ?_⟩
  simp only [columnsOf, List.zipIdx_append, List.zipIdx_cons, List.map_append, List.map_cons, Nat.zero_add]

theorem flatMap_zipIdx_of_apart {widths : List Nat} {start column : Nat} {draw : Nat × Nat → Row}
    (blank : ∀ width index, index ≠ column → draw (width, index) = [.bare (String.ofList (spaces width))])
    (apart : column < start ∨ start + widths.length ≤ column) :
    (widths.zipIdx start).flatMap draw = blanks widths := by
  induction widths generalizing start with
  | nil => rfl
  | cons width widths ih =>
      rw [List.length_cons] at apart
      rw [List.zipIdx_cons, List.flatMap_cons, ih (by omega), blank width start (by omega)]
      rfl

/-- The row below the line is blank but for a stroke, which stands at the column of the target. -/
theorem marker_eq {target : Target} {before after : List Nat} {width : Nat}
    (widths : target.widths = before ++ width :: after) (column : before.length = target.column) :
    marker target = margin target ++ blanks before ++
      Span.each .accent (if target.isCharacter then stroke '┬' '─' width else stroke '│' ' ' width) ++
      blanks after := by
  have blank (width index : Nat) (apart : index ≠ target.column) :
      (if index = target.column then Span.each .accent <|
          if target.isCharacter then stroke '┬' '─' width else stroke '│' ' ' width
        else [.bare (String.ofList (spaces width))]) = [.bare (String.ofList (spaces width))] := if_neg apart
  rw [marker, widths, List.zipIdx_append, List.flatMap_append, List.zipIdx_cons, List.flatMap_cons,
    flatMap_zipIdx_of_apart blank (Or.inr (by omega)), flatMap_zipIdx_of_apart blank (Or.inl (by omega))]
  simp only [Nat.zero_add, column, if_true, List.append_assoc]

namespace Target

variable {target : Target} {offset length : Nat} {c : Char}

theorem widths_eq (target : Target) :
    target.widths = columnsOf (target.shown.take (target.stop - target.line.start + 2)) ++
      List.replicate (target.stop - target.line.start + 2 -
        (columnsOf (target.shown.take (target.stop - target.line.start + 2))).length) 1 := rfl

/-- The stroke below a visible character is as wide as that, and the space in front of it as wide as the characters
before it in the line. -/
theorem IsCharacterAt.marker_eq (is : target.IsCharacterAt offset c) (visible : Text.isBlank c = false) :
    ∃ after, marker target = margin target ++ blanks (columnsOf (target.line.text.take target.column)) ++
      Span.each .accent (stroke '┬' '─' (Text.columns c)) ++ blanks after := by
  obtain ⟨past, rest, text, column⟩ : ∃ past rest, target.line.text = past ++ c :: rest ∧
      past.length = target.column := by
    obtain ⟨inside, found⟩ := List.getElem?_eq_some_iff.mp is.shown
    refine ⟨_, target.line.text.drop (target.column + 1), ?_, List.length_take_of_le (Nat.le_of_lt inside)⟩
    rw [← found, List.getElem_cons_drop, List.take_append_drop]
  have count : target.stop - target.line.start + 2 = past.length + 3 := by
    have covered := (is.covers target.column).mpr rfl
    rw [Target.covers, Bool.and_eq_true, decide_eq_true_eq, decide_eq_true_eq] at covered
    have place : target.first - target.line.start = target.column := rfl
    have first := is.first
    have stop := is.stop
    omega
  have width : columnsAt past.length c = Text.columns c := by
    have noTab : c ≠ '\t' := by
      rintro rfl
      cases visible
    rw [columnsAt, if_neg noTab, if_neg (Bool.eq_false_iff.mp visible)]
  have taken : target.shown.take (past.length + 3) = past ++ c :: (Text.trimEnd rest).take 2 := by
    rw [Target.shown, text, Text.trimEnd_append_cons visible, List.take_length_add_append]
    rfl
  obtain ⟨after, widths⟩ : ∃ after, target.widths = columnsOf past ++ Text.columns c :: after := by
    obtain ⟨after, split⟩ := columnsOf_append_cons past ((Text.trimEnd rest).take 2) c
    rw [widths_eq, count, taken, split, width, List.append_assoc, List.cons_append]
    exact ⟨_, rfl⟩
  have isCharacter : target.isCharacter = true := by
    rw [Target.isCharacter, is.first, is.stop]
    exact decide_eq_true (Nat.lt_succ_self offset)
  have marked := Report.marker_eq widths ((length_columnsOf past).trans column)
  rw [if_pos isCharacter] at marked
  rw [text, ← column, List.take_left]
  exact ⟨after, marked⟩

/-- At the end of the text the stroke stands behind all that is shown and behind the blanks after it. -/
theorem IsEndAt.marker_eq (is : target.IsEndAt length) :
    ∃ after, marker target = margin target ++
      blanks (columnsOf target.shown ++ List.replicate (target.column - target.shown.length) 1) ++
      Span.each .accent ['│'] ++ blanks after := by
  have fits : target.shown.length ≤ target.column := by
    rw [is.behind]
    exact Text.length_trimEnd_le _
  have count : target.stop - target.line.start + 2 = target.column + 2 := by
    rw [is.stop, ← is.first]
    rfl
  have taken : target.shown.take (target.column + 2) = target.shown := List.take_of_length_le (by omega)
  have widths : target.widths = columnsOf target.shown ++
      List.replicate (target.column - target.shown.length) 1 ++ 1 :: [1] := by
    rw [widths_eq, count, taken, length_columnsOf, Nat.sub_add_comm fits, List.replicate_add, List.append_assoc]
    rfl
  have isCharacter : ¬target.isCharacter = true := by
    rw [Target.isCharacter, is.first, is.stop, decide_eq_true_eq]
    exact Nat.lt_irrefl _
  have column : (columnsOf target.shown ++ List.replicate (target.column - target.shown.length) 1).length =
      target.column := by
    rw [List.length_append, length_columnsOf, List.length_replicate, Nat.add_sub_cancel' fits]
  have marked := Report.marker_eq widths column
  rw [if_neg isCharacter] at marked
  exact ⟨[1], marked⟩

end Target

def target (diagnostic : Diagnostic) (source : String) : Target :=
  .ofOffset source.toList diagnostic.position.offset

/-- The report of a diagnostic names its place in the row below the header. The rows that show and mark the line go by a
target that is the first character of the token at the place, or the end of the text. -/
structure Locates (diagnostic : Diagnostic) (source : String) : Prop where
  named : ∃ below, ∀ colour, diagnostic.render source colour =
    String.join (([header diagnostic, naming diagnostic.position, lead (target diagnostic source),
      sourceLine (target diagnostic source), marker (target diagnostic source)] ++ below).map (Row.render colour))
  character : diagnostic.position.offset < source.length →
    ∃ c, Scan.TokenBegins source diagnostic.position c ∧
      (target diagnostic source).IsCharacterAt diagnostic.position.offset c
  ended : diagnostic.position.offset = source.length → (target diagnostic source).IsEndAt source.length

theorem locates_of_counts {diagnostic : Diagnostic} {source : String} {past future : List Char}
    (whole : source.toList = past ++ future) (counts : diagnostic.position.Counts past)
    (begins : ∀ c ∈ future.head?, Scan.TokenBegins source diagnostic.position c)
    (feeds : Text.EndsInFeeds source.toList) (ended : future = [] → past.getLast? ≠ some '\n') :
    Locates diagnostic source := by
  have stands : (target diagnostic source).StandsBehind past future := by
    rw [target, counts.offset, whole]
    rw [whole] at feeds
    exact Target.ofOffset_standsBehind feeds ended
  have length : source.length = past.length + future.length := by
    rw [← String.length_toList, whole, List.length_append]
  refine ⟨?_, fun inside => ?_, fun atEnd => ?_⟩
  · rw [← stands.location_eq counts]
    exact ⟨_, fun colour => rfl⟩
  · rw [counts.offset] at inside ⊢
    obtain ⟨c, rest, rfl⟩ : ∃ c rest, future = c :: rest := by
      refine List.exists_cons_of_ne_nil fun empty => ?_
      rw [empty, List.length_nil] at length
      omega
    exact ⟨c, begins c rfl, stands.isCharacterAt⟩
  · rw [counts.offset] at atEnd
    obtain rfl : future = [] := List.length_eq_zero_iff.mp (by omega)
    rw [← atEnd]
    exact stands.isEndAt

end Report

namespace Engine

variable {σ : Type} {engine : Engine σ} {source text : String} {diagnostic : Diagnostic} {world after : World σ}

/-- What stops a statement is no fault of the text. -/
theorem runDirect_ne_parse (index : Nat) (last : Int64) (program : Program) :
    engine.runDirect index last program world ≠ .error (.parse diagnostic text) after := by
  induction program generalizing index last world with
  | nil =>
      intro same
      cases same
  | cons statement rest ih =>
      cases came : engine.evaluator.executeDirect statement world with
      | ok outcome between =>
          rw [runDirect_of_ok came]
          exact ih (index + 1) outcome.result
      | error fault between =>
          rw [runDirect_of_error came]
          intro same
          cases same

/-- A diagnostic is that of the error that parsing came to, and goes with the text that was parsed. -/
theorem exists_error_of_eval (failed : engine.eval source world = .error (.parse diagnostic text) after) :
    ∃ error, engine.parse source = .error error ∧ diagnostic = error.diagnostic ∧ text = source := by
  cases parsed : engine.parse source with
  | error error =>
      rw [eval_of_parse_error parsed] at failed
      cases failed
      exact ⟨error, rfl, rfl, rfl⟩
  | ok program =>
      rw [eval_of_parse parsed, run_eq_runDirect] at failed
      exact (runDirect_ne_parse 0 0 program failed).elim

/-- A diagnostic stands in the text, at its end, or, where the ampersand or bar at the end took the semicolon that was
added, behind that. If the lines of the text end in line feeds, the report names the line and the column of the
diagnostic and marks the first character of the token there. At the end of the text it marks the place behind the last
character; there the text must not end in a line feed, because the report has no line for the place behind it. -/
theorem rendered_location_agrees (failed : engine.eval source world = .error (.parse diagnostic text) after) :
    text = source ∧ diagnostic.position.offset ≤ source.length + 1 ∧
      (diagnostic.position.offset = source.length + 1 → Scan.SwallowsTerminator source) ∧
      (Text.EndsInFeeds source.toList → diagnostic.position.offset ≤ source.length →
        ¬(diagnostic.position.offset = source.length ∧ source.toList.getLast? = some '\n') →
        Report.Locates diagnostic source) := by
  obtain ⟨error, parsed, rfl, rfl⟩ := exists_error_of_eval failed
  obtain ⟨bound, swallows⟩ := Program.offset_le_of_parse parsed
  refine ⟨rfl, bound, swallows, fun feeds within apart => ?_⟩
  obtain ⟨past, future, whole, counts, begins⟩ := Program.exists_place_of_parse parsed within
  refine Report.locates_of_counts whole counts begins feeds fun empty last => apart ⟨?_, ?_⟩
  · rw [← String.length_toList, whole, empty, List.append_nil]
    exact counts.offset
  · rw [whole, empty, List.append_nil]
    exact last

/-- The token behind a line that ends in a carriage return and a line feed; the end of a text; and a bar that took the
semicolon. -/
theorem rendered_location_agrees_lines :
    (∃ diagnostic after, ({} : Engine Unit).eval "var a = 1;\r\n 2 3;" ⟨∅, (), []⟩ =
        .error (.parse diagnostic "var a = 1;\r\n 2 3;") after ∧
      diagnostic.position = ⟨2, 4, 15⟩ ∧ Report.Locates diagnostic "var a = 1;\r\n 2 3;") ∧
    (∃ diagnostic after, ({} : Engine Unit).eval "1;\n2 +" ⟨∅, (), []⟩ = .error (.parse diagnostic "1;\n2 +") after ∧
      diagnostic.position = ⟨2, 4, 6⟩ ∧ (Report.target diagnostic "1;\n2 +").IsEndAt 6) ∧
    Scan.SwallowsTerminator "1 |" := by
  have parsed : ({} : Engine Unit).parse "var a = 1;\r\n 2 3;" =
      .error ⟨.missingTerminator (some (.number "3")), ⟨2, 4, 15⟩⟩ := by cbv
  have parsedEnd : ({} : Engine Unit).parse "1;\n2 +" = .error ⟨.unexpected .expression none, ⟨2, 4, 6⟩⟩ := by cbv
  have parsedBar : ({} : Engine Unit).parse "1 |" = .error ⟨.unexpected .expression none, ⟨1, 5, 4⟩⟩ := by cbv
  have failed : ({} : Engine Unit).eval "var a = 1;\r\n 2 3;" ⟨∅, (), []⟩ = _ :=
    congrFun (eval_of_parse_error parsed) _
  have failedEnd : ({} : Engine Unit).eval "1;\n2 +" ⟨∅, (), []⟩ = _ := congrFun (eval_of_parse_error parsedEnd) _
  have failedBar : ({} : Engine Unit).eval "1 |" ⟨∅, (), []⟩ = _ := congrFun (eval_of_parse_error parsedBar) _
  have locates := (rendered_location_agrees failed).2.2.2 (by decide) (by decide) (by decide)
  have locatesEnd := (rendered_location_agrees failedEnd).2.2.2 (by decide) (by decide) (by decide)
  refine ⟨⟨_, _, failed, rfl, locates⟩, ⟨_, _, failedEnd, rfl, locatesEnd.ended rfl⟩, ?_⟩
  exact (rendered_location_agrees failedBar).2.2.1 rfl

end Engine

end Abacus
