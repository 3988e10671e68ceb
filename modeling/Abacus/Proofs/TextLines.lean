import Abacus.Proofs.ScanConcat

set_option autoImplicit false

/- Lines that end in line feeds, with a carriage return in front or without. In a text of such lines the line of a place is
found by counting line feeds: as many as there are before the place, that many lines are before its line. -/
namespace Abacus.Text

def otherLineEnds : List Char := ['\u000b', '\u000c', '\u0085', '\u2028', '\u2029']

/-- A text has no line ends but line feeds, some with a carriage return in front. -/
structure EndsInFeeds (text : List Char) : Prop where
  noOther : ∀ c ∈ text, c ∉ otherLineEnds
  carriage : ∀ before after, text = before ++ '\r' :: after → after.head? = some '\n'

theorem eq_or_mem_of_isLineEnd {c : Char} (ends : isLineEnd c = true) :
    c = '\n' ∨ c = '\r' ∨ c ∈ otherLineEnds := by
  have found : c.toNat = 10 ∨ c.toNat = 11 ∨ c.toNat = 12 ∨ c.toNat = 13 ∨ c.toNat = 0x85 ∨
      c.toNat = 0x2028 ∨ c.toNat = 0x2029 := by
    simp only [isLineEnd, Bool.or_eq_true, Bool.and_eq_true, decide_eq_true_eq, beq_iff_eq] at ends
    omega
  rw [← Char.ofNat_toNat c]
  rcases found with same | same | same | same | same | same | same <;> rw [same] <;> decide

/-- The line that a character is put in front of begins with it, and the others stay. -/
theorem Line.exists_extend (c : Char) (start : Nat) (lines : List Line) :
    ∃ shown, extend c start lines = ⟨start, c :: shown⟩ :: lines.tail := by
  cases lines with
  | nil => exact ⟨[], rfl⟩
  | cons first more => exact ⟨first.text, rfl⟩

namespace EndsInFeeds

variable {c : Char} {text rest : List Char}

theorem nil : EndsInFeeds [] where
  noOther _ member := by cases member
  carriage before _ parts := by cases before <;> cases parts

theorem tail (feeds : EndsInFeeds (c :: rest)) : EndsInFeeds rest where
  noOther d member := feeds.noOther d (List.mem_cons_of_mem c member)
  carriage before after parts := feeds.carriage (c :: before) after (by rw [parts, List.cons_append])

theorem cons_iff :
    EndsInFeeds (c :: rest) ↔ c ∉ otherLineEnds ∧ (c = '\r' → rest.head? = some '\n') ∧ EndsInFeeds rest := by
  constructor
  · intro feeds
    refine ⟨feeds.noOther c List.mem_cons_self, ?_, feeds.tail⟩
    rintro rfl
    exact feeds.carriage [] rest rfl
  · rintro ⟨noOther, carriage, feeds⟩
    refine ⟨List.forall_mem_cons.mpr ⟨noOther, feeds.noOther⟩, fun before after parts => ?_⟩
    cases before with
    | nil =>
        obtain ⟨same, rfl⟩ := List.cons.inj parts
        exact carriage same
    | cons d before => exact feeds.carriage before after (List.cons.inj parts).2

instance decidable : (text : List Char) → Decidable (EndsInFeeds text)
  | [] => .isTrue nil
  | c :: rest =>
    have := decidable rest
    decidable_of_iff _ (@cons_iff c rest).symm

/-- A line feed ends a line, and every other character belongs to the line that goes on behind it. -/
theorem linesFrom_cons (feeds : EndsInFeeds (c :: rest)) (start : Nat) :
    linesFrom start (c :: rest) =
      if c = '\n' then ⟨start, ['\n']⟩ :: linesFrom (start + 1) rest
      else Line.extend c start (linesFrom (start + 1) rest) := by
  by_cases feed : c = '\n'
  · subst feed
    rfl
  · rw [if_neg feed]
    by_cases carriage : c = '\r'
    · subst carriage
      obtain ⟨after, rfl⟩ := List.head?_eq_some_iff.mp (feeds.carriage [] rest rfl)
      rfl
    · have inside : isLineEnd c = false := by
        refine Bool.eq_false_iff.mpr fun ends => ?_
        rcases eq_or_mem_of_isLineEnd ends with same | same | member
        · exact feed same
        · exact carriage same
        · exact feeds.noOther c List.mem_cons_self member
      rw [linesFrom, inside]
      · rfl
      · exact fun _ same => (carriage same).elim

theorem le_start_of_mem (feeds : EndsInFeeds text) {start : Nat} {line : Line}
    (member : line ∈ linesFrom start text) : start ≤ line.start := by
  induction text generalizing start line with
  | nil => cases member
  | cons c rest ih =>
      rw [feeds.linesFrom_cons] at member
      by_cases feed : c = '\n'
      · rw [if_pos feed] at member
        rcases List.mem_cons.mp member with rfl | later
        · exact Nat.le_refl _
        · exact Nat.le_of_succ_le (ih feeds.tail later)
      · obtain ⟨shown, extended⟩ := Line.exists_extend c start (linesFrom (start + 1) rest)
        rw [if_neg feed, extended] at member
        rcases List.mem_cons.mp member with rfl | later
        · exact Nat.le_refl _
        · exact Nat.le_of_succ_le (ih feeds.tail (List.mem_of_mem_tail later))

/-- The first line begins where the text does, the others later. -/
theorem exists_first_line (feeds : EndsInFeeds (c :: rest)) (start : Nat) :
    ∃ shown more, linesFrom start (c :: rest) = ⟨start, c :: shown⟩ :: more ∧
      ∀ line ∈ more, start < line.start := by
  rw [feeds.linesFrom_cons]
  by_cases feed : c = '\n'
  · rw [if_pos feed, feed]
    exact ⟨[], _, rfl, fun _ member => feeds.tail.le_start_of_mem member⟩
  · obtain ⟨shown, extended⟩ := Line.exists_extend c start (linesFrom (start + 1) rest)
    rw [if_neg feed, extended]
    exact ⟨shown, _, rfl, fun _ member => feeds.tail.le_start_of_mem (List.mem_of_mem_tail member)⟩

end EndsInFeeds

/-- A line feed in front of the last line or before it leaves the last line as it is. -/
theorem lastLine_cons_of_mem {c : Char} {text : List Char} (feed : '\n' ∈ c :: text) :
    lastLine (c :: text) = lastLine text := by
  induction text using List.reverseRecOn with
  | nil =>
      obtain rfl := List.mem_singleton.mp feed
      rfl
  | append_singleton text d ih =>
      rw [← List.cons_append] at feed ⊢
      by_cases same : d = '\n'
      · rw [same, lastLine_newline, lastLine_newline]
      · have before : '\n' ∈ c :: text := by
          rcases List.mem_append.mp feed with member | member
          · exact member
          · exact (same (List.mem_singleton.mp member).symm).elim
        rw [lastLine_concat same, lastLine_concat same, ih before]

theorem lastLine_of_notMem {text : List Char} (oneLine : '\n' ∉ text) : lastLine text = text := by
  rw [lastLine, List.takeWhile_eq_self_iff.mpr, List.reverse_reverse]
  intro c member
  exact bne_iff_ne.mpr fun same => oneLine (same ▸ List.mem_reverse.mp member)

/-- The last of some lines holds a place of the text that begins at `start`: the place behind `past` and in front of
`future`. The lines before it are as many as the line feeds, and it goes on with the first character of `future`. -/
structure Reaches (lines : List Line) (line : Line) (start : Nat) (past future : List Char) : Prop where
  last : lines.getLast? = some line
  count : lines.length = 1 + past.count '\n'
  place : line.start + (lastLine past).length = start + past.length
  shown : ∃ shown, line.text = lastLine past ++ shown ∧ shown.head? = future.head?

namespace Reaches

variable {c : Char} {lines more : List Line} {first line : Line} {start : Nat} {past future : List Char}

theorem feed (reaches : Reaches lines line (start + 1) past future) :
    Reaches (⟨start, ['\n']⟩ :: lines) line start ('\n' :: past) future where
  last := by rw [List.getLast?_cons, reaches.last]; rfl
  count := by
    rw [List.length_cons, reaches.count, List.count_cons_self]
    omega
  place := by
    rw [lastLine_cons_of_mem List.mem_cons_self, reaches.place, List.length_cons]
    omega
  shown := by
    rw [lastLine_cons_of_mem List.mem_cons_self]
    exact reaches.shown

/-- The place at the end of a text of one character. -/
theorem single (inside : c ≠ '\n') : Reaches [⟨start, [c]⟩] ⟨start, [c]⟩ start [c] [] := by
  have whole : lastLine [c] = [c] := lastLine_of_notMem fun feed => inside (List.mem_singleton.mp feed).symm
  refine ⟨rfl, ?_, by rw [whole], [], by rw [whole]; rfl, rfl⟩
  rw [List.count_cons_of_ne inside]
  rfl

/-- One more character in front of the first line is one more in front of the place if they are on one line. -/
theorem extend (reaches : Reaches (first :: more) line (start + 1) past future) (inside : c ≠ '\n') :
    ∃ longer, Reaches (⟨start, c :: first.text⟩ :: more) longer start (c :: past) future := by
  have counts : (c :: past).count '\n' = past.count '\n' := List.count_cons_of_ne inside
  have count := reaches.count
  -- With one line the place is on it, and it grows. With more, a line feed keeps the character away from the place.
  cases more with
  | nil =>
      have oneLine : '\n' ∉ past := List.count_eq_zero.mp (by
        rw [List.length_singleton] at count
        omega)
      have whole : '\n' ∉ c :: past := List.not_mem_cons_of_ne_of_not_mem inside.symm oneLine
      obtain rfl : first = line := Option.some.inj reaches.last
      obtain ⟨shown, text, begun⟩ := reaches.shown
      refine ⟨⟨start, c :: first.text⟩, rfl, by rw [counts]; exact count, ?_, shown, ?_, begun⟩
      · rw [lastLine_of_notMem whole]
      · rw [text, lastLine_of_notMem whole, lastLine_of_notMem oneLine, List.cons_append]
  | cons second others =>
      have feed : '\n' ∈ past := List.count_pos_iff.mp (by
        rw [List.length_cons, List.length_cons] at count
        omega)
      have same := lastLine_cons_of_mem (List.mem_cons_of_mem c feed)
      refine ⟨line, ?_, by rw [counts]; exact count, ?_, by rw [same]; exact reaches.shown⟩
      · rw [← reaches.last, List.getLast?_cons_cons, List.getLast?_cons_cons]
      · rw [same, reaches.place, List.length_cons]
        omega

end Reaches

def linesUpTo (bound : Nat) (lines : List Line) : List Line := lines.takeWhile fun line => line.start ≤ bound

theorem linesUpTo_cons {bound start : Nat} (early : start ≤ bound) (text : List Char) (more : List Line) :
    linesUpTo bound (⟨start, text⟩ :: more) = ⟨start, text⟩ :: linesUpTo bound more :=
  List.takeWhile_cons_of_pos (decide_eq_true early)

theorem linesUpTo_eq_nil {bound : Nat} {lines : List Line} (later : ∀ line ∈ lines, bound < line.start) :
    linesUpTo bound lines = [] := by
  cases lines with
  | nil => rfl
  | cons line more =>
      refine List.takeWhile_cons_of_neg fun early => ?_
      exact Nat.not_le_of_gt (later line List.mem_cons_self) (of_decide_eq_true early)

/-- The last of the lines that begin at a place or before it holds the place. At the end of a text there has to be
something on its last line. -/
theorem EndsInFeeds.exists_reaches {past future : List Char} (feeds : EndsInFeeds (past ++ future))
    (filled : past ++ future ≠ []) (ended : future = [] → past.getLast? ≠ some '\n') (start : Nat) :
    ∃ line, Reaches (linesUpTo (start + past.length) (linesFrom start (past ++ future))) line start past future := by
  -- A line feed puts a line in front of those that are there, another character makes the first of them longer.
  induction past generalizing start with
  | nil =>
      obtain ⟨c, rest, rfl⟩ := List.exists_cons_of_ne_nil filled
      obtain ⟨shown, more, lines, later⟩ := feeds.exists_first_line start
      refine ⟨⟨start, c :: shown⟩, ?_⟩
      rw [List.nil_append, lines, List.length_nil, Nat.add_zero, linesUpTo_cons (Nat.le_refl _),
        linesUpTo_eq_nil later]
      exact ⟨rfl, rfl, rfl, c :: shown, rfl, rfl⟩
  | cons c past ih =>
      have bound : start + (c :: past).length = start + 1 + past.length := by
        rw [List.length_cons]
        omega
      have early : start ≤ start + 1 + past.length := by omega
      rw [List.cons_append] at feeds ⊢
      rw [feeds.linesFrom_cons, bound]
      by_cases alone : past ++ future = []
      · obtain ⟨rfl, rfl⟩ := List.append_eq_nil_iff.mp alone
        have inside : c ≠ '\n' := fun feed => ended rfl (congrArg some feed)
        refine ⟨⟨start, [c]⟩, ?_⟩
        rw [if_neg inside, List.append_nil, linesFrom, Line.extend, linesUpTo_cons early]
        exact .single inside
      · have endedTail : future = [] → past.getLast? ≠ some '\n' := fun empty last =>
          ended empty (by rw [List.getLast?_cons, last]; rfl)
        obtain ⟨line, reaches⟩ := ih feeds.tail alone endedTail (start + 1)
        by_cases feed : c = '\n'
        · subst feed
          refine ⟨line, ?_⟩
          rw [if_pos rfl, linesUpTo_cons early]
          exact reaches.feed
        · obtain ⟨d, rest, tail⟩ := List.exists_cons_of_ne_nil alone
          obtain ⟨shown, more, lines, -⟩ := (tail ▸ feeds.tail).exists_first_line (start + 1)
          rw [tail, lines, linesUpTo_cons (Nat.le_add_right _ _)] at reaches
          rw [if_neg feed, tail, lines, Line.extend, linesUpTo_cons early]
          exact reaches.extend feed

/-- Of the lines of a whole text too, the last that begins at a place or before it holds the place. -/
theorem EndsInFeeds.exists_reaches_lines {past future : List Char} (feeds : EndsInFeeds (past ++ future))
    (ended : future = [] → past.getLast? ≠ some '\n') :
    ∃ line, Reaches (linesUpTo past.length (lines (past ++ future))) line 0 past future := by
  by_cases empty : past ++ future = []
  · obtain ⟨rfl, rfl⟩ := List.append_eq_nil_iff.mp empty
    exact ⟨⟨0, []⟩, rfl, rfl, rfl, [], rfl, rfl⟩
  · have found := feeds.exists_reaches empty ended 0
    rw [Nat.zero_add] at found
    rw [lines, if_neg (by rw [List.isEmpty_iff]; exact empty)]
    exact found

end Abacus.Text
