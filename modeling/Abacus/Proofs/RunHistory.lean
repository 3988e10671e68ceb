import Abacus.Proofs.DirectEvaluation

set_option autoImplicit false

/- The history of a run: what was asked and assigned, in order. A history is orderly if a name is asked for only while
nothing binds it, a value that was found is bound at once, and nothing happens after an answer without a value. What
that means for the names in a history is said here of every orderly history. -/
namespace Abacus

variable {σ : Type}

/-- A step of a run that the world can tell: a name was put to the resolver, or bound by a statement. -/
inductive Event where
  | consulted (consultation : Consultation)
  | assigned (name : String) (value : Int64)
deriving DecidableEq, Repr

namespace Event

def consultation? : Event → Option Consultation
  | consulted consultation => some consultation
  | assigned _ _ => none

def asked (events : List Event) : List Consultation := events.filterMap consultation?

@[simp] theorem asked_consulted (consultation : Consultation) (events : List Event) :
    asked (consulted consultation :: events) = consultation :: asked events := rfl

@[simp] theorem asked_append (first second : List Event) :
    asked (first ++ second) = asked first ++ asked second :=
  List.filterMap_append

@[simp] theorem asked_map_consulted (made : List Consultation) : asked (made.map consulted) = made := by
  induction made with
  | nil => rfl
  | cons consultation made ih => exact congrArg (consultation :: ·) ih

end Event

def World.since (earlier later : World σ) : List Consultation :=
  (later.consultations.take (later.consultations.length - earlier.consultations.length)).reverse

theorem World.since_of_append {earlier later : World σ} {made : List Consultation}
    (more : later.consultations = made.reverse ++ earlier.consultations) :
    earlier.since later = made := by
  have added : later.consultations.length - earlier.consultations.length = made.reverse.length := by
    rw [more, List.length_append]
    omega
  rw [since, added, more, List.take_left, List.reverse_reverse]

/-- What a statement that succeeds does after its evaluation. -/
def Outcome.events : Outcome → List Event
  | value _ => []
  | assigned name v => [.assigned name v]

theorem Event.asked_events (outcome : Outcome) : asked outcome.events = [] := by
  cases outcome <;> rfl

namespace Engine

/-- What happens in a run of statements on a machine, up to the first that fails. -/
def historyFrom (engine : Engine σ) : Program → Machine σ → List Event
  | [], _ => []
  | statement :: rest, machine =>
    match engine.evaluator.execute statement machine with
    | .ok outcome after =>
      (machine.since after.toWorld).map .consulted ++ outcome.events ++ engine.historyFrom rest after
    | .error _ after => (machine.since after.toWorld).map .consulted

def history (engine : Engine σ) (program : Program) (world : World σ) : List Event :=
  engine.historyFrom program { world with }

section Steps

variable {engine : Engine σ} {statement : Statement} {world after : World σ}

theorem history_of_ok {outcome : Outcome}
    (came : engine.evaluator.executeDirect statement world = .ok outcome after) (rest : Program) :
    engine.history (statement :: rest) world =
      (world.since after).map .consulted ++ outcome.events ++ engine.history rest after := by
  have same := engine.evaluator.execute_agrees statement world
  simp only [history, historyFrom, same, Machine.lift, came]

theorem history_of_error {error : EvalError}
    (came : engine.evaluator.executeDirect statement world = .error error after) (rest : Program) :
    engine.history (statement :: rest) world = (world.since after).map .consulted := by
  have same := engine.evaluator.execute_agrees statement world
  simp only [history, historyFrom, same, Machine.lift, came]

end Steps

end Engine

/-- The history leads from one environment to another where values of the resolver are kept. A name is asked for only
while it is unbound. After an answer without a value to the name in `stop` nothing more happens. -/
inductive Orderly : Environment → List Event → Environment → (stop : Option String) → Prop
  | nil {start : Environment} : Orderly start [] start none
  | resolved {start final : Environment} {name : String} {answer : Answer} {value : Int64}
      {events : List Event} {stop : Option String} (unbound : start[name]? = none)
      (found : answer.value? = some value)
      (later : Orderly (start.insert name value) events final stop) :
      Orderly start (.consulted ⟨name, answer⟩ :: events) final stop
  | refused {start : Environment} {name : String} {answer : Answer} (unbound : start[name]? = none)
      (missing : answer.value? = none) :
      Orderly start [.consulted ⟨name, answer⟩] start (some name)
  | assigned {start final : Environment} {name : String} {value : Int64} {events : List Event}
      {stop : Option String} (later : Orderly (start.insert name value) events final stop) :
      Orderly start (.assigned name value :: events) final stop

namespace Orderly

open Event

variable {start final : Environment} {events before later : List Event} {stop : Option String}
  {name : String} {value : Int64}

theorem append {between : Environment} (first : Orderly start before between none)
    (second : Orderly between later final stop) : Orderly start (before ++ later) final stop := by
  generalize goesOn : (none : Option String) = open_ at first
  induction first with
  | nil => exact second
  | resolved unbound found _ ih => exact .resolved unbound found (ih second goesOn)
  | refused => cases goesOn
  | assigned _ ih => exact .assigned (ih second goesOn)

theorem settle {world : World σ} (outcome : Outcome) :
    Orderly world.environment outcome.events (outcome.settle world).environment none := by
  cases outcome with
  | value value => exact .nil
  | assigned name value => exact .assigned .nil

/-- What is left of an orderly history is one from the environment reached by then. -/
theorem rest (orderly : Orderly start (before ++ later) final stop) (goesOn : later ≠ []) :
    ∃ between, Orderly between later final stop := by
  induction before generalizing start with
  | nil => exact ⟨start, orderly⟩
  | cons event before ih =>
      rw [List.cons_append] at orderly
      generalize tail : before ++ later = events at orderly
      cases orderly with
      | resolved _ _ orderly =>
          subst tail
          exact ih orderly
      | assigned orderly =>
          subst tail
          exact ih orderly
      | refused => exact absurd (List.append_eq_nil_iff.mp tail).2 goesOn

theorem unbound (orderly : Orderly start events final stop) :
    ∀ consultation ∈ asked events, start[consultation.name]? = none := by
  induction orderly with
  | nil => exact fun _ member => absurd member List.not_mem_nil
  | resolved unbound _ _ ih =>
      refine List.forall_mem_cons.mpr ⟨unbound, fun consultation member => ?_⟩
      exact (Environment.getElem?_insert_eq_none.mp (ih consultation member)).2
  | refused unbound _ => exact List.forall_mem_singleton.mpr unbound
  | assigned _ ih =>
      exact fun consultation member =>
        (Environment.getElem?_insert_eq_none.mp (ih consultation member)).2

/-- Once a name is bound it is not asked for any more. -/
theorem not_asked (orderly : Orderly (start.insert name value) events final stop) :
    ∀ consultation ∈ asked events, consultation.name ≠ name := by
  intro consultation member
  exact (Environment.getElem?_insert_eq_none.mp (orderly.unbound consultation member)).1.symm

theorem nodup (orderly : Orderly start events final stop) :
    ((asked events).map (·.name)).Nodup := by
  induction orderly with
  | nil => exact List.nodup_nil
  | resolved _ _ later ih =>
      rw [asked_consulted, List.map_cons, List.nodup_cons]
      refine ⟨fun member => ?_, ih⟩
      obtain ⟨consultation, member, same⟩ := List.mem_map.mp member
      exact later.not_asked consultation member same
  | refused => exact List.pairwise_singleton _ _
  | assigned _ ih => exact ih

theorem not_asked_after_assigned
    (orderly : Orderly start (before ++ .assigned name value :: later) final stop) :
    ∀ consultation ∈ asked later, consultation.name ≠ name := by
  obtain ⟨between, orderly⟩ := orderly.rest (List.cons_ne_nil _ _)
  cases orderly with
  | assigned orderly => exact orderly.not_asked

/-- Only the last answer may lack a value. -/
theorem succeeded (orderly : Orderly start events final stop) :
    ∀ consultation ∈ (asked events).dropLast, consultation.answer.value?.isSome = true := by
  induction orderly with
  | nil => exact fun _ member => absurd member List.not_mem_nil
  | @resolved _ _ _ _ _ events _ _ found _ ih =>
      rw [asked_consulted]
      by_cases last : asked events = []
      · rw [last]
        exact fun _ member => absurd member List.not_mem_nil
      · rw [List.dropLast_cons_of_ne_nil last]
        exact List.forall_mem_cons.mpr ⟨Option.isSome_of_eq_some found, ih⟩
  | refused => exact fun _ member => absurd member List.not_mem_nil
  | assigned _ ih => exact ih

/-- A history that goes on has a value for all it asked. -/
theorem all_succeeded (orderly : Orderly start events final none) :
    ∀ consultation ∈ asked events, consultation.answer.value?.isSome = true := by
  generalize goesOn : (none : Option String) = open_ at orderly
  induction orderly with
  | nil => exact fun _ member => absurd member List.not_mem_nil
  | resolved _ found _ ih =>
      exact List.forall_mem_cons.mpr ⟨Option.isSome_of_eq_some found, ih goesOn⟩
  | refused => cases goesOn
  | assigned _ ih => exact ih goesOn

/-- A history that stops does so at what it asked last. -/
theorem getLast?_asked (orderly : Orderly start events final (some name)) :
    ∃ answer, (asked events).getLast? = some ⟨name, answer⟩ ∧ answer.value? = none := by
  generalize stops : some name = stop at orderly
  induction orderly with
  | nil => cases stops
  | resolved _ _ _ ih =>
      obtain ⟨answer, last, missing⟩ := ih stops
      refine ⟨answer, ?_, missing⟩
      rw [asked_consulted, List.getLast?_cons, last]
      rfl
  | refused _ missing =>
      cases stops
      exact ⟨_, rfl, missing⟩
  | assigned _ ih => exact ih stops

theorem stays_bound (orderly : Orderly start events final stop) (bound : name ∈ start) :
    name ∈ final := by
  induction orderly with
  | nil => exact bound
  | resolved _ _ _ ih => exact ih (Std.ExtTreeMap.mem_insert.mpr (Or.inr bound))
  | refused => exact bound
  | assigned _ ih => exact ih (Std.ExtTreeMap.mem_insert.mpr (Or.inr bound))

/-- A binding lasts until a statement assigns to the name. -/
theorem keeps (orderly : Orderly start events final stop) (bound : start[name]? = some value)
    (kept : ∀ other, Event.assigned name other ∉ events) : final[name]? = some value := by
  induction orderly with
  | nil => exact bound
  | resolved unbound _ _ ih =>
      simp only [List.mem_cons, not_or] at kept
      refine ih ?_ fun other => (kept other).2
      rw [Environment.getElem?_insert, if_neg]
      · exact bound
      · rintro rfl
        rw [unbound] at bound
        cases bound
  | refused => exact bound
  | assigned _ ih =>
      simp only [List.mem_cons, not_or] at kept
      refine ih ?_ fun other => (kept other).2
      rw [Environment.getElem?_insert, if_neg]
      · exact bound
      · rintro rfl
        exact (kept _).1 rfl

theorem bound_insert (orderly : Orderly (start.insert name value) events final stop) :
    name ∈ final ∧ ((∀ other, Event.assigned name other ∉ events) → final[name]? = some value) := by
  refine ⟨orderly.stays_bound Std.ExtTreeMap.mem_insert_self, orderly.keeps ?_⟩
  rw [Environment.getElem?_insert, if_pos rfl]

/-- What was found is bound in the end. -/
theorem found_bound (orderly : Orderly start events final stop) :
    ∀ consultation ∈ asked events, consultation.answer.value?.isSome = true →
      consultation.name ∈ final := by
  induction orderly with
  | nil => exact fun _ member => absurd member List.not_mem_nil
  | resolved _ _ later ih => exact List.forall_mem_cons.mpr ⟨fun _ => later.bound_insert.1, ih⟩
  | refused _ missing =>
      refine List.forall_mem_singleton.mpr fun found => ?_
      rw [missing] at found
      cases found
  | assigned _ ih => exact ih

theorem bound_assigned
    (orderly : Orderly start (before ++ .assigned name value :: later) final stop) :
    name ∈ final ∧ ((∀ other, Event.assigned name other ∉ later) → final[name]? = some value) := by
  obtain ⟨between, orderly⟩ := orderly.rest (List.cons_ne_nil _ _)
  cases orderly with
  | assigned orderly => exact orderly.bound_insert

theorem bound_resolved {answer : Answer}
    (orderly : Orderly start (before ++ .consulted ⟨name, answer⟩ :: later) final stop)
    (found : answer.value? = some value) :
    name ∈ final ∧ ((∀ other, Event.assigned name other ∉ later) → final[name]? = some value) := by
  obtain ⟨between, orderly⟩ := orderly.rest (List.cons_ne_nil _ _)
  cases orderly with
  | resolved _ same orderly =>
      cases found.symm.trans same
      exact orderly.bound_insert
  | refused _ missing =>
      rw [missing] at found
      cases found

end Orderly

end Abacus
