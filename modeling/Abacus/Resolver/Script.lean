import Abacus.Resolver

set_option autoImplicit false

namespace Abacus

/-- For each name the answers that are still to be given. The last one is never used up. -/
abbrev Script := List (String × List Answer)

namespace Script

def next (name : String) : Script → Answer × Script
  | [] => (.unknown, [])
  | (known, answers) :: rest =>
    if known = name then
      match answers with
      | [] => (.unknown, (known, []) :: rest)
      | [last] => (last, (known, [last]) :: rest)
      | answer :: later => (answer, (known, later) :: rest)
    else
      let (answer, after) := next name rest
      (answer, (known, answers) :: after)

end Script

/-- The resolver that hands out the answers of a script in turn. -/
def Resolver.scripted : Resolver Script := ⟨Script.next⟩

namespace Answer

def isFault : Answer → Bool
  | fault _ => true
  | _ => false

/-- The answer, with a fault read as that the name is not known. -/
def calmed : Answer → Answer
  | fault _ => unknown
  | answer => answer

@[simp] theorem value?_calmed (answer : Answer) : answer.calmed.value? = answer.value? := by
  cases answer <;> rfl

@[simp] theorem isFault_calmed (answer : Answer) : answer.calmed.isFault = false := by
  cases answer <;> rfl

end Answer

namespace Resolver

variable {σ τ : Type}

def memoryAfter (resolver : Resolver σ) (memory : σ) (names : List String) : σ :=
  names.foldl (fun memory name => (resolver.resolve name memory).2) memory

/-- From the memory on, each name has one answer, whichever names were asked for before it. Without a resolver no name
is known. -/
def IsStable (answers : String → Answer) : Option (Resolver σ) → σ → Prop
  | none, _ => ∀ name, answers name = .unknown
  | some resolver, memory =>
    ∀ names name, (resolver.resolve name (resolver.memoryAfter memory names)).1 = answers name

namespace IsStable

variable {answers : String → Answer} {resolver : Resolver σ} {memory : σ}

theorem answer (stable : IsStable answers (some resolver) memory) (name : String) :
    (resolver.resolve name memory).1 = answers name :=
  stable [] name

theorem next (stable : IsStable answers (some resolver) memory) (name : String) :
    IsStable answers (some resolver) (resolver.resolve name memory).2 :=
  fun names => stable (name :: names)

/-- A resolver that remembers nothing of a question is stable. -/
theorem of_fixed (fixed : ∀ name, resolver.resolve name memory = (answers name, memory)) :
    IsStable answers (some resolver) memory := by
  intro names name
  have unchanged : resolver.memoryAfter memory names = memory := by
    induction names with
    | nil => rfl
    | cons asked rest ih =>
        rw [memoryAfter, List.foldl_cons, fixed]
        exact ih
  rw [unchanged, fixed]

end IsStable

/-- The questions and answers when the resolver is asked for names, one after another. -/
def transcript (resolver : Resolver σ) : σ → List String → List Consultation
  | _, [] => []
  | memory, name :: rest =>
    ⟨name, (resolver.resolve name memory).1⟩ ::
      resolver.transcript (resolver.resolve name memory).2 rest

def answerAfter (resolver : Resolver σ) (memory : σ) (names : List String) (name : String) : Answer :=
  (resolver.resolve name (resolver.memoryAfter memory names)).1

/-- The value of a name, after others were asked for. Without a resolver no name has one. -/
def valueAfter? : Option (Resolver σ) → σ → List String → String → Option Int64
  | none, _, _, _ => none
  | some resolver, memory, names, name => (resolver.answerAfter memory names name).value?

/-- Whatever they are asked, in whatever order, the second resolver says what the first one says, but for faults: there it
does not know the name. -/
def Calms (resolver : Resolver σ) (memory : σ) (calm : Resolver τ) (calmMemory : τ) : Prop :=
  ∀ names name, calm.answerAfter calmMemory names name = (resolver.answerAfter memory names name).calmed

/-- The resolver with each fault replaced by that the name is not known. -/
def calmed (resolver : Resolver σ) : Resolver σ where
  resolve name memory :=
    ((resolver.resolve name memory).1.calmed, (resolver.resolve name memory).2)

theorem calms_calmed (resolver : Resolver σ) (memory : σ) :
    resolver.Calms memory resolver.calmed memory :=
  fun _ _ => rfl

theorem memoryAfter_concat (resolver : Resolver σ) (memory : σ) (names : List String) (name : String) :
    resolver.memoryAfter memory (names ++ [name]) =
      (resolver.resolve name (resolver.memoryAfter memory names)).2 := by
  simp only [memoryAfter, List.foldl_append, List.foldl_cons, List.foldl_nil]

theorem transcript_concat (resolver : Resolver σ) (memory : σ) (names : List String) (name : String) :
    resolver.transcript memory (names ++ [name]) =
      resolver.transcript memory names ++ [⟨name, resolver.answerAfter memory names name⟩] := by
  induction names generalizing memory with
  | nil => rfl
  | cons asked rest ih =>
      rw [List.cons_append, transcript, ih]
      rfl

@[simp] theorem map_name_transcript (resolver : Resolver σ) (memory : σ) (names : List String) :
    (resolver.transcript memory names).map (·.name) = names := by
  induction names generalizing memory with
  | nil => rfl
  | cons asked rest ih =>
      rw [transcript, List.map_cons, ih]

theorem exists_of_mem_transcript {resolver : Resolver σ} {memory : σ} {names : List String}
    {consultation : Consultation} (member : consultation ∈ resolver.transcript memory names) :
    ∃ before, consultation.answer = resolver.answerAfter memory before consultation.name := by
  induction names generalizing memory with
  | nil => cases member
  | cons asked rest ih =>
      rcases List.mem_cons.mp member with rfl | later
      · exact ⟨[], rfl⟩
      · obtain ⟨before, same⟩ := ih later
        exact ⟨asked :: before, same⟩

/-- A resolver that calms another one meets no fault. -/
theorem Calms.isFault_of_mem {resolver : Resolver σ} {memory : σ} {calm : Resolver τ} {calmMemory : τ}
    (calms : resolver.Calms memory calm calmMemory) {names : List String} {consultation : Consultation}
    (member : consultation ∈ calm.transcript calmMemory names) :
    consultation.answer.isFault = false := by
  obtain ⟨before, same⟩ := exists_of_mem_transcript member
  rw [same, calms, Answer.isFault_calmed]

end Resolver

end Abacus
