set_option autoImplicit false

namespace Abacus

/-- What went wrong inside a resolver: it reported an error, or it broke down, with or without a
last word. -/
inductive Fault where
  | error (message : String)
  | panic (message : Option String)
deriving DecidableEq, Repr

inductive Answer where
  | value (value : Int64)
  | unknown
  | fault (fault : Fault)
deriving DecidableEq, Repr

/-- The value in an answer. A fault has none, like a name that is not known. -/
def Answer.value? : Answer → Option Int64
  | value v => some v
  | unknown => none
  | fault _ => none

theorem Answer.eq_value_of_value? {answer : Answer} {v : Int64} (given : answer.value? = some v) :
    answer = .value v := by
  cases answer <;> cases given
  rfl

/-- A source of values with a memory of type `σ`. -/
structure Resolver (σ : Type) where
  resolve : String → σ → Answer × σ

structure Consultation where
  name : String
  answer : Answer
deriving DecidableEq, Repr

/-- A fault that is to be logged, and the name that met it. -/
structure Warning where
  name : String
  fault : Fault
deriving DecidableEq, Repr

namespace Warning

def message (warning : Warning) : String :=
  match warning.fault with
  | .error _ => "error while resolving condition"
  | .panic _ => "condition resolver panicked"

def detail (warning : Warning) : String :=
  match warning.fault with
  | .error message => message
  | .panic message => message.getD "unknown panic"

end Warning

def Consultation.warning? (consultation : Consultation) : Option Warning :=
  match consultation.answer with
  | .fault fault => some ⟨consultation.name, fault⟩
  | _ => none

end Abacus
