import Hivebus.Lib.Run

namespace Lib.Tasks

variable {σ ε : Type}

/-- What happens to tasks that are started one after the other and share nothing. -/
inductive Event (σ ε : Type) where
  | spawn (s : σ)
  | run (i : Nat) (e : ε)

/-- A step of one task; a number without a task is none. -/
def step (next : σ → ε → σ) (ts : List σ) : Event σ ε → List σ
  | .spawn s => ts ++ [s]
  | .run i e => ts.modify i (fun s => next s e)

/-- The steps of one task. -/
def own (i : Nat) : Event σ ε → Option ε
  | .spawn _ => none
  | .run j e => if j = i then some e else none

variable {next : σ → ε → σ}

end Lib.Tasks
