import Hivebus.Hivectl.App
import Hivebus.Proofs.ClusterView

namespace Hivebus.Proofs.Screen
open Lib Proto ControlView ClusterView Hivectl

/-- The answer to a query of this daemon, whatever the daemon does around the two requests
and wherever the connections break. -/
def From (d : Bus.Daemon) (answer : Answer) : Prop :=
  ∃ x : Session, x.daemon = d ∧ x.query = answer

section Turn

variable {render : Nat → Option Nat → Option Nat} {d : Bus.Daemon}

/-- What both refreshes of a turn can come back with. -/
def Answered (d : Bus.Daemon) (t : Turn) : Prop := From d t.answer ∧ From d t.autoAnswer

end Turn

end Hivebus.Proofs.Screen
