import Hivebus.Lib.Run
import Hivebus.Netgate.Control

namespace Hivebus.Netgate
open Lib Proto

/-- Where the task of a proxy rule stands: it has not had its first turn, it accepts
connections, or it could not bind and has returned. -/
inductive Phase where
  | spawned
  | listening
  | gone
deriving DecidableEq

structure ProxyTask where
  rule : ProxyRule
  phase : Phase
deriving DecidableEq

/-- A connection a task has accepted, where it was forwarded to, and whether the other end
could be reached. -/
structure Flow where
  listen : SocketAddr
  target : SocketAddr
  connected : Bool
deriving DecidableEq

/-- The running process: the tables behind the control socket, a task for each rule it was
told, in that order, and what the tasks have accepted, newest first. The task of the DNS
server is parked for good and reads nothing. -/
structure Gateway where
  state : State
  tasks : List ProxyTask
  flows : List Flow
  exited : Bool

/-- The first turn of `run_proxy_rule`; `bound` says whether the system gave it the address. -/
def ProxyTask.bind (bound : Bool) (t : ProxyTask) : ProxyTask :=
  match t.phase with
  | .spawned => { t with phase := if bound then .listening else .gone }
  | .listening | .gone => t

def port : SocketAddr → UInt16
  | .v4 _ port => port
  | .v6 _ port => port

/-- A connection to the control socket, the first turn of a task, or a connection to the
address of a task. -/
inductive Event where
  | control (stream : List UInt8)
  | bind (ix : Nat) (bound : Bool)
  | accept (ix : Nat) (connected : Bool)

namespace Gateway

def start : Gateway := ⟨⟨∅, [], []⟩, [], [], false⟩

/-- One connection to the control socket: the rules it brings get their tasks. -/
def serve (refusal : String → List UInt8 → String) (refused : List UInt8 → String) (g : Gateway)
    (stream : List UInt8) : Gateway :=
  match connection (controlPlane refusal) refused g.state stream with
  | (_, .exited) => { g with exited := true }
  | (s, _) =>
    { g with
      state := s
      tasks := g.tasks ++ (s.spawned.drop g.state.spawned.length).map (ProxyTask.mk · .spawned) }

def step (refusal : String → List UInt8 → String) (refused : List UInt8 → String) (g : Gateway)
    (e : Event) : Gateway :=
  if g.exited then g
  else
    match e with
    | .control stream => g.serve refusal refused stream
    | .bind ix bound => { g with tasks := g.tasks.modify ix (ProxyTask.bind bound) }
    | .accept ix connected =>
      match g.tasks[ix]? with
      | some ⟨rule, .listening⟩ =>
        { g with flows := ⟨rule.listen, rule.target, connected⟩ :: g.flows }
      | _ => g

def run (refusal : String → List UInt8 → String) (refused : List UInt8 → String)
    (es : List Event) : Gateway :=
  Run.exec (step refusal refused) start es

end Gateway

end Hivebus.Netgate
