import Mathlib.Data.Fintype.Basic
import Mathlib.Logic.Function.Basic
import Hivebus.Bus.Gossip
import Hivebus.Bus.Machine

namespace Hivebus.Bus
open Lib Proto

/-- One of the machines of a cluster: its daemon, where its frames come from, and the
order its table is listed in. -/
structure Site where
  daemon : Daemon
  source : SocketAddr
  ord : Table.Order UInt16 NodeInfo

structure Node where
  state : State
  seq : UInt8

/-- A copy of a gossip frame on its way to one of the machines. -/
structure Copy (k : Nat) where
  dest : Fin k
  source : SocketAddr
  sentAt : SystemTime
  data : List UInt8

/-- The daemons and the copies that may still be delivered, newest first. -/
structure Cluster (k : Nat) where
  nodes : Fin k → Node
  wire : List (Copy k)

def Cluster.start {k : Nat} : Cluster k := ⟨fun _ => ⟨Bus.start, 0⟩, []⟩

/-- What happens in a cluster. A copy that is never delivered is lost; frames other
than gossip come with the time they were sent. -/
inductive Act (k : Nat) where
  | sample (i : Fin k)
  | scan (i : Fin k)
  | gossip (i : Fin k)
  | deliver (ix : Nat)
  | frame (i : Fin k) (source : SocketAddr) (sentAt : SystemTime) (f : Frame)

structure Move (k : Nat) where
  now : SystemTime
  act : Act k

/-- Lets one daemon take a step of its own. -/
def Cluster.onNode {k : Nat} (c : Cluster k) (i : Fin k) (f : State → State) : Cluster k :=
  { c with nodes := Function.update c.nodes i { c.nodes i with state := f (c.nodes i).state } }

/-- One move of a cluster whose frames are delivered within `delay` or not at all. -/
def move {k : Nat} (delay : Duration) (sites : Fin k → Site) (c : Cluster k) (e : Move k) :
    Cluster k :=
  match e.act with
  | .sample i =>
    c.onNode i (fun s => step (sites i).ord (sites i).daemon s ⟨e.now, .sample⟩)
  | .scan i =>
    c.onNode i (fun s => step (sites i).ord (sites i).daemon s ⟨e.now, .scan⟩)
  | .frame i source _ f =>
    c.onNode i (fun s => step (sites i).ord (sites i).daemon s ⟨e.now, .recv source f⟩)
  | .gossip i =>
    let round := gossipRound (sites i).ord (sites i).daemon (fun _ => epochMs e.now)
      (c.nodes i).seq (c.nodes i).state.members
    { nodes := Function.update c.nodes i { c.nodes i with seq := round.1 }
      wire := (match round.2 with
        | some data => (List.finRange k).map (fun j => ⟨j, (sites i).source, e.now, data⟩)
        | none => []) ++ c.wire }
  | .deliver ix =>
    match c.wire[ix]? with
    | some copy =>
      if e.now.ns ≤ copy.sentAt.ns + delay then
        { c with wire := c.wire.eraseIdx ix }.onNode copy.dest (fun s =>
          take (sites copy.dest).ord (sites copy.dest).daemon s
            ⟨e.now, .datagram copy.source copy.data⟩)
      else c
    | none => c

end Hivebus.Bus
