import Hivebus.Lib.Run
import Hivebus.Bus.Members

namespace Hivebus.Bus
open Lib Proto

/-- The failure detector reads the clock before it waits for the lock, so its reading
is part of the state while it waits. -/
structure State where
  members : Members
  sampled : Option SystemTime

inductive Action where
  | recv (source : SocketAddr) (frame : Frame)
  | sample
  | scan

/-- An action and the time on the daemon's clock when it is taken. -/
structure Event where
  now : SystemTime
  action : Action

def start : State := ⟨∅, none⟩

/-- The listener and the failure detector share the table; each event is one critical
section of one of them. An action whose task is not at that point does nothing. -/
def step (ord : Table.Order UInt16 NodeInfo) (d : Daemon) (s : State) (e : Event) : State :=
  match e.action, s.sampled with
  | .recv source frame, _ =>
    { s with members := handleFrame d.selfId e.now source frame s.members }
  | .sample, none => { s with sampled := some e.now }
  | .sample, some _ => s
  | .scan, some now => ⟨Bus.scan ord d now s.members, none⟩
  | .scan, none => s

def epochMs (now : SystemTime) : UInt64 := UInt64.ofNat (now.ns / 10 ^ 6)

/-- The incarnation of a node that starts now: the clock in milliseconds, of which the low
32 bits are kept. -/
def startIncarnation (now : SystemTime) : UInt32 := (epochMs now).toUInt32

def defaultHbInterval : Nat := 150

def defaultSuspectMisses : Nat := 3

def defaultDeadSecs : Nat := 30

/-- The daemon `main` starts for a config that leaves the timing to its defaults. -/
def defaultDaemon (selfId : UInt16) (hostname : String) (controlAddr : SocketAddr)
    (incarnation : UInt32) : Daemon where
  selfId := selfId
  hostname := hostname
  controlAddr := controlAddr
  incarnation := incarnation
  suspectThreshold := Duration.fromMillis (defaultHbInterval * defaultSuspectMisses)
  deadThreshold := Duration.fromSecs defaultDeadSecs

/-- Node 2 of the three-node cluster the documentation describes. -/
def node2 : Daemon := defaultDaemon 2 "node2" (.v4 ⟨0x0A2A000C⟩ 7778) 1

/-- Where the frames of a node of that cluster come from. -/
def peer (n : UInt32) : SocketAddr := .v4 ⟨0x0A2A000A + n⟩ 7777

/-- The daemon after a run of events from an empty table. -/
def run (ord : Table.Order UInt16 NodeInfo) (d : Daemon) (es : List Event) : State :=
  Run.exec (step ord d) start es

/-- What the socket and the timer hand to the tasks: of a datagram the bytes that were read
into the buffer. -/
inductive Cause where
  | datagram (source : SocketAddr) (data : List UInt8)
  | sample
  | scan

structure Input where
  now : SystemTime
  cause : Cause

/-- The daemon on the bytes it reads. -/
def take (ord : Table.Order UInt16 NodeInfo) (d : Daemon) (s : State) (i : Input) : State :=
  match i.cause with
  | .datagram source data =>
    { s with members := listen d.selfId i.now source data s.members }
  | .sample => step ord d s ⟨i.now, .sample⟩
  | .scan => step ord d s ⟨i.now, .scan⟩

/-- The event an input is; bytes that do not decode are none. -/
def Input.event (i : Input) : Option Event :=
  match i.cause with
  | .datagram source data => (decodeFrame data).map (fun f => ⟨i.now, .recv source f⟩)
  | .sample => some ⟨i.now, .sample⟩
  | .scan => some ⟨i.now, .scan⟩

theorem take_eq (ord : Table.Order UInt16 NodeInfo) (d : Daemon) (s : State) (i : Input) :
    take ord d s i = Run.exec (step ord d) s i.event.toList := by
  obtain ⟨now, cause⟩ := i
  cases cause with
  | datagram source data =>
    simp only [take, listen, Input.event]
    cases decodeFrame data <;> rfl
  | sample => rfl
  | scan => rfl

end Hivebus.Bus
