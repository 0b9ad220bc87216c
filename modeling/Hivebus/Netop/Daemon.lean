import Hivebus.Lib.Run
import Hivebus.Netop.Control

namespace Hivebus.Netop
open Lib Proto

structure Config where
  reconcileSecs : UInt64
deriving DecidableEq

def defaultReconcileSecs : UInt64 := 5

/-- The derived default: it does not ask `default_reconcile_secs`, which stands in for a
missing key only. -/
def Config.default : Config := ⟨0⟩

def DesiredState.default : DesiredState := ⟨[], []⟩

/-- The config of `main`: `file` is what reading gives when there is something at the path,
and `fromStr` finds the one key in a text or not. -/
def load (fromStr : String → Except String (Option UInt64))
    (file : Option (Except String String)) : Except String Config :=
  match file with
  | none => .ok .default
  | some read => do
    let raw ← read
    let reconcileSecs ← fromStr raw
    return ⟨reconcileSecs.getD defaultReconcileSecs⟩

/-- A reading of the monotonic clock in nanoseconds. -/
abbrev Instant := Nat

/-- Where `reconcile_loop` stands: it has not had its first turn, it waits for its next tick,
or it has panicked. -/
inductive Loop where
  | spawned (period : Duration)
  | ticking (period : Duration) (next : Instant)
  | panicked
deriving DecidableEq

/-- The running process: the shared state, the reconciliation loop, and the passes it has
made, each with its time and the state it was made for. -/
structure Daemon where
  state : DesiredState
  loop : Loop
  passes : List (Instant × DesiredState)
  exited : Bool

inductive Doing where
  | control (stream : List UInt8)
  | poll

structure Event where
  now : Instant
  doing : Doing

namespace Daemon

def start (cfg : Config) : Daemon where
  state := .default
  loop := .spawned (Duration.fromSecs cfg.reconcileSecs.toNat)
  passes := []
  exited := false

/-- One connection to the control socket. -/
def serve (refusal : String → List UInt8 → String) (refused : List UInt8 → String) (d : Daemon)
    (stream : List UInt8) : Daemon :=
  match connection (controlPlane refusal) refused d.state stream with
  | (_, .exited) => { d with exited := true }
  | (s, _) => { d with state := s }

/-- A turn of the loop. An interval of zero panics when it is made; the first tick is at
once, and a tick that comes late does not put off the next one. -/
def poll (d : Daemon) (now : Instant) : Daemon :=
  match d.loop with
  | .spawned period =>
    if period = 0 then { d with loop := .panicked }
    else { d with loop := .ticking period (now + period), passes := d.passes ++ [(now, d.state)] }
  | .ticking period next =>
    if next ≤ now then
      { d with loop := .ticking period (next + period), passes := d.passes ++ [(now, d.state)] }
    else d
  | .panicked => d

def step (refusal : String → List UInt8 → String) (refused : List UInt8 → String) (d : Daemon)
    (e : Event) : Daemon :=
  if d.exited then d
  else
    match e.doing with
    | .control stream => d.serve refusal refused stream
    | .poll => d.poll e.now

def run (refusal : String → List UInt8 → String) (refused : List UInt8 → String) (cfg : Config)
    (es : List Event) : Daemon :=
  Run.exec (step refusal refused) (start cfg) es

end Daemon

end Hivebus.Netop
