import Hivebus.Pxeboot.Datagram

namespace Hivebus.Pxeboot
open Lib Proto

/-- The DHCP server at its socket: the tables of the process, the datagrams that wait, the
panic its task has ended with, the datagrams it has taken and what it has sent to whom. -/
structure DhcpServer where
  state : State
  socket : List (List UInt8)
  panicked : Option Panic
  taken : List (List UInt8)
  sent : List (SocketAddr × List UInt8)

/-- A datagram comes in, the DHCP task gets on, or a task of the control plane does. -/
inductive DhcpEvent where
  | arrive (datagram : List UInt8)
  | turn (now : Instant) (stored : Bool)
  | register (mac : Mac) (entry : BootEntry)
  | write (i : Nat) (stored : Bool)

namespace DhcpServer

def start : DhcpServer := ⟨Pxeboot.start, [], none, [], []⟩

/-- The loop of `dhcp_server` up to its next critical section. A panic ends the task, the
rest of the process goes on. -/
def turn (cfg : Config) (now : Instant) (stored : Bool) (w : DhcpServer) : DhcpServer :=
  match w.panicked with
  | some _ => w
  | none =>
    match w.state.phase with
    | .idle =>
      match w.socket with
      | [] => w
      | datagram :: rest =>
        match receive cfg w.state datagram with
        | .ok state =>
          { w with state := state, socket := rest, taken := w.taken ++ [datagram] }
        | .error panic =>
          { w with socket := rest, panicked := some panic, taken := w.taken ++ [datagram] }
    | _ => { w with
        state := advance cfg now stored w.state
        sent := w.sent ++ ((answer cfg w.state (.advance now stored)).map
          (fun r => (r.target, r.packet))).toList }

def step (cfg : Config) (w : DhcpServer) : DhcpEvent → DhcpServer
  | .arrive datagram => { w with socket := w.socket ++ [datagram] }
  | .turn now stored => w.turn cfg now stored
  | .register mac entry => { w with state := Pxeboot.step cfg w.state (.register mac entry) }
  | .write i stored => { w with state := Pxeboot.step cfg w.state (.write i stored) }

def run (cfg : Config) (es : List DhcpEvent) : DhcpServer := Run.exec (step cfg) start es

end DhcpServer

/-- The request a datagram is taken for. -/
def requestOf (datagram : List UInt8) : Option Request :=
  match readRequest (datagram.take dhcpBufferSize) with
  | .ok q => q
  | .error _ => none

end Hivebus.Pxeboot
