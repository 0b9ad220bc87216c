import Hivebus.Lib.Tasks
import Hivebus.Pxeboot.Server

namespace Hivebus.Pxeboot
open Lib Proto

/-- A transfer with its client at the other end. Each has a socket of its own, so what
travels between the two travels apart from everything else. -/
structure Session where
  client : SocketAddr
  transfer : Transfer

def Session.step (x : Session) (e : TransferEvent) : Session :=
  { x with transfer := x.transfer.step x.client e }

/-- The server on port 69: the transfers it has spawned, oldest first, and the errors it has
sent with whom they went to. -/
structure TftpServer where
  sessions : List Session
  errors : List (SocketAddr × List UInt8)

/-- A datagram on port 69 with the files that can be opened at that moment and whether there
is a socket for the answer, or a step of one of the transfers. -/
inductive TftpEvent where
  | datagram (client : SocketAddr) (bytes : List UInt8)
      (openFile : List Component → Option (List UInt8)) (binds : Bool)
  | session (i : Nat) (e : TransferEvent)

namespace TftpServer

def start : TftpServer := ⟨[], []⟩

def step (root : List Component) (w : TftpServer) : TftpEvent → TftpServer
  | .datagram client bytes openFile binds =>
    match tftpServer bytes with
    | .error packet => { w with errors := w.errors ++ [(client, packet)] }
    | .transfer requested =>
      if binds then
        match openTftpRead root openFile requested with
        | .error packet => { w with errors := w.errors ++ [(client, packet)] }
        | .ok sender =>
          { w with sessions := w.sessions ++ [⟨client, ⟨sender, .begin, [], [], []⟩⟩] }
      else w
  | .session i e => { w with sessions := w.sessions.modify i (fun x => x.step e) }

def run (root : List Component) (es : List TftpEvent) : TftpServer := Run.exec (step root) start es

end TftpServer

end Hivebus.Pxeboot
