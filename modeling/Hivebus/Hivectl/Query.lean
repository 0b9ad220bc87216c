import Hivebus.Bus.Control
import Hivebus.Bus.Machine

namespace Hivebus.Hivectl
open Lib Proto

/-- A connection to a daemon: what the daemon writes back for the bytes of a request,
whether the request can be written, and how much of the answer comes back before the socket
is closed or the timeout is over. -/
structure UnixStream where
  daemon : List UInt8 → Option (List UInt8)
  writable : Bool
  arrived : Nat

/-- The message an error chain starts with when the reply cannot be read. -/
def readError : ReadError → String
  | .header => "read response header from hivebus"
  | .marker b => "invalid control frame marker: " ++ toString b.toNat
  | .tooLarge payloadLen => "control reply too large: " ++ toString payloadLen ++ " bytes"
  | .payload => "read response payload from hivebus"

def sendOp (stream : UnixStream) (op : ControlOp) : Except String ControlReply :=
  match encodeControl ControlOp.codec op with
  | .error e => .error e
  | .ok bytes =>
    if stream.writable then
      match readEnvelope (((stream.daemon bytes).getD []).take stream.arrived) with
      | .error why => .error (readError why)
      | .ok (payload, _) =>
        match decodeControl ControlReply.codec payload with
        | some reply => .ok reply
        | none => .error "decode ControlReply"
    else .error "write to hivebus socket"

/-- Two requests over two connections, each of which can be refused. `debug` is the debug
text of a reply. -/
def queryHivebus (debug : ControlReply → String) (socketPath : String)
    (s1 s2 : Option UnixStream) : Except String (List NodeInfo × Option UInt16) :=
  match s1 with
  | none => .error ("connect to " ++ socketPath)
  | some s1 =>
    match sendOp s1 .getNodes with
    | .error e => .error e
    | .ok (.nodes nodes) =>
      match s2 with
      | none => .error ("connect to " ++ socketPath)
      | some s2 =>
        match sendOp s2 .getMaster with
        | .error e => .error e
        | .ok (.master (some n)) => .ok (nodes, some n.nodeId)
        | .ok _ => .ok (nodes, none)
    | .ok (.error message) => .error ("hivebus GetNodes error: " ++ message)
    | .ok other => .error ("unexpected GetNodes reply: " ++ debug other)

/-- One of the two connections of a query, with the clock and the listing of the table the
daemon answers it with. -/
structure Call where
  view : Table.Order UInt16 NodeInfo
  now : SystemTime
  connects : Bool
  writable : Bool
  arrived : Nat

/-- A query of a running daemon: what the daemon does before the first request is answered
and what it does between the two. -/
structure Session where
  daemon : Bus.Daemon
  ord : Table.Order UInt16 NodeInfo
  before : List Bus.Event
  between : List Bus.Event
  nodesCall : Call
  masterCall : Call
  refusal : List UInt8 → String
  debug : ControlReply → String
  socketPath : String

namespace Session

/-- The table the first request is answered from. -/
def members (x : Session) : Bus.Members := (Bus.run x.ord x.daemon x.before).members

/-- The table the second request is answered from. -/
def membersLater (x : Session) : Bus.Members :=
  (Bus.run x.ord x.daemon (x.before ++ x.between)).members

def connect (x : Session) (call : Call) (m : Bus.Members) : Option UnixStream :=
  if call.connects then some {
    daemon := serve (Bus.controlReply call.view x.daemon call.now m) x.refusal
    writable := call.writable
    arrived := call.arrived }
  else none

def query (x : Session) : Except String (List NodeInfo × Option UInt16) :=
  queryHivebus x.debug x.socketPath (x.connect x.nodesCall x.members)
    (x.connect x.masterCall x.membersLater)

end Session

end Hivebus.Hivectl
