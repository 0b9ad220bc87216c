import Hivebus.Bus.Members
import Hivebus.Proto.Control

namespace Hivebus.Bus
open Lib Proto

def localNodeInfo (d : Daemon) (now : SystemTime) (isMaster : Bool) : NodeInfo where
  nodeId := d.selfId
  hostname := d.hostname
  controlAddr := d.controlAddr
  state := .alive
  incarnation := d.incarnation
  lastSeen := now
  isMaster := isMaster

/-- The sort of the source is unstable; the ids it sorts by are distinct, so no two
of its results differ. -/
def getNodes (ord : Table.Order UInt16 NodeInfo) (d : Daemon) (now : SystemTime) (m : Members) :
    List NodeInfo :=
  let masterId := masterFrom ord m d.selfId
  (ord.values m ++ [localNodeInfo d now (masterId == some d.selfId)]).insertionSort
    (fun a b => a.nodeId ≤ b.nodeId)

def getMaster (ord : Table.Order UInt16 NodeInfo) (d : Daemon) (now : SystemTime) (m : Members) :
    Option NodeInfo :=
  (masterFrom ord m d.selfId).bind (fun id =>
    if id = d.selfId then some (localNodeInfo d now true) else m.lookup id)

/-- The reply to a decoded request; `none` when the process exits instead. -/
def controlReply (ord : Table.Order UInt16 NodeInfo) (d : Daemon) (now : SystemTime) (m : Members) :
    ControlOp → Option ControlReply
  | .ping => some .ok
  | .getNodes => some (.nodes (getNodes ord d now m))
  | .getMaster => some (.master (getMaster ord d now m))
  | .shutdown => none
  | .stepDown => some (.error "unsupported op")
  | .custom _ _ => some (.error "unsupported op")

/-- A decoded request: the table, which no request changes, and the reply. -/
def controlPlaneTask (ord : Table.Order UInt16 NodeInfo) (d : Daemon) (now : SystemTime)
    (m : Members) (op : ControlOp) : Option (Members × ControlReply) :=
  (controlReply ord d now m op).map (fun reply => (m, reply))

end Hivebus.Bus
