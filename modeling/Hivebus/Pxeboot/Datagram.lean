import Hivebus.Pxeboot.Packet

namespace Hivebus.Pxeboot
open Lib Proto

/-- What an index expression out of range makes of the task it stands in. -/
inductive Panic where
  | index (i len : Nat)
  | slice (start stop len : Nat)
  | copy (dst src : Nat)
deriving DecidableEq

/-- `bs[i]` -/
def index (bs : List UInt8) (i : Nat) : Except Panic UInt8 :=
  match bs[i]? with
  | some b => .ok b
  | none => .error (.index i bs.length)

/-- `&bs[start..stop]` -/
def slice (bs : List UInt8) (start stop : Nat) : Except Panic (List UInt8) :=
  if start ≤ stop ∧ stop ≤ bs.length then .ok ((bs.drop start).take (stop - start))
  else .error (.slice start stop bs.length)

def dhcpDiscover : UInt8 := 1

def dhcpRequest : UInt8 := 3

/-- The loop of `dhcp_server` over the options, from index `i` on with the message type
found so far. -/
def scanOptions (opts : List UInt8) (i : Nat) (msgType : UInt8) : Except Panic UInt8 :=
  if _h : i < opts.length then do
    let opt ← index opts i
    if opt = optEnd then return msgType
    else if opt = 0 then scanOptions opts (i + 1) msgType
    else if i + 1 ≥ opts.length then return msgType
    else
      let len ← index opts (i + 1)
      let msgType ←
        if opt = optMessageType ∧ len.toNat ≥ 1 then index opts (i + 2) else pure msgType
      scanOptions opts (i + (2 + len.toNat)) msgType
  else return msgType
termination_by opts.length - i

/-- `try_into().unwrap_or([0u8; 16])` -/
def chaddrOf (bs : List UInt8) : { bs : List UInt8 // bs.length = 16 } :=
  if h : bs.length = 16 then ⟨bs, h⟩ else ⟨List.replicate 16 0, List.length_replicate⟩

/-- What `dhcp_server` makes of the bytes of a datagram: nothing when they are no request
it answers. -/
def readRequest (data : List UInt8) : Except Panic (Option Request) := do
  if data.length < 240 then return none
  else if (← slice data 236 240) ≠ dhcpMagic then return none
  else
    let xid := [← index data 4, ← index data 5, ← index data 6, ← index data 7]
    let flags := [← index data 10, ← index data 11]
    let chaddr := chaddrOf (← slice data 28 44)
    let _mac ← slice chaddr.1 0 6
    let opts ← slice data 240 data.length
    let msgType ← scanOptions opts 0 0
    let request (kind : RequestKind) : Request :=
      ⟨kind, UInt32.ofNat (ofBeBytes xid), UInt16.ofNat (ofBeBytes flags), chaddr⟩
    if msgType = dhcpDiscover then return some (request .discover)
    else if msgType = dhcpRequest then return some (request .request)
    else return none

def dhcpBufferSize : Nat := 576

/-- The server takes a datagram off its socket; what does not fit the buffer is cut off. -/
def receive (cfg : Config) (s : State) (datagram : List UInt8) : Except Panic State := do
  match ← readRequest (datagram.take dhcpBufferSize) with
  | some q => return step cfg s (.recv q)
  | none => return s

end Hivebus.Pxeboot
