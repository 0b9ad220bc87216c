import Hivebus.Lib.Table
import Hivebus.Proto.Connection

namespace Hivebus.Netgate
open Lib Proto

structure DnsRecord where
  name : String
  ttl : UInt32
  addr : IpAddr
deriving DecidableEq

def DnsRecord.codec : Codec DnsRecord :=
  (Codec.string.pair (Codec.u32.pair IpAddr.codec)).restrict
    (fun r => (r.name, r.ttl, r.addr)) (fun p => some ⟨p.1, p.2.1, p.2.2⟩) (fun _ => rfl)

structure ProxyRule where
  id : String
  listen : SocketAddr
  target : SocketAddr
deriving DecidableEq

def ProxyRule.codec : Codec ProxyRule :=
  (Codec.string.pair (SocketAddr.codec.pair SocketAddr.codec)).restrict
    (fun r => (r.id, r.listen, r.target)) (fun p => some ⟨p.1, p.2.1, p.2.2⟩) (fun _ => rfl)

/-- The two tables, and the rules a forwarding task was started for. -/
structure State where
  dnsTable : Table String DnsRecord
  proxyRules : List ProxyRule
  spawned : List ProxyRule

/-- The tags of netgate. Deleting answers `Ok` also when the payload is no name. `refusal` is
the text of the decoder's error on the payload of a tag. -/
def custom (refusal : String → List UInt8 → String) (s : State) (tag : String)
    (payload : List UInt8) : State × ControlReply :=
  if tag = "dns.upsert" then
    match DnsRecord.codec.decode payload with
    | some (rec, _) => ({ s with dnsTable := s.dnsTable.insert rec.name rec }, .ok)
    | none => (s, .error (refusal tag payload))
  else if tag = "dns.delete" then
    match Codec.ofUtf8 payload with
    | some name => ({ s with dnsTable := s.dnsTable.erase name }, .ok)
    | none => (s, .ok)
  else if tag = "proxy.add" then
    match ProxyRule.codec.decode payload with
    | some (rule, _) =>
      ({ s with proxyRules := s.proxyRules ++ [rule], spawned := s.spawned ++ [rule] }, .ok)
    | none => (s, .error (refusal tag payload))
  else (s, .error ("unknown tag: " ++ tag))

def controlPlane (refusal : String → List UInt8 → String) :
    State → ControlOp → Option (State × ControlReply) :=
  dispatch (custom refusal)

end Hivebus.Netgate
