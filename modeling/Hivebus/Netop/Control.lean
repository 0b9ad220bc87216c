import Hivebus.Proto.Connection

namespace Hivebus.Netop
open Lib Proto

inductive IfaceKind where
  | veth (peer : String)
  | bridge
  | tun (tap : Bool)
  | vxlan (vni : UInt32) (remote : Ipv4Addr)
deriving DecidableEq

namespace IfaceKind

def Fields : Fin 4 → Type
  | 0 => String
  | 1 => Unit
  | 2 => Bool
  | 3 => UInt32 × Ipv4Addr

def fields : (i : Fin 4) → Codec (Fields i)
  | 0 => Codec.string
  | 1 => Codec.unit
  | 2 => Codec.bool
  | 3 => Codec.u32.pair Ipv4Addr.codec

def toFields : IfaceKind → Σ i, Fields i
  | .veth peer => ⟨0, peer⟩
  | .bridge => ⟨1, ()⟩
  | .tun tap => ⟨2, tap⟩
  | .vxlan vni remote => ⟨3, (vni, remote)⟩

def ofFields : (Σ i, Fields i) → IfaceKind
  | ⟨0, f⟩ => .veth f
  | ⟨1, _⟩ => .bridge
  | ⟨2, f⟩ => .tun f
  | ⟨3, f⟩ => .vxlan f.1 f.2

def codec : Codec IfaceKind :=
  (Codec.enum (by decide) fields).restrict toFields (fun v => some (ofFields v))
    (fun k => by cases k <;> rfl)

end IfaceKind

structure IfaceSpec where
  name : String
  kind : IfaceKind
  addresses : List IpAddr
  up : Bool
deriving DecidableEq

structure NftRule where
  json : String
deriving DecidableEq

/-- What the reconciliation loop is to enforce; it only reads it. -/
structure DesiredState where
  interfaces : List IfaceSpec
  nftRules : List NftRule
deriving DecidableEq

def IfaceSpec.codec : Codec IfaceSpec :=
  (Codec.string.pair (IfaceKind.codec.pair ((Codec.seq IpAddr.codec IpAddr.size_pos).pair
    .bool))).restrict
    (fun i => (i.name, i.kind, i.addresses, i.up))
    (fun p => some ⟨p.1, p.2.1, p.2.2.1, p.2.2.2⟩) (fun _ => rfl)

def NftRule.codec : Codec NftRule :=
  Codec.string.restrict NftRule.json (fun s => some ⟨s⟩) (fun _ => rfl)

theorem IfaceSpec.size_pos (i : IfaceSpec) : 0 < IfaceSpec.codec.size i :=
  Nat.lt_of_lt_of_le (Codec.size_string_pos i.name) (Nat.le_add_right _ _)

theorem NftRule.size_pos (r : NftRule) : 0 < NftRule.codec.size r := Codec.size_string_pos r.json

def DesiredState.codec : Codec DesiredState :=
  ((Codec.seq IfaceSpec.codec IfaceSpec.size_pos).pair
    (Codec.seq NftRule.codec NftRule.size_pos)).restrict
    (fun s => (s.interfaces, s.nftRules)) (fun p => some ⟨p.1, p.2⟩) (fun _ => rfl)

/-- The tags of netop. `refusal` is the text of the decoder's error on the payload of a tag. -/
def custom (refusal : String → List UInt8 → String) (s : DesiredState) (tag : String)
    (payload : List UInt8) : DesiredState × ControlReply :=
  if tag = "state.set" then
    match DesiredState.codec.decode payload with
    | some (newState, _) => (newState, .ok)
    | none => (s, .error (refusal tag payload))
  else (s, .error ("unknown tag: " ++ tag))

def controlPlane (refusal : String → List UInt8 → String) :
    DesiredState → ControlOp → Option (DesiredState × ControlReply) :=
  dispatch (custom refusal)

end Hivebus.Netop
