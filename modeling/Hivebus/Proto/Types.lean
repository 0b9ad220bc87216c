import Hivebus.Lib.Codec

namespace Hivebus.Proto
open Lib

def hexDigit (n : Nat) : Char := "0123456789abcdef".toList.getD n '0'

/-- The value of a hexadecimal digit of either case. -/
def hexValue (c : Char) : Option Nat :=
  if '0' ≤ c ∧ c ≤ '9' then some (c.toNat - '0'.toNat)
  else if 'a' ≤ c ∧ c ≤ 'f' then some (c.toNat - 'a'.toNat + 10)
  else if 'A' ≤ c ∧ c ≤ 'F' then some (c.toNat - 'A'.toNat + 10)
  else none

theorem hexValue_hexDigit : ∀ d < 16, hexValue (hexDigit d) = some d := by decide

/-- Two bytes as the number they are, the first one most significant. -/
theorem bytePair_toNat (hi lo : UInt8) :
    ((hi.toUInt16 <<< 8) ||| lo.toUInt16).toNat = 256 * hi.toNat + lo.toNat := by
  have hhi := hi.toNat_lt
  have hlo : lo.toNat < 2 ^ 8 := lo.toNat_lt
  have hshift : hi.toNat <<< 8 % 2 ^ 16 = hi.toNat <<< 8 := by
    rw [Nat.shiftLeft_eq]
    omega
  have h8 : UInt16.toNat 8 % 16 = 8 := rfl
  rw [UInt16.toNat_or, UInt16.toNat_shiftLeft, UInt8.toNat_toUInt16, UInt8.toNat_toUInt16, h8,
    hshift, ← Nat.shiftLeft_add_eq_or_of_lt hlo, Nat.shiftLeft_eq]
  omega

/-- The octets of a hardware address folded into two bytes. -/
def nodeIdFromMac : { bs : List UInt8 // bs.length = 6 } → UInt16
  | ⟨mac, _⟩ =>
    let hi := mac[0] ^^^ mac[2] ^^^ mac[4]
    let lo := mac[1] ^^^ mac[3] ^^^ mac[5]
    (hi.toUInt16 <<< 8) ||| lo.toUInt16

/-- A length of time in nanoseconds. -/
abbrev Duration := Nat

namespace Duration

def fromSecs (n : Nat) : Duration := n * 10 ^ 9

def fromMillis (n : Nat) : Duration := n * 10 ^ 6

/-- The longest length of time the clock library can express. -/
def max : Duration := 2 ^ 64 * 10 ^ 9 - 1

end Duration

/-- A reading of the wall clock at or after the Unix epoch, in nanoseconds; the
seconds fit the signed 64 bits the system gives them. -/
structure SystemTime where
  ns : Nat
  bound : ns < 2 ^ 63 * 10 ^ 9
deriving DecidableEq

namespace SystemTime

instance : LE SystemTime := ⟨fun a b => a.ns ≤ b.ns⟩

instance : LT SystemTime := ⟨fun a b => a.ns < b.ns⟩

instance (a b : SystemTime) : Decidable (a ≤ b) := inferInstanceAs (Decidable (a.ns ≤ b.ns))

instance (a b : SystemTime) : Decidable (a < b) := inferInstanceAs (Decidable (a.ns < b.ns))

/-- The clock some nanoseconds after the epoch. -/
def early (n : UInt16) : SystemTime := ⟨n.toNat, Nat.lt_trans n.toNat_lt (by decide)⟩

/-- Fails when the earlier reading is in fact the later one. -/
def durationSince (t earlier : SystemTime) : Option Duration :=
  if earlier ≤ t then some (t.ns - earlier.ns) else none

def secs (t : SystemTime) : UInt64 := UInt64.ofNat (t.ns / 10 ^ 9)

def nanos (t : SystemTime) : UInt32 := UInt32.ofNat (t.ns % 10 ^ 9)

def ofParts (p : UInt64 × UInt32) : Option SystemTime :=
  if h : p.1.toNat * 10 ^ 9 + p.2.toNat < 2 ^ 63 * 10 ^ 9
  then some ⟨p.1.toNat * 10 ^ 9 + p.2.toNat, h⟩ else none

theorem secs_toNat (t : SystemTime) : t.secs.toNat = t.ns / 10 ^ 9 := by
  have := t.bound
  rw [secs, UInt64.toNat_ofNat', Nat.mod_eq_of_lt (by omega)]

theorem nanos_toNat (t : SystemTime) : t.nanos.toNat = t.ns % 10 ^ 9 := by
  rw [nanos, UInt32.toNat_ofNat', Nat.mod_eq_of_lt (by omega)]

theorem ofParts_parts (t : SystemTime) : ofParts (t.secs, t.nanos) = some t := by
  have hn : t.secs.toNat * 10 ^ 9 + t.nanos.toNat = t.ns := by
    rw [secs_toNat, nanos_toNat]
    omega
  simp only [ofParts, hn, t.bound, ↓reduceDIte]

def codec : Codec SystemTime :=
  (Codec.u64.pair .u32).restrict (fun t => (t.secs, t.nanos)) ofParts ofParts_parts

end SystemTime

structure Ipv4Addr where
  bits : UInt32
deriving DecidableEq

namespace Ipv4Addr

def octets (a : Ipv4Addr) : List UInt8 := beBytes 4 a.bits.toNat

def ofOctets (bs : List UInt8) : Ipv4Addr := ⟨UInt32.ofNat (ofBeBytes bs)⟩

theorem ofOctets_octets (a : Ipv4Addr) : ofOctets a.octets = a := by
  rw [ofOctets, octets, ofBeBytes_beBytes a.bits.toNat_lt, UInt32.ofNat_toNat]

def codec : Codec Ipv4Addr :=
  (Codec.raw 4).restrict (fun a => ⟨a.octets, length_beBytes _ _⟩) (fun bs => some (ofOctets bs.1))
    (fun a => by simp [ofOctets_octets])

end Ipv4Addr

inductive IpAddr where
  | v4 (ip : Ipv4Addr)
  | v6 (ip : { bs : List UInt8 // bs.length = 16 })
deriving DecidableEq

namespace IpAddr

def Fields : Fin 2 → Type
  | 0 => Ipv4Addr
  | 1 => { bs : List UInt8 // bs.length = 16 }

def fields : (i : Fin 2) → Codec (Fields i)
  | 0 => Ipv4Addr.codec
  | 1 => Codec.raw 16

def toFields : IpAddr → Σ i, Fields i
  | .v4 ip => ⟨0, ip⟩
  | .v6 ip => ⟨1, ip⟩

def ofFields : (Σ i, Fields i) → IpAddr
  | ⟨0, f⟩ => .v4 f
  | ⟨1, f⟩ => .v6 f

def codec : Codec IpAddr :=
  (Codec.enum (by decide) fields).restrict toFields (fun v => some (ofFields v))
    (fun a => by cases a <;> rfl)

theorem size_pos (a : IpAddr) : 0 < codec.size a :=
  Nat.lt_of_lt_of_le (varintSize_pos _) (Nat.le_add_right _ _)

end IpAddr

/-- An address and a port. The flow label and scope of an IPv6 address are not
carried by the wire format and are left out. -/
inductive SocketAddr where
  | v4 (ip : Ipv4Addr) (port : UInt16)
  | v6 (ip : { bs : List UInt8 // bs.length = 16 }) (port : UInt16)
deriving DecidableEq

namespace SocketAddr

def Fields : Fin 2 → Type
  | 0 => Ipv4Addr × UInt16
  | 1 => { bs : List UInt8 // bs.length = 16 } × UInt16

def fields : (i : Fin 2) → Codec (Fields i)
  | 0 => Ipv4Addr.codec.pair .u16
  | 1 => (Codec.raw 16).pair .u16

def toFields : SocketAddr → Σ i, Fields i
  | .v4 ip port => ⟨0, (ip, port)⟩
  | .v6 ip port => ⟨1, (ip, port)⟩

def ofFields : (Σ i, Fields i) → SocketAddr
  | ⟨0, f⟩ => .v4 f.1 f.2
  | ⟨1, f⟩ => .v6 f.1 f.2

def codec : Codec SocketAddr :=
  (Codec.enum (by decide) fields).restrict toFields (fun v => some (ofFields v))
    (fun a => by cases a <;> rfl)

end SocketAddr

inductive NodeState where
  | alive
  | suspect
  | dead
deriving DecidableEq

namespace NodeState

def index : NodeState → UInt32
  | .alive => 0
  | .suspect => 1
  | .dead => 2

def ofIndex (i : UInt32) : Option NodeState :=
  if i = 0 then some .alive else if i = 1 then some .suspect else if i = 2 then some .dead else none

def codec : Codec NodeState := Codec.u32.restrict index ofIndex (fun s => by cases s <;> rfl)

end NodeState

/-- Full view of a peer as tracked by hivebus. -/
structure NodeInfo where
  nodeId : UInt16
  hostname : String
  controlAddr : SocketAddr
  state : NodeState
  incarnation : UInt32
  lastSeen : SystemTime
  isMaster : Bool
deriving DecidableEq

namespace NodeInfo

def codec : Codec NodeInfo :=
  (Codec.u16.pair (Codec.string.pair (SocketAddr.codec.pair (NodeState.codec.pair
    (Codec.u32.pair (SystemTime.codec.pair .bool)))))).restrict
    (fun n => (n.nodeId, n.hostname, n.controlAddr, n.state, n.incarnation, n.lastSeen, n.isMaster))
    (fun p => some ⟨p.1, p.2.1, p.2.2.1, p.2.2.2.1, p.2.2.2.2.1, p.2.2.2.2.2.1, p.2.2.2.2.2.2⟩)
    (fun _ => rfl)

end NodeInfo

end Hivebus.Proto
