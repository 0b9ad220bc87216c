import Hivebus.Pxeboot.Dhcp
import Hivebus.Pxeboot.Tftp

namespace Hivebus.Pxeboot
open Lib Proto Codec

def dhcpMagic : List UInt8 := [99, 130, 83, 99]

def optSubnetMask : UInt8 := 1

def optRouter : UInt8 := 3

def optLeaseTime : UInt8 := 51

def optMessageType : UInt8 := 53

def optServerId : UInt8 := 54

def optTftpServer : UInt8 := 66

def optBootFile : UInt8 := 67

def optEnd : UInt8 := 255

def dhcpOffer : UInt8 := 2

def dhcpAck : UInt8 := 5

/-- Copies bytes over those of a packet from an offset on. -/
def copyAt (i : Nat) (bs pkt : List UInt8) : List UInt8 :=
  pkt.take i ++ bs ++ pkt.drop (i + bs.length)

/-- The boot file name is cut at 127 bytes, in the legacy field as in option 67. -/
def buildDhcpReply (op : UInt8) (xid : UInt32) (chaddr : List UInt8) (yiaddr siaddr subnet : Ipv4Addr)
    (gateway : Option Ipv4Addr) (leaseSecs : UInt32) (bootFile : String) : List UInt8 :=
  let pkt := List.replicate 236 0
  let pkt := copyAt 0 [2, 1, 6, 0] pkt
  let pkt := copyAt 4 (beBytes 4 xid.toNat) pkt
  let pkt := copyAt 16 yiaddr.octets pkt
  let pkt := copyAt 20 siaddr.octets pkt
  let copyLen := min chaddr.length 16
  let pkt := copyAt 28 (chaddr.take copyLen) pkt
  let bootFileBytes := utf8 bootFile
  let bootCopyLen := min bootFileBytes.length 127
  let pkt := copyAt 108 (bootFileBytes.take bootCopyLen) pkt
  pkt ++ dhcpMagic ++
    ([optMessageType, 1, op] ++
    ([optServerId, 4] ++ siaddr.octets) ++
    ([optSubnetMask, 4] ++ subnet.octets) ++
    (match gateway with
      | some gw => [optRouter, 4] ++ gw.octets
      | none => []) ++
    ([optLeaseTime, 4] ++ beBytes 4 leaseSecs.toNat) ++
    ([optTftpServer, 4] ++ siaddr.octets) ++
    ([optBootFile, UInt8.ofNat bootCopyLen] ++ bootFileBytes.take bootCopyLen) ++
    [optEnd])

/-- The bytes of a reply. -/
def Reply.packet (r : Reply) : List UInt8 :=
  buildDhcpReply (match r.kind with
    | .offer => dhcpOffer
    | .ack => dhcpAck) r.xid r.chaddr.1 r.yiaddr r.siaddr r.subnet r.gateway r.leaseSecs r.bootFile

/-- The first option with a code, found the way the server walks the options of a
request: padding is one byte, everything else has its length behind it. -/
def findOption (code : UInt8) : Nat → List UInt8 → Option (List UInt8)
  | fuel + 1, opt :: rest =>
    if opt = optEnd then none
    else if opt = 0 then findOption code fuel rest
    else
      match rest with
      | [] => none
      | len :: body =>
        if opt = code then some (body.take len.toNat)
        else findOption code fuel (body.drop len.toNat)
  | _, _ => none

/-- The file name a client finds in option 67 of a packet; the options start behind the
fixed fields and the cookie. -/
def bootFileOption (pkt : List UInt8) : Option (List UInt8) :=
  findOption optBootFile pkt.length (pkt.drop 240)

def toAsciiLowercase (s : String) : String := String.ofList (s.toList.map Char.toLower)

def tftpRrq : Nat := 1

/-- What a client sends to read a file in octet mode. -/
def octetRrq (filename : List UInt8) : List UInt8 :=
  beBytes 2 tftpRrq ++ filename ++ [0] ++ utf8 "octet" ++ [0]

def parseTftpRrq (packet : List UInt8) : Option (String × String) :=
  if packet.length < 4 ∨ ofBeBytes (packet.take 2) ≠ tftpRrq then none
  else
    let payload := packet.drop 2
    (payload.findIdx? (· == 0)).bind (fun fileEnd =>
      let modeStart := fileEnd + 1
      ((payload.drop modeStart).findIdx? (· == 0)).bind (fun modeLen =>
        (ofUtf8 (payload.take fileEnd)).bind (fun filename =>
          (ofUtf8 ((payload.drop modeStart).take modeLen)).map (fun mode =>
            (filename, toAsciiLowercase mode)))))

/-- The file a read request is served from. -/
def requestedPath (cfg : Config) (packet : List UInt8) : Option (List Component) :=
  (parseTftpRrq packet).bind (fun p => sanitizeTftpPath (components cfg.tftpRoot) p.1)

end Hivebus.Pxeboot
