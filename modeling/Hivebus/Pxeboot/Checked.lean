import Hivebus.Pxeboot.Datagram

namespace Hivebus.Pxeboot.Checked
open Lib Proto Codec

/-- `pkt[i] = b` -/
def assign (pkt : List UInt8) (i : Nat) (b : UInt8) : Except Panic (List UInt8) :=
  if i < pkt.length then .ok (pkt.set i b) else .error (.index i pkt.length)

/-- `pkt[start..stop].copy_from_slice(bs)` -/
def copyFromSlice (pkt : List UInt8) (start stop : Nat) (bs : List UInt8) :
    Except Panic (List UInt8) :=
  if start ≤ stop ∧ stop ≤ pkt.length then
    if bs.length = stop - start then .ok (copyAt start bs pkt)
    else .error (.copy (stop - start) bs.length)
  else .error (.slice start stop pkt.length)

/-- The function `buildDhcpReply` with every access to a slice where the source has it. -/
def buildDhcpReply (op : UInt8) (xid : UInt32) (chaddr : List UInt8) (yiaddr siaddr subnet : Ipv4Addr)
    (gateway : Option Ipv4Addr) (leaseSecs : UInt32) (bootFile : String) :
    Except Panic (List UInt8) := do
  let pkt := List.replicate 236 0
  let pkt ← assign pkt 0 2
  let pkt ← assign pkt 1 1
  let pkt ← assign pkt 2 6
  let pkt ← assign pkt 3 0
  let pkt ← copyFromSlice pkt 4 8 (beBytes 4 xid.toNat)
  let pkt ← copyFromSlice pkt 16 20 yiaddr.octets
  let pkt ← copyFromSlice pkt 20 24 siaddr.octets
  let copyLen := min chaddr.length 16
  let pkt ← copyFromSlice pkt 28 (28 + copyLen) (← slice chaddr 0 copyLen)
  let bootFileBytes := utf8 bootFile
  let bootCopyLen := min bootFileBytes.length 127
  let pkt ← copyFromSlice pkt 108 (108 + bootCopyLen) (← slice bootFileBytes 0 bootCopyLen)
  let pkt := pkt ++ dhcpMagic
  let pkt := pkt ++ [optMessageType, 1, op]
  let pkt := pkt ++ [optServerId, 4] ++ siaddr.octets
  let pkt := pkt ++ [optSubnetMask, 4] ++ subnet.octets
  let pkt := match gateway with
    | some gw => pkt ++ [optRouter, 4] ++ gw.octets
    | none => pkt
  let pkt := pkt ++ [optLeaseTime, 4] ++ beBytes 4 leaseSecs.toNat
  let pkt := pkt ++ [optTftpServer] ++ [4] ++ siaddr.octets
  let pkt := pkt ++ [optBootFile] ++ [UInt8.ofNat bootCopyLen]
  let pkt := pkt ++ (← slice bootFileBytes 0 bootCopyLen)
  return pkt ++ [optEnd]

/-- `bs.get(start..)` -/
def getFrom (bs : List UInt8) (start : Nat) : Option (List UInt8) :=
  if start ≤ bs.length then some (bs.drop start) else none

/-- The same for `parseTftpRrq`. -/
def parseTftpRrq (packet : List UInt8) : Except Panic (Option (String × String)) := do
  if packet.length < 4 then return none
  else if ofBeBytes [← index packet 0, ← index packet 1] ≠ tftpRrq then return none
  else
    let payload ← slice packet 2 packet.length
    match payload.findIdx? (· == 0) with
    | none => return none
    | some fileEnd =>
      let modeStart := fileEnd + 1
      match getFrom payload modeStart with
      | none => return none
      | some behind =>
        match behind.findIdx? (· == 0) with
        | none => return none
        | some modeLen =>
          let modeEnd := modeLen + modeStart
          match ofUtf8 (← slice payload 0 fileEnd) with
          | none => return none
          | some filename =>
            match ofUtf8 (← slice payload modeStart modeEnd) with
            | none => return none
            | some mode => return some (filename, toAsciiLowercase mode)

end Hivebus.Pxeboot.Checked
