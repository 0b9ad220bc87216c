import Hivebus.Lib.Fifo
import Hivebus.Lib.Run
import Hivebus.Proto.Types

namespace Hivebus.Pxeboot
open Lib Proto Codec

def tftpData : Nat := 3

def tftpAck : Nat := 4

def tftpError : Nat := 5

def tftpBlockSize : Nat := 512

def tftpMaxRetries : Nat := 5

def buildTftpData (block : UInt16) (data : List UInt8) : List UInt8 :=
  beBytes 2 tftpData ++ beBytes 2 block.toNat ++ data

def buildTftpError (code : UInt16) (message : String) : List UInt8 :=
  beBytes 2 tftpError ++ beBytes 2 code.toNat ++ utf8 message ++ [0]

inductive Progress where
  | sending
  | waiting
  | complete
  | aborted
deriving DecidableEq

/-- One transfer of `serve_tftp_read` once its file and its socket are open. `chunk` is
what the last read returned, unless that one fails, `rest` what is still to be read. -/
structure Sender where
  rest : List UInt8
  block : UInt16
  chunk : List UInt8
  retries : Nat
  progress : Progress

namespace Sender

def begin (file : List UInt8) : Sender where
  rest := file.drop tftpBlockSize
  block := 1
  chunk := file.take tftpBlockSize
  retries := 0
  progress := .sending

def packet (s : Sender) : List UInt8 := buildTftpData s.block s.chunk

/-- What the wait for an acknowledgement ends with. -/
inductive Heard where
  | timeout
  | failed
  | datagram (bytes : List UInt8) (source : SocketAddr)

/-- The buffer has room for four bytes; the rest of a longer datagram is cut off. -/
def acknowledges (client : SocketAddr) (block : UInt16) : Heard → Bool
  | .datagram bytes source =>
    match bytes.take 4 with
    | [a, b, c, d] =>
      source == client && ofBeBytes [a, b] == tftpAck && UInt16.ofNat (ofBeBytes [c, d]) == block
    | _ => false
  | .timeout | .failed => false

def hear (client : SocketAddr) (s : Sender) (h : Heard) : Sender :=
  match s.progress with
  | .waiting =>
    if acknowledges client s.block h then
      if s.chunk.length < tftpBlockSize then { s with progress := .complete }
      else {
        rest := s.rest.drop tftpBlockSize
        block := s.block + 1
        chunk := s.rest.take tftpBlockSize
        retries := 0
        progress := .sending }
    else if s.retries + 1 ≥ tftpMaxRetries then
      { s with retries := s.retries + 1, progress := .aborted }
    else { s with retries := s.retries + 1, progress := .sending }
  | _ => s

/-- What a transfer meets with next: the block is read, unless it was sent before, and its
packet goes out or cannot be sent; the read fails; the wait for an acknowledgement ends. -/
inductive Event where
  | send
  | sendFails
  | readFails
  | hear (h : Heard)

/-- The first time a block is sent it is read before; a directory opens, but no read of it
succeeds. -/
def atRead (s : Sender) : Bool := s.progress = .sending && s.retries == 0

def readFailed : List UInt8 := buildTftpError 0 "read failed"

def turn (client : SocketAddr) (s : Sender) : Event → Sender
  | .send => if s.progress = .sending then { s with progress := .waiting } else s
  | .sendFails => if s.progress = .sending then { s with progress := .aborted } else s
  | .readFails => if s.atRead then { s with progress := .aborted } else s
  | .hear h => s.hear client h

/-- What goes to the client. -/
def output (s : Sender) : Event → Option (List UInt8)
  | .send => if s.progress = .sending then some s.packet else none
  | .readFails => if s.atRead then some readFailed else none
  | .sendFails | .hear _ => none

end Sender

/-- An octet client: the last block it accepted and the bytes it has. -/
structure Receiver where
  last : UInt16
  bytes : List UInt8

namespace Receiver

def begin : Receiver := ⟨0, []⟩

def parseTftpData : List UInt8 → Option (UInt16 × List UInt8)
  | a :: b :: c :: d :: data =>
    if ofBeBytes [a, b] = tftpData then some (UInt16.ofNat (ofBeBytes [c, d]), data) else none
  | _ => none

/-- A block is appended if it is the next one, and otherwise ignored. -/
def receive (r : Receiver) (packet : List UInt8) : Receiver :=
  match parseTftpData packet with
  | some (block, data) => if block = r.last + 1 then ⟨block, r.bytes ++ data⟩ else r
  | none => r

/-- The acknowledgement of the last accepted block, sent for every packet. -/
def acknowledgement (r : Receiver) : List UInt8 := beBytes 2 tftpAck ++ beBytes 2 r.last.toNat

end Receiver

/-- The two parties of a transfer and the packets between them, an error the server sends
apart. -/
structure Transfer where
  sender : Sender
  receiver : Receiver
  data : List (List UInt8)
  acks : List (List UInt8)
  errors : List (List UInt8)

inductive TransferEvent where
  | send
  | sendFails
  | readFails
  | hear (h : Sender.Heard)
  | deliverData
  | deliverAck
  | harmData (m : Fifo.Mishap)
  | harmAcks (m : Fifo.Mishap)

namespace Transfer

def begin (file : List UInt8) : Transfer := ⟨.begin file, .begin, [], [], []⟩

/-- Whatever is not a datagram of the client: a timeout, an error, a stranger's packet. -/
def foreign (client : SocketAddr) : Sender.Heard → Bool
  | .datagram _ source => source != client
  | .timeout | .failed => true

def step (client : SocketAddr) (t : Transfer) : TransferEvent → Transfer
  | .send =>
    { t with
      sender := t.sender.turn client .send
      data := t.data ++ (t.sender.output .send).toList }
  | .sendFails => { t with sender := t.sender.turn client .sendFails }
  | .readFails =>
    { t with
      sender := t.sender.turn client .readFails
      errors := t.errors ++ (t.sender.output .readFails).toList }
  | .hear h =>
    if foreign client h then { t with sender := t.sender.turn client (.hear h) } else t
  | .deliverData =>
    match t.data with
    | packet :: rest =>
      let receiver := t.receiver.receive packet
      { t with receiver, data := rest, acks := t.acks ++ [receiver.acknowledgement] }
    | [] => t
  | .deliverAck =>
    match t.acks with
    | packet :: rest =>
      if t.sender.progress = .waiting then
        { t with sender := t.sender.turn client (.hear (.datagram packet client)), acks := rest }
      else t
    | [] => t
  | .harmData m => { t with data := Fifo.suffer t.data m }
  | .harmAcks m => { t with acks := Fifo.suffer t.acks m }

def run (client : SocketAddr) (file : List UInt8) (es : List TransferEvent) : Transfer :=
  Run.exec (step client) (begin file) es

end Transfer

end Hivebus.Pxeboot
