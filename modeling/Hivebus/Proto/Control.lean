import Hivebus.Proto.Types

namespace Hivebus.Proto
open Lib

def controlFrameMarker : UInt8 := 0x01

def maxControlPayload : Nat := 60 * 1024

inductive ControlOp where
  | ping
  | getNodes
  | getMaster
  | stepDown
  | shutdown
  | custom (tag : String) (payload : List UInt8)
deriving DecidableEq

namespace ControlOp

def Fields : Fin 6 → Type
  | 0 | 1 | 2 | 3 | 4 => Unit
  | 5 => String × List UInt8

def fields : (i : Fin 6) → Codec (Fields i)
  | 0 | 1 | 2 | 3 | 4 => Codec.unit
  | 5 => Codec.string.pair .bytes

def toFields : ControlOp → Σ i, Fields i
  | .ping => ⟨0, ()⟩
  | .getNodes => ⟨1, ()⟩
  | .getMaster => ⟨2, ()⟩
  | .stepDown => ⟨3, ()⟩
  | .shutdown => ⟨4, ()⟩
  | .custom tag payload => ⟨5, (tag, payload)⟩

def ofFields : (Σ i, Fields i) → ControlOp
  | ⟨0, _⟩ => .ping
  | ⟨1, _⟩ => .getNodes
  | ⟨2, _⟩ => .getMaster
  | ⟨3, _⟩ => .stepDown
  | ⟨4, _⟩ => .shutdown
  | ⟨5, f⟩ => .custom f.1 f.2

def codec : Codec ControlOp :=
  (Codec.enum (by decide) fields).restrict toFields (fun v => some (ofFields v))
    (fun op => by cases op <;> rfl)

end ControlOp

inductive ControlReply where
  | ok
  | error (message : String)
  | nodes (ns : List NodeInfo)
  | master (n : Option NodeInfo)
  | data (tag : String) (payload : List UInt8)
deriving DecidableEq

theorem NodeInfo.size_pos (n : NodeInfo) : 0 < NodeInfo.codec.size n :=
  Nat.lt_of_lt_of_le (varintSize_pos _) (Nat.le_add_right _ _)

namespace ControlReply

def Fields : Fin 5 → Type
  | 0 => Unit
  | 1 => String
  | 2 => List NodeInfo
  | 3 => Option NodeInfo
  | 4 => String × List UInt8

def fields : (i : Fin 5) → Codec (Fields i)
  | 0 => Codec.unit
  | 1 => Codec.string
  | 2 => Codec.seq NodeInfo.codec NodeInfo.size_pos
  | 3 => Codec.option NodeInfo.codec
  | 4 => Codec.string.pair .bytes

def toFields : ControlReply → Σ i, Fields i
  | .ok => ⟨0, ()⟩
  | .error message => ⟨1, message⟩
  | .nodes ns => ⟨2, ns⟩
  | .master n => ⟨3, n⟩
  | .data tag payload => ⟨4, (tag, payload)⟩

def ofFields : (Σ i, Fields i) → ControlReply
  | ⟨0, _⟩ => .ok
  | ⟨1, f⟩ => .error f
  | ⟨2, f⟩ => .nodes f
  | ⟨3, f⟩ => .master f
  | ⟨4, f⟩ => .data f.1 f.2

def codec : Codec ControlReply :=
  (Codec.enum (by decide) fields).restrict toFields (fun v => some (ofFields v))
    (fun r => by cases r <;> rfl)

end ControlReply

/-- The envelope of a message. A payload whose length does not fit the two length
bytes makes the encoder panic, which is the error here. -/
def encodeControl (c : Codec α) (msg : α) : Except String (List UInt8) :=
  let payload := c.encode msg
  if payload.length < 2 ^ 16 then
    .ok (controlFrameMarker :: beBytes 2 payload.length ++ payload)
  else .error "control payload exceeds u16 wire limit"

/-- Bytes after the decoded value are not looked at. -/
def decodeControl (c : Codec α) (bytes : List UInt8) : Option α := (c.decode bytes).map Prod.fst

/-- Why a reader of the control socket gives up on a frame. -/
inductive ReadError where
  | header
  | marker (b : UInt8)
  | tooLarge (payloadLen : Nat)
  | payload
deriving DecidableEq

/-- Takes one envelope off a stream and leaves the rest. Every daemon and the client
read this way; only the text they log differs. -/
def readEnvelope (stream : List UInt8) : Except ReadError (List UInt8 × List UInt8) :=
  match stream with
  | m :: hi :: lo :: body =>
    if m ≠ controlFrameMarker then .error (.marker m)
    else
      let payloadLen := ofBeBytes [hi, lo]
      if payloadLen > maxControlPayload then .error (.tooLarge payloadLen)
      else
        match takeBytes payloadLen body with
        | some p => .ok p
        | none => .error .payload
  | _ => .error .header

/-- One connection of a daemon, from the bytes of a client to the bytes it writes back.
`reply` is what the daemon says to a decoded request, nothing when it exits instead, and
`refusal` the text of the decoder's error. Nothing is written when the envelope cannot
be read or the reply cannot be encoded. -/
def serve (reply : ControlOp → Option ControlReply) (refusal : List UInt8 → String)
    (stream : List UInt8) : Option (List UInt8) :=
  match readEnvelope stream with
  | .error _ => none
  | .ok (payload, _) =>
    let answer :=
      match decodeControl ControlOp.codec payload with
      | some op => reply op
      | none => some (.error (refusal payload))
    answer.bind (fun r => (encodeControl ControlReply.codec r).toOption)

/-- The second half of `send_op`: the reply the client reads out of what comes back. -/
def readReply (stream : List UInt8) : Option ControlReply :=
  match readEnvelope stream with
  | .error _ => none
  | .ok (payload, _) => decodeControl ControlReply.codec payload

end Hivebus.Proto
