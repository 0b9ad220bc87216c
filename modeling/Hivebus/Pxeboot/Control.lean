import Hivebus.Proto.Control
import Hivebus.Pxeboot.Dhcp

namespace Hivebus.Pxeboot
open Lib Proto

/-- The payload of `boot.register`; bytes after it are not looked at. -/
def decodeRegister (payload : List UInt8) : Option (Mac × BootEntry) :=
  ((Mac.codec.pair BootEntry.codec).decode payload).map
    (fun p => (p.1.1, BootEntry.ofWire p.1.2))

theorem listed_size_pos (p : String × BootEntry.Wire) :
    0 < (Codec.string.pair BootEntry.codec).size p :=
  Nat.lt_of_lt_of_le (Codec.size_string_pos p.1) (Nat.le_add_right _ _)

/-- The payload of the reply to `boot.list`. -/
def listCodec : Codec (List (String × BootEntry.Wire)) :=
  Codec.seq (Codec.string.pair BootEntry.codec) listed_size_pos

/-- The orders in which the hash maps happen to be walked, the tags of each entry in
an order of their own. -/
structure Orders where
  boot : Table.Order Mac BootEntry
  tags : Mac → Table.Order String String

def listEntries (ord : Orders) (boot : BootTable) : List (String × BootEntry.Wire) :=
  (ord.boot.list boot).map (fun p => (fmtMac p.1, p.2.toWire (ord.tags p.1)))

/-- The reply to a decoded request; `none` when the process exits instead. `refusal` is
the text of the decoder's error. -/
def controlReply (ord : Orders) (refusal : List UInt8 → String) (boot : BootTable) :
    ControlOp → Option ControlReply
  | .ping => some .ok
  | .custom tag payload =>
    if tag = "boot.register" then
      match decodeRegister payload with
      | some _ => some .ok
      | none => some (.error (refusal payload))
    else if tag = "boot.list" then
      some (.data "boot.list" (listCodec.encode (listEntries ord boot)))
    else some (.error ("unknown tag: " ++ tag))
  | .shutdown => none
  | .getNodes | .getMaster | .stepDown => some (.error "unsupported op")

/-- What a decoded request changes. -/
def controlEvent : ControlOp → Option Event
  | .custom tag payload =>
    if tag = "boot.register" then
      (decodeRegister payload).map (fun p => .register p.1 p.2)
    else none
  | _ => none

/-- A decoded request: the next state and the reply, nothing when the process exits. The
script of a registered entry is still to be written then. -/
def controlPlane (cfg : Config) (ord : Orders) (refusal : List UInt8 → String) (s : State)
    (op : ControlOp) : Option (State × ControlReply) :=
  (controlReply ord refusal s.boot op).map (fun reply =>
    match controlEvent op with
    | some e => (step cfg s e, reply)
    | none => (s, reply))

/-- A request that changes something is answered with `Ok`. -/
theorem controlReply_of_event (ord : Orders) (refusal : List UInt8 → String) (boot : BootTable)
    {op : ControlOp} {e : Event} (h : controlEvent op = some e) :
    controlReply ord refusal boot op = some .ok := by
  cases op with
  | custom tag payload =>
    simp only [controlEvent] at h
    split at h
    · next ht =>
      obtain ⟨p, hp, _⟩ := Option.map_eq_some_iff.mp h
      simp only [controlReply, ht, ↓reduceIte, hp]
    · cases h
  | ping => cases h
  | getNodes => cases h
  | getMaster => cases h
  | stepDown => cases h
  | shutdown => cases h

end Hivebus.Pxeboot
