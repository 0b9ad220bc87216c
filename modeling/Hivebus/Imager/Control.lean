import Hivebus.Lib.Table
import Hivebus.Proto.Connection

namespace Hivebus.Imager
open Lib Proto

inductive ImageKind where
  | kvm
  | lxc
  | container
deriving DecidableEq

namespace ImageKind

def index : ImageKind → UInt32
  | .kvm => 0
  | .lxc => 1
  | .container => 2

def ofIndex (i : UInt32) : Option ImageKind :=
  if i = 0 then some .kvm else if i = 1 then some .lxc else if i = 2 then some .container else none

def codec : Codec ImageKind := Codec.u32.restrict index ofIndex (fun k => by cases k <;> rfl)

end ImageKind

structure ImageEntry where
  id : String
  kind : ImageKind
  blake3 : String
  sha256 : Option String
  sizeBytes : UInt64
  path : String
deriving DecidableEq

namespace ImageEntry

def codec : Codec ImageEntry :=
  (Codec.string.pair (ImageKind.codec.pair (Codec.string.pair (Codec.string.option.pair
    (Codec.u64.pair .string))))).restrict
    (fun e => (e.id, e.kind, e.blake3, e.sha256, e.sizeBytes, e.path))
    (fun p => some ⟨p.1, p.2.1, p.2.2.1, p.2.2.2.1, p.2.2.2.2.1, p.2.2.2.2.2⟩) (fun _ => rfl)

theorem size_pos (e : ImageEntry) : 0 < codec.size e :=
  Nat.lt_of_lt_of_le (Codec.size_string_pos e.id) (Nat.le_add_right _ _)

end ImageEntry

abbrev Catalog := Table String ImageEntry

/-- Creating and pushing are stubs that only answer. -/
def handleImageCmd (ord : Table.Order String ImageEntry) (tag : String) (catalog : Catalog) :
    ControlReply :=
  if tag = "image.list" then
    .data "image.list" ((Codec.seq ImageEntry.codec ImageEntry.size_pos).encode
      (ord.values catalog))
  else if tag = "image.create_kvm" then .ok
  else if tag = "image.push" then .ok
  else .error ("unknown tag: " ++ tag)

/-- No request changes the catalog. -/
def controlPlane (ord : Table.Order String ImageEntry) :
    Catalog → ControlOp → Option (Catalog × ControlReply) :=
  dispatch (fun catalog tag _ => (catalog, handleImageCmd ord tag catalog))

end Hivebus.Imager
