import Hivebus.Pxeboot.Packet

namespace Hivebus.Pxeboot
open Lib Proto Codec

/-- What a datagram makes `tftp_server` do: send an error back, or start a transfer. -/
inductive Response where
  | error (packet : List UInt8)
  | transfer (requested : String)
deriving DecidableEq

def tftpBufferSize : Nat := 1500

/-- The mode is checked and then forgotten. -/
def tftpServer (datagram : List UInt8) : Response :=
  match parseTftpRrq (datagram.take tftpBufferSize) with
  | none => .error (buildTftpError 4 "unsupported operation")
  | some (requested, mode) =>
    if mode ≠ "octet" ∧ mode ≠ "netascii" then
      .error (buildTftpError 0 "unsupported transfer mode")
    else .transfer requested

/-- The part of `serve_tftp_read` before its loop: the transfer, or the error that is sent
instead. `openFile` gives what can be opened, with the bytes its reads return as long as they
succeed (none for a directory, which opens and fails at the first read). -/
def openTftpRead (root : List Component) (openFile : List Component → Option (List UInt8))
    (requested : String) : Except (List UInt8) Sender :=
  match sanitizeTftpPath root requested with
  | none => .error (buildTftpError 2 "invalid path")
  | some path =>
    match openFile path with
    | none => .error (buildTftpError 1 "file not found")
    | some file => .ok (.begin file)

end Hivebus.Pxeboot
