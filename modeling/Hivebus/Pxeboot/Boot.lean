import Hivebus.Lib.Table
import Hivebus.Proto.Types

namespace Hivebus.Pxeboot
open Lib Proto

/-- The text of an address, four decimal numbers with dots. -/
def fmtIp (a : Ipv4Addr) : String := ".".intercalate (a.octets.map (fun b => toString b.toNat))

/-- What the configuration file says; a field that has a default may be missing. -/
structure ConfigFile where
  serverIp : Ipv4Addr
  poolStart : Ipv4Addr
  poolEnd : Ipv4Addr
  subnetMask : Option Ipv4Addr
  gateway : Option Ipv4Addr
  tftpRoot : Option String
  bootFile : Option String
  seedUrl : Option String
  leaseSecs : Option UInt32

/-- A configuration the server runs with. Its pool is not empty. -/
structure Config where
  serverIp : Ipv4Addr
  poolStart : Ipv4Addr
  poolEnd : Ipv4Addr
  subnetMask : Ipv4Addr
  gateway : Option Ipv4Addr
  tftpRoot : String
  bootFile : String
  seedUrl : Option String
  leaseSecs : UInt32
  pool : poolStart.bits ≤ poolEnd.bits

def defaultMask : Ipv4Addr := ⟨0xFFFFFF00⟩

def defaultTftpRoot : String := "/var/lib/hivebus/tftp"

def defaultBootFile : String := "ipxe.efi"

def defaultLeaseSecs : UInt32 := 3600

def Config.load (file : ConfigFile) : Except String Config :=
  if h : file.poolStart.bits > file.poolEnd.bits then
    .error ("invalid DHCP pool: pool_start " ++ fmtIp file.poolStart ++ " is after pool_end " ++
      fmtIp file.poolEnd)
  else .ok {
    serverIp := file.serverIp
    poolStart := file.poolStart
    poolEnd := file.poolEnd
    subnetMask := file.subnetMask.getD defaultMask
    gateway := file.gateway
    tftpRoot := file.tftpRoot.getD defaultTftpRoot
    bootFile := file.bootFile.getD defaultBootFile
    seedUrl := file.seedUrl
    leaseSecs := file.leaseSecs.getD defaultLeaseSecs
    pool := UInt32.not_lt.mp h }

/-- The configuration of the seed node in the virtual cluster of the repository. -/
def seedConfig : Config where
  serverIp := ⟨0x0A2A000B⟩
  poolStart := ⟨0x0A2A0064⟩
  poolEnd := ⟨0x0A2A00C8⟩
  subnetMask := defaultMask
  gateway := none
  tftpRoot := defaultTftpRoot
  bootFile := "undionly.kpxe"
  seedUrl := some "http://10.42.0.11:7780/seed.tar.gz"
  leaseSecs := defaultLeaseSecs
  pool := by decide

structure Mac where
  octets : List UInt8
  size : octets.length = 6
deriving DecidableEq

namespace Mac

def codec : Codec Mac :=
  (Codec.raw 6).restrict (fun m => ⟨m.octets, m.size⟩) (fun bs => some ⟨bs.1, bs.2⟩) (fun _ => rfl)

end Mac

def fmtMac (mac : Mac) : String :=
  ":".intercalate (mac.octets.map (fun b =>
    String.ofList [hexDigit (b.toNat / 16), hexDigit (b.toNat % 16)]))

theorem fmtMac_toList (mac : Mac) :
    (fmtMac mac).toList = [':'].intercalate (mac.octets.map (fun b =>
      [hexDigit (b.toNat / 16), hexDigit (b.toNat % 16)])) := by
  have hsep : ":".toList = [':'] := by decide
  rw [fmtMac, String.toList_intercalate, hsep, List.map_map]
  congr 1
  apply List.map_congr_left
  intro b _
  exact String.toList_ofList

def defaultScriptPath (mac : Mac) : String := "scripts/" ++ fmtMac mac ++ ".ipxe"

inductive Component where
  | rootDir
  | curDir
  | parentDir
  | normal (segment : List Char)
deriving DecidableEq

/-- The components of a path as the standard library finds them: a leading slash is the
root, empty components are dropped, and `.` counts only in front. -/
def components (path : String) : List Component :=
  let segments := (path.toList.splitOn '/').filter (fun s => !s.isEmpty)
  let head : List Component :=
    if path.toList.head? = some '/' then [.rootDir]
    else if segments.head? = some ['.'] then [.curDir]
    else []
  head ++ (segments.filter (fun s => s ≠ ['.'])).map (fun s =>
    if s = ['.', '.'] then .parentDir else .normal s)

/-- A request is resolved below the root one component at a time; going up or starting
over is refused. -/
def sanitizeTftpPath (root : List Component) (requested : String) : Option (List Component) :=
  (components requested).foldlM (fun path component =>
    match component with
    | .normal segment => some (path ++ [.normal segment])
    | .curDir => some path
    | .parentDir | .rootDir => none) root

/-- `PathBuf::push`: a separator goes in where the buffer does not end in one, and an
absolute path takes the place of the buffer. -/
def pathPush (buf path : String) : String :=
  if path.toList.head? = some '/' then path
  else if buf.toList.getLast?.any (fun c => c ≠ '/') then buf ++ "/" ++ path
  else buf ++ path

/-- The same on the texts of the two paths, as the path buffer holds them. -/
def sanitizeTftpPathBuf (root requested : String) : Option String :=
  (components requested).foldlM (fun path component =>
    match component with
    | .normal segment => some (pathPush path (String.ofList segment))
    | .curDir => some path
    | .parentDir | .rootDir => none) root

structure BootEntry where
  hostname : String
  ip : Option Ipv4Addr
  ipxeScript : Option String
  tags : Table String String

namespace BootEntry

/-- The fields of an entry as they go over the wire, tags in some order. -/
abbrev Wire := String × Option Ipv4Addr × Option String × List (String × String)

theorem tagSize_pos (p : String × String) : 0 < (Codec.string.pair .string).size p :=
  Nat.lt_of_lt_of_le (by
    rw [Codec.size_string]
    exact Nat.lt_of_lt_of_le (varintSize_pos _) (Nat.le_add_right _ _)) (Nat.le_add_right _ _)

def codec : Codec Wire :=
  Codec.string.pair (Ipv4Addr.codec.option.pair (Codec.string.option.pair
    (Codec.seq (Codec.string.pair .string) tagSize_pos)))

def toWire (ord : Table.Order String String) (e : BootEntry) : Wire :=
  (e.hostname, e.ip, e.ipxeScript, ord.list e.tags)

/-- A tag that is given twice has the later value. -/
def ofWire (w : Wire) : BootEntry where
  hostname := w.1
  ip := w.2.1
  ipxeScript := w.2.2.1
  tags := w.2.2.2.foldl (fun tags p => tags.insert p.1 p.2) ∅

end BootEntry

def renderIpxeScript (cfg : Config) (mac : Mac) (entry : BootEntry) : String :=
  let seedUrl := ((entry.tags.lookup "seed_url").or cfg.seedUrl).getD
    ("http://" ++ fmtIp cfg.serverIp ++ ":7780/seed.tar.gz")
  "#!ipxe\necho hivebus bootstrap for " ++ entry.hostname ++ " (" ++ fmtMac mac ++ ")\nset seed-url "
    ++ seedUrl ++ "\nchain " ++ seedUrl ++ "\n"

abbrev Files := Table (List Component) String

/-- What is on disk after the script of an entry has been written; `stored` is whether
the file system lets it. -/
def writeIpxeScript (cfg : Config) (mac : Mac) (entry : BootEntry) (stored : Bool) (files : Files) :
    Files :=
  match entry.ipxeScript with
  | none => files
  | some relPath =>
    match sanitizeTftpPath (components cfg.tftpRoot) relPath with
    | none => files
    | some path => if stored then files.insert path (renderIpxeScript cfg mac entry) else files

end Hivebus.Pxeboot
