import Hivebus.Lib.Run
import Hivebus.Pxeboot.Boot

namespace Hivebus.Pxeboot
open Lib Proto

/-- A reading of the monotonic clock in nanoseconds. -/
abbrev Instant := Nat

structure Lease where
  ip : Ipv4Addr
  expires : Instant

abbrev BootTable := Table Mac BootEntry

abbrev LeaseTable := Table Mac Lease

inductive RequestKind where
  | discover
  | request
deriving DecidableEq

/-- What the server reads out of a DISCOVER or a REQUEST. -/
structure Request where
  kind : RequestKind
  xid : UInt32
  flags : UInt16
  chaddr : { bs : List UInt8 // bs.length = 16 }
deriving DecidableEq

def Request.mac (q : Request) : Mac where
  octets := q.chaddr.1.take 6
  size := by rw [List.length_take, q.chaddr.2]; rfl

/-- The entry a MAC gets that nobody registered. -/
def discovered (mac : Mac) : BootEntry where
  hostname := "node-" ++ fmtMac mac
  ip := none
  ipxeScript := some (defaultScriptPath mac)
  tags := ∅

def lease (cfg : Config) (now : Instant) (ip : Ipv4Addr) : Lease :=
  ⟨ip, now + Duration.fromSecs cfg.leaseSecs.toNat⟩

/-- The addresses of the pool in the order they are tried. -/
def poolIps (cfg : Config) : List Ipv4Addr :=
  (List.range' cfg.poolStart.bits.toNat
    (cfg.poolEnd.bits.toNat + 1 - cfg.poolStart.bits.toNat)).map (fun n => ⟨UInt32.ofNat n⟩)

/-- First part of `allocate_ip`, under the lock of the boot table. -/
def staticIp (boot : BootTable) (mac : Mac) : Option Ipv4Addr :=
  (boot.lookup mac).bind BootEntry.ip

/-- Last part of `allocate_ip`: the first address of the pool that is in no lease. -/
def freeIp (cfg : Config) (leases : LeaseTable) : Option Ipv4Addr :=
  let inUse := leases.pairs.map (fun p => p.2.ip)
  (poolIps cfg).find? (fun ip => !inUse.contains ip)

/-- Where the task of the DHCP server stands between two of its critical sections. -/
inductive Phase where
  | idle
  | scripting (q : Request) (entry : BootEntry)
  | choosing (q : Request)
  | leasing (q : Request)
  | storing (q : Request) (ip : Ipv4Addr)
  | replying (q : Request) (ip : Ipv4Addr)

/-- The request in hand. -/
def Phase.request : Phase → Option Request
  | .idle => none
  | .scripting q _ | .choosing q | .leasing q | .storing q _ | .replying q _ => some q

/-- The tables, the disk, the place of the DHCP task, and the control requests that
have changed the boot table and still have to write their script. -/
structure State where
  boot : BootTable
  leases : LeaseTable
  files : Files
  phase : Phase
  writers : List (Mac × BootEntry)

def start : State := ⟨∅, ∅, ∅, .idle, []⟩

inductive Event where
  | recv (q : Request)
  | advance (now : Instant) (stored : Bool)
  | register (mac : Mac) (entry : BootEntry)
  | write (i : Nat) (stored : Bool)

/-- The next critical section of the DHCP task. Nobody else has the lease table, so its
two locks in `allocate_ip` are one step. -/
def advance (cfg : Config) (now : Instant) (stored : Bool) (s : State) : State :=
  match s.phase with
  | .idle => s
  | .scripting q entry =>
    { s with files := writeIpxeScript cfg q.mac entry stored s.files, phase := .choosing q }
  | .choosing q =>
    match staticIp s.boot q.mac with
    | some ip => { s with phase := .storing q ip }
    | none => { s with phase := .leasing q }
  | .leasing q =>
    match s.leases.lookup q.mac with
    | some l => { s with
        leases := s.leases.insert q.mac (lease cfg now l.ip), phase := .storing q l.ip }
    | none =>
      match freeIp cfg s.leases with
      | some ip => { s with phase := .storing q ip }
      | none => { s with phase := .idle }
  | .storing q ip =>
    { s with leases := s.leases.insert q.mac (lease cfg now ip), phase := .replying q ip }
  | .replying _ _ => { s with phase := .idle }

/-- The DHCP task takes requests one at a time; each control request is a task of its
own, whose script is written some time after its entry is in the table. -/
def step (cfg : Config) (s : State) : Event → State
  | .recv q =>
    match s.phase with
    | .idle =>
      match s.boot.lookup q.mac with
      | some entry => { s with phase := .scripting q entry }
      | none => { s with
          boot := s.boot.insert q.mac (discovered q.mac)
          phase := .scripting q (discovered q.mac) }
    | _ => s
  | .advance now stored => advance cfg now stored s
  | .register mac entry =>
    { s with boot := s.boot.insert mac entry, writers := s.writers ++ [(mac, entry)] }
  | .write i stored =>
    match s.writers[i]? with
    | some (mac, entry) => { s with
        files := writeIpxeScript cfg mac entry stored s.files, writers := s.writers.eraseIdx i }
    | none => s

def run (cfg : Config) (es : List Event) : State := Run.exec (step cfg) start es

inductive ReplyKind where
  | offer
  | ack
deriving DecidableEq

/-- What a reply tells the client. -/
structure Reply where
  kind : ReplyKind
  xid : UInt32
  chaddr : { bs : List UInt8 // bs.length = 16 }
  yiaddr : Ipv4Addr
  siaddr : Ipv4Addr
  subnet : Ipv4Addr
  gateway : Option Ipv4Addr
  leaseSecs : UInt32
  bootFile : String
  target : SocketAddr

/-- The client a reply is for. -/
def Reply.mac (r : Reply) : Mac where
  octets := r.chaddr.1.take 6
  size := by rw [List.length_take, r.chaddr.2]; rfl

def dhcpClientPort : UInt16 := 68

/-- The reply that an event makes the server send. The boot file is looked up again
when the lease is stored. -/
def answer (cfg : Config) (s : State) : Event → Option Reply
  | .advance _ _ =>
    match s.phase with
    | .replying q ip => some {
        kind := match q.kind with
          | .discover => .offer
          | .request => .ack
        xid := q.xid
        chaddr := q.chaddr
        yiaddr := ip
        siaddr := cfg.serverIp
        subnet := cfg.subnetMask
        gateway := cfg.gateway
        leaseSecs := cfg.leaseSecs
        bootFile := ((s.boot.lookup q.mac).bind BootEntry.ipxeScript).getD cfg.bootFile
        target := if q.flags &&& 0x8000 ≠ 0 then .v4 ⟨0xFFFFFFFF⟩ dhcpClientPort
          else .v4 ip dhcpClientPort }
    | _ => none
  | _ => none

/-- What a step of the DHCP task can make of the state, with what it has looked up. -/
inductive Advances (cfg : Config) (now : Instant) (stored : Bool) (s : State) : State → Prop where
  | rest (hph : s.phase = .idle) : Advances cfg now stored s s
  | script {q : Request} {entry : BootEntry} (hph : s.phase = .scripting q entry) :
      Advances cfg now stored s
        { s with files := writeIpxeScript cfg q.mac entry stored s.files, phase := .choosing q }
  | assign {q : Request} {ip : Ipv4Addr} (hph : s.phase = .choosing q)
      (hs : staticIp s.boot q.mac = some ip) :
      Advances cfg now stored s { s with phase := .storing q ip }
  | choose {q : Request} (hph : s.phase = .choosing q) (hs : staticIp s.boot q.mac = none) :
      Advances cfg now stored s { s with phase := .leasing q }
  | renew {q : Request} {l : Lease} (hph : s.phase = .leasing q)
      (hl : s.leases.lookup q.mac = some l) :
      Advances cfg now stored s
        { s with leases := s.leases.insert q.mac (lease cfg now l.ip), phase := .storing q l.ip }
  | allocate {q : Request} {ip : Ipv4Addr} (hph : s.phase = .leasing q)
      (hl : s.leases.lookup q.mac = none) (hf : freeIp cfg s.leases = some ip) :
      Advances cfg now stored s { s with phase := .storing q ip }
  | refuse {q : Request} (hph : s.phase = .leasing q) (hl : s.leases.lookup q.mac = none)
      (hf : freeIp cfg s.leases = none) : Advances cfg now stored s { s with phase := .idle }
  | store {q : Request} {ip : Ipv4Addr} (hph : s.phase = .storing q ip) :
      Advances cfg now stored s
        { s with leases := s.leases.insert q.mac (lease cfg now ip), phase := .replying q ip }
  | reply {q : Request} {ip : Ipv4Addr} (hph : s.phase = .replying q ip) :
      Advances cfg now stored s { s with phase := .idle }

theorem advance_cases (cfg : Config) (now : Instant) (stored : Bool) (s : State) :
    Advances cfg now stored s (advance cfg now stored s) := by
  cases hph : s.phase with
  | idle =>
    simp only [advance, hph]
    exact .rest hph
  | scripting q entry =>
    simp only [advance, hph]
    exact .script hph
  | choosing q =>
    cases hs : staticIp s.boot q.mac with
    | some ip =>
      simp only [advance, hph, hs]
      exact .assign hph hs
    | none =>
      simp only [advance, hph, hs]
      exact .choose hph hs
  | leasing q =>
    cases hl : s.leases.lookup q.mac with
    | some l =>
      simp only [advance, hph, hl]
      exact .renew hph hl
    | none =>
      cases hf : freeIp cfg s.leases with
      | some ip =>
        simp only [advance, hph, hl, hf]
        exact .allocate hph hl hf
      | none =>
        simp only [advance, hph, hl, hf]
        exact .refuse hph hl hf
  | storing q ip =>
    simp only [advance, hph]
    exact .store hph
  | replying q ip =>
    simp only [advance, hph]
    exact .reply hph

/-- A reply goes to the client whose request is being answered, with the address it got. -/
theorem answer_replying {cfg : Config} {s : State} {e : Event} {r : Reply}
    (h : answer cfg s e = some r) :
    ∃ q, s.phase = .replying q r.yiaddr ∧ r.mac = q.mac ∧
      r.bootFile = ((s.boot.lookup r.mac).bind BootEntry.ipxeScript).getD cfg.bootFile := by
  cases e with
  | advance now stored =>
    simp only [answer] at h
    cases hph : s.phase with
    | replying q ip =>
      simp only [hph, Option.some.injEq] at h
      subst h
      exact ⟨q, rfl, rfl, rfl⟩
    | _ => simp [hph] at h
  | _ => cases h

end Hivebus.Pxeboot
