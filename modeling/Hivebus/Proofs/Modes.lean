import Hivebus.Pxeboot.Server
import Hivebus.Proofs.TftpTransfer

namespace Hivebus.Proofs.Modes
open Lib Proto Pxeboot TftpTransfer

def cr : UInt8 := 13

def lf : UInt8 := 10

/-- What a netascii client stores for the bytes it gets: CR LF is a line feed, CR NUL is a
carriage return, everything else is itself. -/
def netascii : List UInt8 → List UInt8
  | a :: b :: rest =>
    if a = cr ∧ b = lf then lf :: netascii rest
    else if a = cr ∧ b = 0 then cr :: netascii rest
    else a :: netascii (b :: rest)
  | [a] => [a]
  | [] => []

/-- A client keeps the bytes as they come unless it asked for netascii. -/
def decoded (mode : String) (bytes : List UInt8) : List UInt8 :=
  if mode = "netascii" then netascii bytes else bytes

/-- Somewhere a carriage return stands right before a line feed or a NUL. -/
def Escapes (file : List UInt8) : Prop :=
  ∃ pre b post, file = pre ++ cr :: b :: post ∧ (b = lf ∨ b = 0)

theorem length_netascii_le (bytes : List UInt8) : (netascii bytes).length ≤ bytes.length := by
  fun_induction netascii bytes with
  | case1 a b rest h ih => simp only [List.length_cons]; omega
  | case2 a b rest h1 h2 ih => simp only [List.length_cons]; omega
  | case3 a b rest h1 h2 ih => simp only [List.length_cons] at ih ⊢; omega
  | case4 a => exact Nat.le_refl _
  | case5 => exact Nat.le_refl _

theorem escapes_cons {a b : UInt8} {rest : List UInt8} :
    Escapes (a :: b :: rest) ↔ (a = cr ∧ (b = lf ∨ b = 0)) ∨ Escapes (b :: rest) := by
  constructor
  · intro h
    obtain ⟨pre, c, post, he, hc⟩ := h
    cases pre with
    | nil =>
      cases he
      exact .inl ⟨rfl, hc⟩
    | cons p pre =>
      obtain ⟨_, htail⟩ := List.cons.inj he
      exact .inr ⟨pre, c, post, htail, hc⟩
  · intro h
    rcases h with ⟨rfl, hb⟩ | ⟨pre, c, post, he, hc⟩
    · exact ⟨[], b, rest, rfl, hb⟩
    · exact ⟨a :: pre, c, post, by rw [he]; rfl, hc⟩

theorem escapes_short {file : List UInt8} (h : file.length < 2) : ¬ Escapes file := by
  intro hex
  obtain ⟨pre, b, post, rfl, _⟩ := hex
  rw [List.length_append, List.length_cons, List.length_cons] at h
  omega

/-- What is decoded gets shorter. -/
theorem decoded_shorter (c a b : UInt8) (rest : List UInt8) : c :: netascii rest ≠ a :: b :: rest := by
  intro he
  have hl := length_netascii_le rest
  have := congrArg List.length he
  simp only [List.length_cons] at this
  omega

/-- A client that decodes what was never encoded has the file exactly when there is nothing
in it to decode. -/
theorem netascii_eq_self_iff (file : List UInt8) : netascii file = file ↔ ¬ Escapes file := by
  fun_induction netascii file with
  | case1 a b rest h ih =>
    obtain ⟨rfl, rfl⟩ := h
    constructor
    · intro he
      exact absurd he (decoded_shorter _ _ _ _)
    · intro he
      exact absurd (escapes_cons.mpr (.inl ⟨rfl, .inl rfl⟩)) he
  | case2 a b rest _ h ih =>
    obtain ⟨rfl, rfl⟩ := h
    constructor
    · intro he
      exact absurd he (decoded_shorter _ _ _ _)
    · intro he
      exact absurd (escapes_cons.mpr (.inl ⟨rfl, .inr rfl⟩)) he
  | case3 a b rest h1 h2 ih =>
    have hno : ¬ (a = cr ∧ (b = lf ∨ b = 0)) := by
      intro h
      rcases h with ⟨ha, hb | hb⟩
      · exact h1 ⟨ha, hb⟩
      · exact h2 ⟨ha, hb⟩
    rw [escapes_cons, List.cons_inj_right, ih]
    constructor
    · intro h hor
      rcases hor with hpair | hrest
      · exact hno hpair
      · exact h hrest
    · intro h hrest
      exact h (.inr hrest)
  | case4 a => exact ⟨fun _ => escapes_short (by simp), fun _ => rfl⟩
  | case5 => exact ⟨fun _ => escapes_short (by simp), fun _ => rfl⟩

/-- A read request that the server accepts, and the file it opens for it. -/
structure AcceptedRead where
  datagram : List UInt8
  requested : String
  mode : String
  root : List Component
  openFile : List Component → Option (List UInt8)
  file : List UInt8
  parsed : parseTftpRrq (datagram.take tftpBufferSize) = some (requested, mode)
  accepted : tftpServer datagram = .transfer requested
  opened : openTftpRead root openFile requested = .ok (.begin file)

theorem accepted_mode (r : AcceptedRead) : r.mode = "octet" ∨ r.mode = "netascii" := by
  have h := r.accepted
  simp only [tftpServer, r.parsed] at h
  split at h
  · cases h
  · next hm =>
    by_contra hno
    rw [not_or] at hno
    exact hm hno

/-- A transfer in which nothing is lost ends, and what the client stores is the file. -/
def Delivers (client : SocketAddr) (r : AcceptedRead) : Prop :=
  ∃ n, (Transfer.run client r.file (lossless n)).sender.progress = .complete ∧
    decoded r.mode (Transfer.run client r.file (lossless n)).receiver.bytes = r.file

theorem delivers_iff_decoded (client : SocketAddr) (r : AcceptedRead) :
    Delivers client r ↔ decoded r.mode r.file = r.file := by
  constructor
  · intro h
    obtain ⟨n, hc, hd⟩ := h
    rwa [run_complete hc] at hd
  · intro h
    obtain ⟨n, hc⟩ := lossless_completes client r.file
    exact ⟨n, hc, by rw [run_complete hc]; exact h⟩

/-- An octet client always gets the file. A netascii client, whose bytes are the same, gets
it exactly when no carriage return in it stands right before a line feed or a NUL. -/
theorem delivers_iff (client : SocketAddr) (r : AcceptedRead) :
    Delivers client r ↔ r.mode = "octet" ∨ ¬ Escapes r.file := by
  rw [delivers_iff_decoded, decoded]
  rcases accepted_mode r with hm | hm
  · rw [hm, if_neg (by decide)]
    exact ⟨fun _ => .inl rfl, fun _ => rfl⟩
  · rw [hm, if_pos rfl, netascii_eq_self_iff]
    constructor
    · exact .inr
    · intro h
      rcases h with h | h
      · exact absurd h (by decide)
      · exact h

/-- A script with one line that ends in CR LF. -/
def dosScript : List UInt8 := [35, 13, 10]

/-- The request of a client for the file `a` in the mode NetASCII. -/
def netasciiRead : AcceptedRead where
  datagram := [0, 1, 97, 0, 78, 101, 116, 65, 83, 67, 73, 73, 0]
  requested := "a"
  mode := "netascii"
  root := []
  openFile := fun _ => some dosScript
  file := dosScript
  parsed := by decide +kernel
  accepted := by decide +kernel
  opened := by rfl

theorem dos_script_not_delivered :
    ¬ ∀ (client : SocketAddr) (r : AcceptedRead), Delivers client r := by
  intro h
  have hd := (delivers_iff_decoded (.v4 ⟨0x0A2A0064⟩ 2070) netasciiRead).mp (h _ _)
  exact absurd hd (by decide +kernel)

end Hivebus.Proofs.Modes
