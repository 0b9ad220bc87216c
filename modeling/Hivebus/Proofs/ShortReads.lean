import Mathlib.Logic.Function.Iterate
import Hivebus.Pxeboot.Reads
import Hivebus.Proofs.TftpTransfer

namespace Hivebus.Proofs.ShortReads
open Lib Proto Pxeboot TftpTransfer

/-- A transfer with the packets it has sent. -/
structure Served where
  sender : ReadSender
  packets : List (List UInt8)

def Served.begin (reads : List (List UInt8)) : Served := ⟨.begin reads, []⟩

/-- The packet goes out and its acknowledgement comes back. -/
def exchange (client : SocketAddr) (v : Served) : Served :=
  if v.sender.progress = .sending then {
    sender := ({ v.sender with progress := .waiting } : ReadSender).hear client
      (.datagram (ackPacket v.sender.block.toNat) client)
    packets := v.packets ++ [v.sender.packet] }
  else v

/-- What a data packet carries behind its opcode and its block number. -/
def payload (packet : List UInt8) : List UInt8 := packet.drop 4

theorem payload_data (block : UInt16) (data : List UInt8) :
    payload (buildTftpData block data) = data := by
  have hlen : (beBytes 2 tftpData ++ beBytes 2 block.toNat).length = 4 := by simp
  rw [payload, buildTftpData, ← hlen, List.drop_left]

/-- The transfer after so many exchanges. -/
def exchanged (client : SocketAddr) (reads : List (List UInt8)) (n : Nat) : Served :=
  (exchange client)^[n] (.begin reads)

def payloads (v : Served) : List (List UInt8) := v.packets.map payload

/-- The transfer is complete, the payloads it sent make up the file, all have 512 bytes but
the last, and the last has fewer. -/
structure Delivered (file : List UInt8) (v : Served) : Prop where
  complete : v.sender.progress = .complete
  whole : (payloads v).flatten = file
  full : ∀ p ∈ (payloads v).dropLast, p.length = tftpBlockSize
  last : ∃ p, (payloads v).getLast? = some p ∧ p.length < tftpBlockSize

section Exchange

variable (client : SocketAddr)

theorem acknowledges_own (block : UInt16) :
    Sender.acknowledges client block (.datagram (ackPacket block.toNat) client) = true := by
  rw [acknowledges_ackPacket, UInt16.ofNat_toNat]

theorem exchange_short {v : Served} (hp : v.sender.progress = .sending)
    (hc : v.sender.chunk.length < tftpBlockSize) :
    (exchange client v).sender.progress = .complete ∧
      (exchange client v).packets = v.packets ++ [v.sender.packet] := by
  simp only [exchange, hp, ↓reduceIte, ReadSender.hear, acknowledges_own, hc, and_self]

theorem exchange_full {v : Served} (hp : v.sender.progress = .sending)
    (hc : ¬ v.sender.chunk.length < tftpBlockSize) :
    exchange client v = {
      sender := {
        reads := v.sender.reads.tail
        block := v.sender.block + 1
        chunk := v.sender.reads.headD []
        retries := 0
        progress := .sending }
      packets := v.packets ++ [v.sender.packet] } := by
  simp only [exchange, hp, ↓reduceIte, ReadSender.hear, acknowledges_own, hc]

theorem exchange_complete {v : Served} (hp : v.sender.progress = .complete) :
    exchange client v = v := by
  simp only [exchange, hp, reduceCtorEq, ↓reduceIte]

/-- A transfer is complete in one way only. -/
theorem complete_unique {v : Served} {m n : Nat}
    (hm : ((exchange client)^[m] v).sender.progress = .complete)
    (hn : ((exchange client)^[n] v).sender.progress = .complete) :
    (exchange client)^[m] v = (exchange client)^[n] v := by
  have hle : ∀ a b, a ≤ b → ((exchange client)^[a] v).sender.progress = .complete →
      (exchange client)^[b] v = (exchange client)^[a] v := by
    intro a b hab ha
    obtain ⟨k, rfl⟩ := Nat.exists_eq_add_of_le' hab
    rw [Function.iterate_add_apply]
    exact Function.iterate_fixed (exchange_complete client ha) k
  rcases Nat.le_total m n with h | h
  · exact (hle m n h hm).symm
  · exact hle n m h hn

end Exchange

/-- The payloads that go out: the reads up to the first short one. -/
def blocks : List (List UInt8) → List (List UInt8)
  | [] => [[]]
  | c :: cs => if c.length < tftpBlockSize then [c] else c :: blocks cs

theorem iterate_blocks (client : SocketAddr) (reads : List (List UInt8)) (v : Served)
    (hp : v.sender.progress = .sending) (hc : v.sender.chunk = reads.headD [])
    (hr : v.sender.reads = reads.tail) :
    ((exchange client)^[(blocks reads).length] v).sender.progress = .complete ∧
      payloads ((exchange client)^[(blocks reads).length] v) = payloads v ++ blocks reads := by
  induction reads generalizing v with
  | nil =>
    have hshort : v.sender.chunk.length < tftpBlockSize := by
      rw [hc]
      decide
    obtain ⟨hdone, hsent⟩ := exchange_short client hp hshort
    refine ⟨hdone, ?_⟩
    change payloads (exchange client v) = payloads v ++ [[]]
    rw [payloads, hsent, List.map_append, List.map_singleton, ReadSender.packet, payload_data, hc]
    rfl
  | cons c cs ih =>
    rw [List.headD_cons] at hc
    rw [List.tail_cons] at hr
    by_cases hshort : c.length < tftpBlockSize
    · obtain ⟨hdone, hsent⟩ := exchange_short client hp (by rw [hc]; exact hshort)
      simp only [blocks, hshort, ↓reduceIte, List.length_singleton, Function.iterate_one]
      refine ⟨hdone, ?_⟩
      rw [payloads, hsent, List.map_append, List.map_singleton, ReadSender.packet, payload_data, hc]
      rfl
    · have hnext := exchange_full client hp (by rw [hc]; exact hshort)
      simp only [blocks, hshort, ↓reduceIte, List.length_cons, Function.iterate_succ_apply, hnext]
      obtain ⟨hdone, hsent⟩ := ih {
        sender := {
          reads := v.sender.reads.tail
          block := v.sender.block + 1
          chunk := v.sender.reads.headD []
          retries := 0
          progress := .sending }
        packets := v.packets ++ [v.sender.packet] } rfl (by rw [hr]) (by rw [hr])
      refine ⟨hdone, ?_⟩
      rw [hsent, payloads, List.map_append, List.map_singleton, ReadSender.packet, payload_data, hc,
        List.append_assoc, List.singleton_append]
      rfl

/-- Whatever the reads return, all blocks but the last are full and the last is short. -/
theorem blocks_shape {reads : List (List UInt8)} (hsize : ∀ c ∈ reads, c.length ≤ tftpBlockSize) :
    (∀ p ∈ (blocks reads).dropLast, p.length = tftpBlockSize) ∧
      ∃ p, (blocks reads).getLast? = some p ∧ p.length < tftpBlockSize := by
  induction reads with
  | nil => exact ⟨by simp [blocks], [], rfl, by decide⟩
  | cons c cs ih =>
    obtain ⟨hfull, p, hp, hshort⟩ := ih (fun d hd => hsize d (List.mem_cons_of_mem c hd))
    by_cases hc : c.length < tftpBlockSize
    · simp only [blocks, hc, ↓reduceIte]
      exact ⟨by simp, c, rfl, hc⟩
    · have hcs : blocks cs ≠ [] := by
        intro hnil
        rw [hnil] at hp
        cases hp
      simp only [blocks, hc, ↓reduceIte]
      refine ⟨?_, p, ?_, hshort⟩
      · rw [List.dropLast_cons_of_ne_nil hcs]
        intro q hq
        rcases List.mem_cons.mp hq with rfl | hq
        · exact Nat.le_antisymm (hsize q List.mem_cons_self) (Nat.le_of_not_lt hc)
        · exact hfull q hq
      · rw [List.getLast?_cons, hp]
        rfl

/-- They are the whole file exactly when no read but the last was short. -/
theorem blocks_flatten {reads : List (List UInt8)}
    (hsize : ∀ c ∈ reads, 1 ≤ c.length ∧ c.length ≤ tftpBlockSize) :
    (blocks reads).flatten = reads.flatten ↔ ∀ c ∈ reads.dropLast, c.length = tftpBlockSize := by
  induction reads with
  | nil => simp [blocks]
  | cons c cs ih =>
    have ih := ih (fun d hd => hsize d (List.mem_cons_of_mem c hd))
    obtain ⟨_, hle⟩ := hsize c List.mem_cons_self
    cases cs with
    | nil =>
      by_cases hc : c.length < tftpBlockSize
      · simp [blocks, hc]
      · simp [blocks, hc]
    | cons d ds =>
      obtain ⟨hd, _⟩ := hsize d (List.mem_cons_of_mem c List.mem_cons_self)
      rw [List.dropLast_cons_of_ne_nil (List.cons_ne_nil d ds), List.forall_mem_cons]
      by_cases hc : c.length < tftpBlockSize
      · constructor
        · intro h
          simp only [blocks, hc, ↓reduceIte, List.flatten_cons, List.flatten_nil] at h
          have := congrArg List.length h
          simp only [List.length_append, List.length_nil] at this
          omega
        · intro h
          exact absurd h.1 (Nat.ne_of_lt hc)
      · have hfull : c.length = tftpBlockSize := Nat.le_antisymm hle (Nat.le_of_not_lt hc)
        rw [blocks, if_neg hc, List.flatten_cons, List.flatten_cons, List.append_cancel_left_eq, ih]
        exact ⟨fun h => ⟨hfull, h⟩, fun h => h.2⟩

/-- Acknowledged block by block, a transfer delivers the file exactly when every read of it
but the last filled the buffer. -/
theorem delivered_iff (client : SocketAddr) (file : List UInt8) (x : Splitting file) :
    (∃ n, Delivered file (exchanged client x.reads n)) ↔
      ∀ c ∈ x.reads.dropLast, c.length = tftpBlockSize := by
  obtain ⟨hdone, hsent⟩ := iterate_blocks client x.reads (.begin x.reads) rfl rfl rfl
  have hall : payloads (exchanged client x.reads (blocks x.reads).length) = blocks x.reads := hsent
  rw [← blocks_flatten x.sizes, x.whole]
  constructor
  · intro delivered
    obtain ⟨n, hn⟩ := delivered
    have hsame : exchanged client x.reads n = exchanged client x.reads (blocks x.reads).length :=
      complete_unique client hn.complete hdone
    rw [← hall, ← hsame]
    exact hn.whole
  · intro hflat
    obtain ⟨hfull, hlast⟩ := blocks_shape (fun c hc => (x.sizes c hc).2)
    rw [← hall] at hflat hfull hlast
    exact ⟨(blocks x.reads).length, hdone, hflat, hfull, hlast⟩

/-- A file of two bytes that is read one byte at a time. -/
def twoReads : Splitting [1, 2] where
  reads := [[1], [2]]
  sizes := by decide
  whole := rfl

/-- The client gets the first of them and takes it for the file. -/
theorem two_reads_truncated (client : SocketAddr) :
    (exchanged client twoReads.reads 1).sender.progress = .complete ∧
      payloads (exchanged client twoReads.reads 1) = [[1]] :=
  iterate_blocks client [[1], [2]] (.begin [[1], [2]]) rfl rfl rfl

theorem two_reads_not_delivered :
    ¬ ∀ (client : SocketAddr) (file : List UInt8) (x : Splitting file),
      ∃ n, Delivered file (exchanged client x.reads n) := by
  intro h
  obtain ⟨n, hn⟩ := h (.v4 ⟨0x0A2A0064⟩ 2070) [1, 2] twoReads
  obtain ⟨hdone, hsent⟩ := two_reads_truncated (.v4 ⟨0x0A2A0064⟩ 2070)
  have hwhole := hn.whole
  have hsame : exchanged (.v4 ⟨0x0A2A0064⟩ 2070) twoReads.reads n =
      exchanged (.v4 ⟨0x0A2A0064⟩ 2070) twoReads.reads 1 := complete_unique _ hn.complete hdone
  rw [hsame, hsent] at hwhole
  exact absurd hwhole (by decide)

end Hivebus.Proofs.ShortReads
