import Hivebus.Pxeboot.Tftp

namespace Hivebus.Proofs.TftpTransfer
open Lib Proto Pxeboot Fifo

/-- The part of the file that block `n + 1` carries. -/
def chunkAt (file : List UInt8) (n : Nat) : List UInt8 :=
  (file.drop (tftpBlockSize * n)).take tftpBlockSize

/-- The packet of the block with true number `i`, of which the wire has sixteen bits. -/
def dataPacket (file : List UInt8) (i : Nat) : List UInt8 :=
  buildTftpData (UInt16.ofNat i) (chunkAt file (i - 1))

def ackPacket (i : Nat) : List UInt8 := beBytes 2 tftpAck ++ beBytes 2 (UInt16.ofNat i).toNat

/-- The sender is at block `n + 1` and the receiver has accepted `c` blocks. Neither
queue holds anything the other side has moved past: blocks `ds` are on their way from
`c` on, acknowledgements `ks` from `n` on. -/
structure Aligned (file : List UInt8) (t : Transfer) (n c : Nat) (ds ks : List Nat) : Prop where
  block : t.sender.block = UInt16.ofNat (n + 1)
  chunk : t.sender.chunk = chunkAt file n
  rest : t.sender.rest = file.drop (tftpBlockSize * (n + 1))
  full : tftpBlockSize * n ≤ file.length
  last : t.receiver.last = UInt16.ofNat c
  bytes : t.receiver.bytes = file.take (tftpBlockSize * c)
  ahead : n ≤ c ∧ c ≤ n + 1
  data : t.data = ds.map (dataPacket file)
  dataWindow : Window c (n + 1) ds
  acks : t.acks = ks.map ackPacket
  ackWindow : Window n c ks
  complete : t.sender.progress = .complete → c = n + 1 ∧ t.sender.chunk.length < tftpBlockSize

theorem beBytes_word (n : UInt16) :
    beBytes 2 n.toNat = [UInt8.ofNat (n.toNat / 256), UInt8.ofNat n.toNat] := rfl

theorem word_beBytes (n : UInt16) :
    UInt16.ofNat (ofBeBytes [UInt8.ofNat (n.toNat / 256), UInt8.ofNat n.toNat]) = n := by
  rw [← beBytes_word, ofBeBytes_beBytes n.toNat_lt, UInt16.ofNat_toNat]

theorem parse_data (block : UInt16) (data : List UInt8) :
    Receiver.parseTftpData (buildTftpData block data) = some (block, data) := by
  have hop : beBytes 2 tftpData = [0, 3] := rfl
  simp only [buildTftpData, hop, beBytes_word, List.cons_append, List.nil_append,
    Receiver.parseTftpData, word_beBytes]
  rfl

theorem acknowledges_ackPacket (client : SocketAddr) (block : UInt16) (i : Nat) :
    Sender.acknowledges client block (.datagram (ackPacket i) client) ↔
      UInt16.ofNat i = block := by
  have hop : beBytes 2 tftpAck = [0, 4] := rfl
  have hcode : (ofBeBytes [0, 4] == tftpAck) = true := rfl
  simp only [ackPacket, hop, beBytes_word, List.cons_append, List.nil_append, Sender.acknowledges,
    List.take_succ_cons, List.take_zero, word_beBytes, hcode, beq_self_eq_true, Bool.and_self,
    Bool.true_and, beq_iff_eq]

/-- Sixteen bits are enough to tell a block from its neighbour. -/
theorem word_ne_succ (i : Nat) : UInt16.ofNat i ≠ UInt16.ofNat (i + 1) := by
  intro h
  have ht := congrArg UInt16.toNat h
  rw [UInt16.toNat_ofNat', UInt16.toNat_ofNat'] at ht
  omega

theorem word_succ (i : Nat) : UInt16.ofNat i + 1 = UInt16.ofNat (i + 1) :=
  (UInt16.ofNat_add i 1).symm

theorem take_chunk (file : List UInt8) (n : Nat) :
    file.take (tftpBlockSize * n) ++ chunkAt file n = file.take (tftpBlockSize * (n + 1)) := by
  rw [chunkAt, Nat.mul_succ, List.take_add]

/-- A chunk that is not short is followed by at least the end of the file. -/
theorem full_chunk {file : List UInt8} {n : Nat} (hn : tftpBlockSize * n ≤ file.length)
    (h : ¬ (chunkAt file n).length < tftpBlockSize) :
    tftpBlockSize * (n + 1) ≤ file.length := by
  rw [chunkAt, List.length_take, List.length_drop] at h
  rw [Nat.mul_succ]
  omega

theorem short_chunk {file : List UInt8} {n : Nat}
    (h : (chunkAt file n).length < tftpBlockSize) :
    file.length ≤ tftpBlockSize * (n + 1) := by
  rw [chunkAt, List.length_take, List.length_drop] at h
  rw [Nat.mul_succ]
  omega

theorem aligned_begin (file : List UInt8) : Aligned file (Transfer.begin file) 0 0 [] [] where
  block := rfl
  chunk := rfl
  rest := rfl
  full := Nat.zero_le _
  last := rfl
  bytes := rfl
  ahead := ⟨Nat.le_refl _, Nat.zero_le _⟩
  data := rfl
  dataWindow := .nil _ _
  acks := rfl
  ackWindow := .nil _ _
  complete h := nomatch h

variable {file : List UInt8} {t : Transfer} {n c : Nat} {ds ks : List Nat}

/-- What is not the awaited acknowledgement costs a retry at most. -/
theorem hear_other {client : SocketAddr} {s : Sender} {h : Sender.Heard}
    (hn : Sender.acknowledges client s.block h = false) :
    s.hear client h = s ∨ ∃ r p, s.hear client h = { s with retries := r, progress := p } ∧
      p ≠ .complete := by
  unfold Sender.hear
  split
  · rw [hn]
    simp only [Bool.false_eq_true, ↓reduceIte]
    split
    · exact .inr ⟨_, _, rfl, by decide⟩
    · exact .inr ⟨_, _, rfl, by decide⟩
  · exact .inl rfl

/-- The sender may go about its retries without anybody noticing. -/
theorem Aligned.retry (h : Aligned file t n c ds ks) {r : Nat} {p : Progress}
    (hp : p ≠ .complete) :
    Aligned file { t with sender := { t.sender with retries := r, progress := p } } n c ds ks :=
  { h with complete := fun hc => absurd hc hp }

theorem Aligned.hear_other (h : Aligned file t n c ds ks) {client : SocketAddr}
    {e : Sender.Heard} (hn : Sender.acknowledges client t.sender.block e = false) :
    Aligned file { t with sender := t.sender.hear client e } n c ds ks := by
  rcases TftpTransfer.hear_other hn with he | ⟨r, p, he, hp⟩
  · rw [he]
    exact h
  · rw [he]
    exact h.retry hp

theorem foreign_no_ack {client : SocketAddr} {h : Sender.Heard}
    (hf : Transfer.foreign client h = true) (block : UInt16) :
    Sender.acknowledges client block h = false := by
  cases h with
  | timeout => rfl
  | failed => rfl
  | datagram bytes source =>
    have hs : (source == client) = false := by
      simpa [Transfer.foreign] using hf
    simp only [Sender.acknowledges, hs, Bool.false_and]
    split <;> rfl

/-- The sender's packet is on its way. -/
def sent (t : Transfer) : Transfer :=
  { t with
    sender := { t.sender with progress := .waiting }
    data := t.data ++ [t.sender.packet] }

theorem step_send {client : SocketAddr} (hp : t.sender.progress = .sending) :
    t.step client .send = sent t := by
  simp only [Transfer.step, Sender.turn, Sender.output, hp, ↓reduceIte, Option.toList_some, sent]

theorem step_idle {client : SocketAddr} (hp : t.sender.progress ≠ .sending) :
    t.step client .send = t := by
  simp only [Transfer.step, Sender.turn, Sender.output, hp, ↓reduceIte, Option.toList_none,
    List.append_nil]

theorem Aligned.send (h : Aligned file t n c ds ks) :
    Aligned file (sent t) n c (ds ++ [n + 1]) ks :=
  { h with
    data := by
      have hp : t.sender.packet = dataPacket file (n + 1) := by
        rw [Sender.packet, h.block, h.chunk]
        rfl
      rw [sent, hp, h.data, List.map_append]
      rfl
    dataWindow := h.dataWindow.push h.ahead.2
    complete := fun hc => nomatch hc }

/-- A data packet arrives. -/
def received (t : Transfer) (packet : List UInt8) (data : List (List UInt8)) : Transfer :=
  { t with
    receiver := t.receiver.receive packet
    data
    acks := t.acks ++ [(t.receiver.receive packet).acknowledgement] }

/-- An acknowledgement arrives. -/
def acknowledged (client : SocketAddr) (t : Transfer) (packet : List UInt8)
    (acks : List (List UInt8)) : Transfer :=
  { t with sender := t.sender.hear client (.datagram packet client), acks }

theorem parse_dataPacket (file : List UInt8) (i : Nat) :
    Receiver.parseTftpData (dataPacket file i) = some (UInt16.ofNat i, chunkAt file (i - 1)) :=
  parse_data _ _

/-- The receiver takes the one block it lacks. -/
theorem Aligned.accept (h : Aligned file t n c ((c + 1) :: ds) ks) :
    Aligned file (received t (dataPacket file (c + 1)) (ds.map (dataPacket file)))
      n (c + 1) ds (ks ++ [c + 1]) := by
  obtain ⟨_, hhi⟩ := h.dataWindow.within (c + 1) List.mem_cons_self
  obtain ⟨hnc, _⟩ := h.ahead
  have hr : t.receiver.receive (dataPacket file (c + 1)) =
      ⟨UInt16.ofNat (c + 1), file.take (tftpBlockSize * (c + 1))⟩ := by
    rw [Receiver.receive, parse_dataPacket, h.last]
    simp only [word_succ, ↓reduceIte, Nat.add_sub_cancel, h.bytes, take_chunk]
  rw [received, hr]
  exact { h with
    last := rfl
    bytes := rfl
    ahead := ⟨by omega, hhi⟩
    data := rfl
    dataWindow := h.dataWindow.tail
    acks := by
      rw [h.acks, List.map_append]
      rfl
    ackWindow := (h.ackWindow.widen (Nat.le_succ c)).push (by omega)
    complete := fun hc => by
      have := (h.complete hc).1
      omega }

/-- A block it has already makes the receiver say so again. -/
theorem Aligned.ignore (h : Aligned file t n c (c :: ds) ks) :
    Aligned file (received t (dataPacket file c) (ds.map (dataPacket file)))
      n c ds (ks ++ [c]) := by
  have hr : t.receiver.receive (dataPacket file c) = t.receiver := by
    rw [Receiver.receive, parse_dataPacket, h.last]
    simp only [word_succ, word_ne_succ, ↓reduceIte]
  rw [received, hr]
  exact { h with
    data := rfl
    dataWindow := h.dataWindow.tail
    acks := by
      rw [h.acks, List.map_append, Receiver.acknowledgement, h.last]
      rfl
    ackWindow := h.ackWindow.push h.ahead.1 }

theorem Aligned.deliverData {i : Nat} (h : Aligned file t n c (i :: ds) ks) :
    ∃ c', Aligned file (received t (dataPacket file i) (ds.map (dataPacket file)))
      n c' ds (ks ++ [c']) := by
  obtain ⟨hlo, hhi⟩ := h.dataWindow.within i List.mem_cons_self
  obtain ⟨hnc, _⟩ := h.ahead
  by_cases hi : i = c + 1
  · subst hi
    exact ⟨c + 1, h.accept⟩
  · have hic : i = c := by omega
    subst hic
    exact ⟨i, h.ignore⟩

/-- What the sender makes of the acknowledgement it waits for. -/
theorem Aligned.hear_ack (h : Aligned file t n c ds ((n + 1) :: ks)) (client : SocketAddr)
    (hw : t.sender.progress = .waiting) :
    t.sender.hear client (.datagram (ackPacket (n + 1)) client) =
      if t.sender.chunk.length < tftpBlockSize then { t.sender with progress := .complete }
      else {
        rest := t.sender.rest.drop tftpBlockSize
        block := t.sender.block + 1
        chunk := t.sender.rest.take tftpBlockSize
        retries := 0
        progress := .sending } := by
  have hack : Sender.acknowledges client t.sender.block
      (.datagram (ackPacket (n + 1)) client) = true := by
    rw [acknowledges_ackPacket, h.block]
  simp only [Sender.hear, hw, hack, ↓reduceIte]

/-- After a short block that ends the transfer. -/
theorem Aligned.finish (h : Aligned file t n c ds ((n + 1) :: ks)) (client : SocketAddr)
    (hw : t.sender.progress = .waiting) (hs : (chunkAt file n).length < tftpBlockSize) :
    Aligned file (acknowledged client t (ackPacket (n + 1)) (ks.map ackPacket)) n c ds ks ∧
      (acknowledged client t (ackPacket (n + 1)) (ks.map ackPacket)).sender.progress =
        .complete := by
  obtain ⟨hlo, hhi⟩ := h.ackWindow.within (n + 1) List.mem_cons_self
  obtain ⟨_, hcn⟩ := h.ahead
  have hs : t.sender.chunk.length < tftpBlockSize := h.chunk ▸ hs
  rw [acknowledged, h.hear_ack client hw, if_pos hs]
  refine ⟨{ h with acks := rfl, ackWindow := h.ackWindow.tail.lower hlo, complete := ?_ }, rfl⟩
  intro _
  exact ⟨by omega, hs⟩

/-- After a full block there is another one, if only an empty one. -/
theorem Aligned.advance (h : Aligned file t n c ds ((n + 1) :: ks)) (client : SocketAddr)
    (hw : t.sender.progress = .waiting) (hs : ¬ (chunkAt file n).length < tftpBlockSize) :
    Aligned file (acknowledged client t (ackPacket (n + 1)) (ks.map ackPacket)) (n + 1) c ds ks ∧
      (acknowledged client t (ackPacket (n + 1)) (ks.map ackPacket)).sender.progress =
        .sending := by
  obtain ⟨_, hhi⟩ := h.ackWindow.within (n + 1) List.mem_cons_self
  obtain ⟨_, hcn⟩ := h.ahead
  have hs' : ¬ t.sender.chunk.length < tftpBlockSize := h.chunk ▸ hs
  rw [acknowledged, h.hear_ack client hw, if_neg hs']
  refine ⟨{ h with
    block := by rw [h.block, word_succ]
    chunk := by rw [h.rest]; rfl
    rest := by rw [h.rest, List.drop_drop, ← Nat.mul_succ]
    full := full_chunk h.full hs
    ahead := ⟨by omega, by omega⟩
    dataWindow := h.dataWindow.widen (Nat.le_succ _)
    acks := rfl
    ackWindow := h.ackWindow.tail
    complete := fun hc => nomatch hc }, rfl⟩

theorem Aligned.deliverAck {i : Nat} (h : Aligned file t n c ds (i :: ks)) (client : SocketAddr)
    (hw : t.sender.progress = .waiting) :
    ∃ n', Aligned file (acknowledged client t (ackPacket i) (ks.map ackPacket)) n' c ds ks := by
  obtain ⟨hlo, hhi⟩ := h.ackWindow.within i List.mem_cons_self
  obtain ⟨_, hcn⟩ := h.ahead
  by_cases hi : i = n + 1
  · subst hi
    by_cases hs : (chunkAt file n).length < tftpBlockSize
    · exact ⟨n, (h.finish client hw hs).1⟩
    · exact ⟨n + 1, (h.advance client hw hs).1⟩
  · have hin : i = n := by omega
    have hack : Sender.acknowledges client t.sender.block
        (.datagram (ackPacket i) client) = false := by
      rw [← Bool.not_eq_true, acknowledges_ackPacket, h.block, hin]
      exact word_ne_succ n
    have hk : Aligned file { t with acks := ks.map ackPacket } n c ds ks :=
      { h with acks := rfl, ackWindow := h.ackWindow.tail.lower hlo }
    exact ⟨n, hk.hear_other hack⟩

theorem step_aligned (client : SocketAddr) (e : TransferEvent) (h : Aligned file t n c ds ks) :
    ∃ n c ds ks, Aligned file (Transfer.step client t e) n c ds ks := by
  cases e with
  | send =>
    by_cases hp : t.sender.progress = .sending
    · simp only [step_send hp]
      exact ⟨_, _, _, _, h.send⟩
    · simp only [step_idle hp]
      exact ⟨_, _, _, _, h⟩
  | sendFails =>
    simp only [Transfer.step, Sender.turn]
    split
    · exact ⟨_, _, _, _, h.retry (by decide)⟩
    · exact ⟨_, _, _, _, h⟩
  | readFails =>
    simp only [Transfer.step, Sender.turn]
    split
    · exact ⟨_, _, _, _, { h.retry (r := t.sender.retries) (p := .aborted) (by decide) with }⟩
    · exact ⟨_, _, _, _, { h with }⟩
  | hear e =>
    rw [Transfer.step]
    split
    · next hf => exact ⟨_, _, _, _, h.hear_other (foreign_no_ack hf _)⟩
    · exact ⟨_, _, _, _, h⟩
  | deliverData =>
    cases ds with
    | nil =>
      have hd : t.data = [] := h.data
      simp only [Transfer.step, hd]
      exact ⟨_, _, _, _, h⟩
    | cons i ds =>
      have hd : t.data = dataPacket file i :: ds.map (dataPacket file) := h.data
      obtain ⟨c', hc⟩ := h.deliverData
      simp only [Transfer.step, hd]
      exact ⟨_, _, _, _, hc⟩
  | deliverAck =>
    cases ks with
    | nil =>
      have hd : t.acks = [] := h.acks
      simp only [Transfer.step, hd]
      exact ⟨_, _, _, _, h⟩
    | cons i ks =>
      have hd : t.acks = ackPacket i :: ks.map ackPacket := h.acks
      simp only [Transfer.step, hd]
      split
      · next hw =>
        obtain ⟨n', hn⟩ := h.deliverAck client hw
        exact ⟨_, _, _, _, hn⟩
      · exact ⟨_, _, _, _, h⟩
  | harmData m =>
    refine ⟨n, c, suffer ds m, ks, { h with data := ?_, dataWindow := h.dataWindow.suffer m }⟩
    rw [Transfer.step, h.data, suffer_map]
  | harmAcks m =>
    refine ⟨n, c, ds, suffer ks m, { h with acks := ?_, ackWindow := h.ackWindow.suffer m }⟩
    rw [Transfer.step, h.acks, suffer_map]

theorem run_aligned (client : SocketAddr) (file : List UInt8) (es : List TransferEvent) :
    ∃ n c ds ks, Aligned file (Transfer.run client file es) n c ds ks := by
  refine Run.exec_invariant (I := fun t => ∃ n c ds ks, Aligned file t n c ds ks) ?_
    ⟨0, 0, [], [], aligned_begin file⟩ es
  intro t e ht
  obtain ⟨n, c, ds, ks, h⟩ := ht
  exact step_aligned client e h

theorem run_received (client : SocketAddr) (file : List UInt8) (es : List TransferEvent) :
    (Transfer.run client file es).receiver.bytes <+: file := by
  obtain ⟨n, c, ds, ks, h⟩ := run_aligned client file es
  rw [h.bytes]
  exact List.take_prefix _ _

/-- A transfer the server takes for complete has brought the whole file over. -/
theorem run_complete {client : SocketAddr} {file : List UInt8} {es : List TransferEvent}
    (hc : (Transfer.run client file es).sender.progress = .complete) :
    (Transfer.run client file es).receiver.bytes = file := by
  obtain ⟨n, c, ds, ks, h⟩ := run_aligned client file es
  obtain ⟨rfl, hs⟩ := h.complete hc
  rw [h.chunk] at hs
  rw [h.bytes]
  exact List.take_of_length_le (short_chunk hs)

/-- Whatever happens to packets and timers, the client has a prefix of the file at every
moment, and the whole file once the server takes the transfer for complete. -/
theorem transfer_correct (client : SocketAddr) (file : List UInt8) (es : List TransferEvent) :
    (Transfer.run client file es).receiver.bytes <+: file ∧
      ((Transfer.run client file es).sender.progress = .complete →
        (Transfer.run client file es).receiver.bytes = file) :=
  ⟨run_received client file es, run_complete⟩

/-- One block sent, delivered and acknowledged. -/
def round : List TransferEvent := [.send, .deliverData, .deliverAck]

theorem exec_round (client : SocketAddr) (h : Aligned file t n n [] [])
    (hp : t.sender.progress = .sending) :
    Run.exec (Transfer.step client) t round =
      acknowledged client (received (sent t) (dataPacket file (n + 1)) []) (ackPacket (n + 1)) [] := by
  have h1 := h.send
  have hd : (sent t).data = [dataPacket file (n + 1)] := h1.data
  have h2 : Aligned file (received (sent t) (dataPacket file (n + 1)) []) n (n + 1) [] [n + 1] :=
    h1.accept
  have ha : (received (sent t) (dataPacket file (n + 1)) []).acks = [ackPacket (n + 1)] := h2.acks
  have hw : (received (sent t) (dataPacket file (n + 1)) []).sender.progress = .waiting := rfl
  have e1 : Transfer.step client t .send = sent t := step_send hp
  have e2 : Transfer.step client (sent t) .deliverData =
      received (sent t) (dataPacket file (n + 1)) [] := by
    simp only [Transfer.step, hd, received]
  have e3 : Transfer.step client (received (sent t) (dataPacket file (n + 1)) []) .deliverAck =
      acknowledged client (received (sent t) (dataPacket file (n + 1)) []) (ackPacket (n + 1)) [] := by
    simp only [Transfer.step, Sender.turn, ha, hw, ↓reduceIte, acknowledged]
  simp only [round, Run.exec_cons, Run.exec_nil, e1, e2, e3]

/-- So many blocks with nothing lost, repeated or reordered. -/
def lossless (n : Nat) : List TransferEvent := (List.replicate n round).flatten

theorem lossless_succ (n : Nat) : lossless (n + 1) = round ++ lossless n := rfl

theorem rounds_complete (client : SocketAddr) (file : List UInt8) (m : Nat) :
    ∀ t n, Aligned file t n n [] [] → t.sender.progress = .sending →
      file.length < tftpBlockSize * (n + m) →
      ∃ k, (Run.exec (Transfer.step client) t (lossless k)).sender.progress = .complete := by
  induction m with
  | zero =>
    intro t n h _ hl
    exact absurd h.full (Nat.not_le.mpr hl)
  | succ m ih =>
    intro t n h hp hl
    have h2 : Aligned file (received (sent t) (dataPacket file (n + 1)) []) n (n + 1) [] [n + 1] :=
      h.send.accept
    have he := exec_round client h hp
    by_cases hs : (chunkAt file n).length < tftpBlockSize
    · obtain ⟨_, hc⟩ := h2.finish client rfl hs
      refine ⟨1, ?_⟩
      rw [lossless_succ, Run.exec_append, he]
      exact hc
    · obtain ⟨h3, hp3⟩ := h2.advance client rfl hs
      obtain ⟨k, hk⟩ := ih _ (n + 1) h3 hp3 (by rw [Nat.add_right_comm]; exact hl)
      refine ⟨k + 1, ?_⟩
      rw [lossless_succ, Run.exec_append, he]
      exact hk

/-- With nothing lost the server gets to the end of every file. -/
theorem lossless_completes (client : SocketAddr) (file : List UInt8) :
    ∃ n, (Transfer.run client file (lossless n)).sender.progress = .complete := by
  apply rounds_complete client file (file.length + 1) _ 0 (aligned_begin file) rfl
  have hpos : 1 ≤ tftpBlockSize := by decide
  have := Nat.mul_le_mul_right (0 + (file.length + 1)) hpos
  omega

end Hivebus.Proofs.TftpTransfer
