import Hivebus.Pxeboot.Sessions
import Hivebus.Proofs.BootFile
import Hivebus.Proofs.Requests
import Hivebus.Proofs.TftpTransfer

namespace Hivebus.Proofs.Sessions
open Lib Proto Pxeboot BootFile Requests TftpTransfer

/-- The blocks a sender still has to get through, the one it is at among them. -/
def left (s : Sender) : Nat :=
  if s.chunk.length < tftpBlockSize then 1 else s.rest.length / tftpBlockSize + 2

/-- The packets a sender can still send before it is done or gives up. -/
def budget (s : Sender) : Nat :=
  match s.progress with
  | .sending => tftpMaxRetries * left s - s.retries
  | .waiting => tftpMaxRetries * left s - (s.retries + 1)
  | .complete | .aborted => 0

/-- The sends and the waits that can still come. -/
def turnsLeft (s : Sender) : Nat :=
  match s.progress with
  | .waiting => 2 * budget s + 1
  | .sending | .complete | .aborted => 2 * budget s

def Over (s : Sender) : Prop := s.progress = .complete ∨ s.progress = .aborted

/-- A sender that goes on has retries left. -/
def Trying (s : Sender) : Prop := ¬ Over s → s.retries < tftpMaxRetries

theorem left_pos (s : Sender) : 1 ≤ left s := by
  unfold left
  split
  · exact Nat.le_refl 1
  · exact Nat.le_add_left 1 _

/-- Behind a full block there is one block less to get through. -/
theorem left_next {s : Sender} (h : ¬ s.chunk.length < tftpBlockSize) (n : UInt16) (r : Nat)
    (p : Progress) : left ⟨s.rest.drop tftpBlockSize, n, s.rest.take tftpBlockSize, r, p⟩ + 1 =
      left s := by
  have hs : left s = s.rest.length / 512 + 2 := if_neg h
  have hn : left ⟨s.rest.drop tftpBlockSize, n, s.rest.take tftpBlockSize, r, p⟩ =
      if (s.rest.take 512).length < 512 then 1 else (s.rest.drop 512).length / 512 + 2 := rfl
  rw [hs, hn, List.length_take, List.length_drop]
  split <;> omega

theorem left_begin (file : List UInt8) :
    left (.begin file) = file.length / tftpBlockSize + 1 := by
  have hn : left (.begin file) =
      if (file.take 512).length < 512 then 1 else (file.drop 512).length / 512 + 2 := rfl
  have hsize : tftpBlockSize = 512 := rfl
  rw [hn, hsize, List.length_take, List.length_drop]
  split <;> omega

/-- What a wait comes to: the end, the next block with all retries, or one retry less. -/
theorem hear_cases (client : SocketAddr) {s : Sender} (h : Sender.Heard)
    (hw : s.progress = .waiting) :
    Over (s.hear client h) ∨
    (¬ s.chunk.length < tftpBlockSize ∧ s.hear client h =
      ⟨s.rest.drop tftpBlockSize, s.block + 1, s.rest.take tftpBlockSize, 0, .sending⟩) ∨
    (s.retries + 1 < tftpMaxRetries ∧
      s.hear client h = { s with retries := s.retries + 1, progress := .sending }) := by
  simp only [Sender.hear, hw]
  split
  · split
    · exact .inl (.inl rfl)
    · next hfull => exact .inr (.inl ⟨hfull, rfl⟩)
  · split
    · exact .inl (.inr rfl)
    · next hr => exact .inr (.inr ⟨Nat.not_le.mp hr, rfl⟩)

theorem budget_over {s : Sender} (h : Over s) : budget s = 0 ∧ turnsLeft s = 0 := by
  rcases h with h | h <;> simp [budget, turnsLeft, h]

theorem hear_waiting (client : SocketAddr) {s : Sender} (h : Sender.Heard) (ht : Trying s)
    (hw : s.progress = .waiting) :
    Trying (s.hear client h) ∧ budget (s.hear client h) ≤ budget s ∧
      turnsLeft (s.hear client h) + 1 ≤ turnsLeft s := by
  have hr : s.retries < tftpMaxRetries := ht (by simp [Over, hw])
  have hpos := left_pos s
  have hmax : tftpMaxRetries = 5 := rfl
  rw [hmax] at hr
  rcases hear_cases client h hw with ho | ⟨hfull, he⟩ | ⟨hlt, he⟩
  · obtain ⟨hb, hl⟩ := budget_over ho
    rw [hb, hl]
    refine ⟨fun hn => absurd ho hn, Nat.zero_le _, ?_⟩
    simp [turnsLeft, hw]
  · have hnext := left_next hfull (s.block + 1) 0 .sending
    rw [he]
    refine ⟨fun _ => Nat.succ_pos 4, ?_, ?_⟩
    · simp only [budget, hw, hmax]
      omega
    · simp only [turnsLeft, budget, hw, hmax]
      omega
  · have hsame : left { s with retries := s.retries + 1, progress := .sending } = left s := rfl
    rw [he]
    refine ⟨fun _ => hlt, ?_, ?_⟩
    · simp only [budget, hw, hsame, hmax]
      omega
    · simp only [turnsLeft, budget, hw, hsame, hmax]
      omega

/-- A packet goes out. -/
def sends (s : Sender) (e : Sender.Event) : Bool := (s.output e).isSome

/-- The server gets on with a transfer: a packet goes out or cannot, a read fails, or a wait
ends. -/
def turns (s : Sender) : Sender.Event → Bool
  | .send | .sendFails => s.progress = .sending
  | .readFails => s.atRead
  | .hear _ => s.progress = .waiting

/-- What an event comes to: nothing, a packet to be acknowledged, the end, or what a wait
comes to. -/
theorem turn_sender (client : SocketAddr) (s : Sender) (e : Sender.Event) :
    (s.turn client e = s ∧ sends s e = false ∧ turns s e = false) ∨
    (s.progress = .sending ∧
      (s.turn client e = { s with progress := .waiting } ∨ Over (s.turn client e))) ∨
    (s.progress = .waiting ∧ sends s e = false ∧ ∃ h, s.turn client e = s.hear client h) := by
  cases e with
  | send =>
    by_cases hp : s.progress = .sending
    · exact .inr (.inl ⟨hp, .inl (by simp [Sender.turn, hp])⟩)
    · exact .inl (by simp [Sender.turn, sends, Sender.output, turns, hp])
  | sendFails =>
    by_cases hp : s.progress = .sending
    · exact .inr (.inl ⟨hp, .inr (.inr (by simp [Sender.turn, hp]))⟩)
    · exact .inl (by simp [Sender.turn, sends, Sender.output, turns, hp])
  | readFails =>
    by_cases hr : s.atRead = true
    · have hp : s.progress = .sending := by
        simp only [Sender.atRead, Bool.and_eq_true, decide_eq_true_eq] at hr
        exact hr.1
      exact .inr (.inl ⟨hp, .inr (.inr (by simp [Sender.turn, hr]))⟩)
    · exact .inl (by simp [Sender.turn, sends, Sender.output, turns, hr])
  | hear h =>
    by_cases hp : s.progress = .waiting
    · exact .inr (.inr ⟨hp, rfl, h, rfl⟩)
    · refine .inl ⟨?_, rfl, by simp [turns, hp]⟩
      rw [Sender.turn, Sender.hear]
      split
      · next hw => exact absurd hw hp
      · rfl

/-- Every packet and every turn is taken from what is left. -/
theorem turn_spends {client : SocketAddr} {s : Sender} {e : Sender.Event} (ht : Trying s) :
    Trying (s.turn client e) ∧
      (sends s e).toNat + budget (s.turn client e) ≤ budget s ∧
      (turns s e).toNat + turnsLeft (s.turn client e) ≤ turnsLeft s := by
  have hmax : tftpMaxRetries = 5 := rfl
  have hpos := left_pos s
  have hsends := Bool.toNat_le (sends s e)
  have hturns := Bool.toNat_le (turns s e)
  rcases turn_sender client s e with ⟨hs, h1, h2⟩ | ⟨hp, hs⟩ | ⟨hw, h1, h, hs⟩
  · rw [hs, h1, h2]
    simpa using ht
  · have hr : s.retries < tftpMaxRetries := ht (by simp [Over, hp])
    rw [hmax] at hr
    rcases hs with hs | hover
    · have hsame : left { s with progress := .waiting } = left s := rfl
      rw [hs]
      refine ⟨fun _ => hr, ?_, ?_⟩
      · simp only [budget, hp, hsame, hmax]
        omega
      · simp only [turnsLeft, budget, hp, hsame, hmax]
        omega
    · obtain ⟨hb, hl⟩ := budget_over hover
      rw [hb, hl]
      refine ⟨fun hn => absurd hover hn, ?_, ?_⟩
      · simp only [budget, hp, hmax]
        omega
      · simp only [turnsLeft, budget, hp, hmax]
        omega
  · obtain ⟨h2, h3, h4⟩ := hear_waiting client h ht hw
    rw [hs, h1]
    exact ⟨h2, by simpa using h3, by omega⟩

theorem begin_trying (file : List UInt8) : Trying (Sender.begin file) := fun _ => Nat.succ_pos 4

theorem over_of_no_turns {s : Sender} (ht : Trying s) (h : turnsLeft s = 0) : Over s := by
  have hmax : tftpMaxRetries = 5 := rfl
  have hpos := left_pos s
  unfold Over
  cases hp : s.progress with
  | complete => exact .inl rfl
  | aborted => exact .inr rfl
  | waiting =>
    simp [turnsLeft, hp] at h
  | sending =>
    have hr : s.retries < tftpMaxRetries := ht (by simp [Over, hp])
    rw [hmax] at hr
    simp only [turnsLeft, budget, hp, hmax] at h
    omega

/-- What is over stays as it is, and nothing more is sent. -/
theorem turn_over {s : Sender} (h : Over s) (client : SocketAddr) (e : Sender.Event) :
    s.turn client e = s ∧ s.output e = none := by
  have hsend : s.progress ≠ .sending := by
    rcases h with h | h <;> simp [h]
  have hwait : s.progress ≠ .waiting := by
    rcases h with h | h <;> simp [h]
  rcases turn_sender client s e with ⟨hs, hn, _⟩ | ⟨hp, _⟩ | ⟨hp, _⟩
  · exact ⟨hs, by simpa [sends] using hn⟩
  · exact absurd hp hsend
  · exact absurd hp hwait

/-- Every transfer ends, whatever comes or does not come to its socket, from its client or
anybody else, and whether its reads and sends work: the server sends no more than five packets
a block, its own clock gets it on as long as it is not done, after ten turns a block it is,
and then it is for good. -/
theorem transfer_ends (client : SocketAddr) (file : List UInt8) (es : List Sender.Event) :
    let s := Run.exec (Sender.turn client) (.begin file) es
    Run.count (Sender.turn client) sends (.begin file) es ≤
      tftpMaxRetries * (file.length / tftpBlockSize + 1) ∧
    (Over s ∨ turns s .send = true ∨ turns s (.hear .timeout) = true) ∧
    (2 * (tftpMaxRetries * (file.length / tftpBlockSize + 1)) ≤
      Run.count (Sender.turn client) turns (.begin file) es → Over s) ∧
    (Over s → ∀ e, s.turn client e = s ∧ s.output e = none) := by
  have hinv : ∀ (s : Sender) e, Trying s → Trying (s.turn client e) :=
    fun _ _ h => (turn_spends h).1
  have hsends := Run.count_add_le (p := sends) (m := budget) hinv
    (fun _ _ h => (turn_spends h).2.1) (begin_trying file) es
  have hturns := Run.count_add_le (p := turns) (m := turnsLeft) hinv
    (fun _ _ h => (turn_spends h).2.2) (begin_trying file) es
  have htrying := Run.exec_invariant hinv (begin_trying file) es
  have hbudget : budget (Sender.begin file) =
      tftpMaxRetries * (file.length / tftpBlockSize + 1) := by
    rw [← left_begin]
    rfl
  have hstart : turnsLeft (Sender.begin file) = 2 * budget (Sender.begin file) := rfl
  intro s
  refine ⟨?_, ?_, ?_, fun h => turn_over h client⟩
  · rw [← hbudget]
    exact Nat.le_trans (Nat.le_add_right _ _) hsends
  · cases hp : s.progress with
    | sending => exact .inr (.inl (by simp [turns, hp]))
    | waiting => exact .inr (.inr (by simp [turns, hp]))
    | complete => exact .inl (.inl hp)
    | aborted => exact .inl (.inr hp)
  · intro h
    rw [← hbudget, ← hstart] at h
    exact over_of_no_turns htrying (by simp only [s]; omega)

/-- The steps of one transfer among all that happens on the server. -/
def own (i : Nat) : TftpEvent → Option TransferEvent
  | .datagram _ _ _ _ => none
  | .session j e => if j = i then some e else none

/-- A read request in one of the two modes, and what it asks for. -/
def Wants (bytes : List UInt8) (requested : String) : Prop :=
  ∃ mode, IsRrq (bytes.take tftpBufferSize) requested mode ∧
    (toAsciiLowercase mode = "octet" ∨ toAsciiLowercase mode = "netascii")

/-- The path starts at the root of the file system or goes up somewhere. -/
def Leaves (requested : String) : Prop :=
  requested.toList.head? = some '/' ∨ ['.', '.'] ∈ names requested

/-- What becomes of a datagram. -/
inductive Reply where
  | nothing
  | error (packet : List UInt8)
  | transfer (file : List UInt8)

/-- What a datagram is to become, and for whom: an error that tells what is wrong with it,
the file it asks for, or nothing, when there is no socket to answer a read request from. -/
inductive Calls (root : List Component) : TftpEvent → SocketAddr × Reply → Prop
  | unsupported (client bytes openFile binds)
      (h : ∀ requested mode, ¬ IsRrq (bytes.take tftpBufferSize) requested mode) :
      Calls root (.datagram client bytes openFile binds)
        (client, .error (buildTftpError 4 "unsupported operation"))
  | mode (client bytes openFile binds requested mode)
      (h : IsRrq (bytes.take tftpBufferSize) requested mode)
      (hoctet : toAsciiLowercase mode ≠ "octet") (hnetascii : toAsciiLowercase mode ≠ "netascii") :
      Calls root (.datagram client bytes openFile binds)
        (client, .error (buildTftpError 0 "unsupported transfer mode"))
  | path (client bytes openFile requested) (h : Wants bytes requested) (hleaves : Leaves requested) :
      Calls root (.datagram client bytes openFile true)
        (client, .error (buildTftpError 2 "invalid path"))
  | missing (client bytes openFile requested) (h : Wants bytes requested)
      (hstays : ¬ Leaves requested)
      (hnone : openFile (root ++ (names requested).map .normal) = none) :
      Calls root (.datagram client bytes openFile true)
        (client, .error (buildTftpError 1 "file not found"))
  | file (client bytes openFile requested file) (h : Wants bytes requested)
      (hstays : ¬ Leaves requested)
      (hfile : openFile (root ++ (names requested).map .normal) = some file) :
      Calls root (.datagram client bytes openFile true) (client, .transfer file)
  | noSocket (client bytes openFile requested) (h : Wants bytes requested) :
      Calls root (.datagram client bytes openFile false) (client, .nothing)

/-- The server with a reply more. -/
def take (w : TftpServer) (client : SocketAddr) : Reply → TftpServer
  | .nothing => w
  | .error packet => { w with errors := w.errors ++ [(client, packet)] }
  | .transfer file => { w with sessions := w.sessions ++ [⟨client, .begin file⟩] }

/-- Every datagram becomes what it calls for. -/
theorem step_datagram (root : List Component) (client : SocketAddr) (bytes : List UInt8)
    (openFile : List Component → Option (List UInt8)) (binds : Bool) :
    ∃ reply, Calls root (.datagram client bytes openFile binds) (client, reply) ∧
      ∀ w : TftpServer, w.step root (.datagram client bytes openFile binds) = take w client reply := by
  simp only [TftpServer.step, tftpServer]
  cases hparse : parseTftpRrq (bytes.take tftpBufferSize) with
  | none =>
    refine ⟨_, .unsupported client bytes openFile binds ?_, fun w => rfl⟩
    intro requested mode hrrq
    rw [parse_complete hrrq] at hparse
    cases hparse
  | some read =>
    obtain ⟨requested, lower⟩ := read
    obtain ⟨mode, hrrq, rfl⟩ := parse_sound hparse
    by_cases hmode : toAsciiLowercase mode ≠ "octet" ∧ toAsciiLowercase mode ≠ "netascii"
    · simp only [if_pos hmode]
      exact ⟨_, .mode client bytes openFile binds requested mode hrrq hmode.1 hmode.2, fun w => rfl⟩
    · have hwants : Wants bytes requested := by
        rw [not_and_or, not_not, not_not] at hmode
        exact ⟨mode, hrrq, hmode⟩
      simp only [if_neg hmode]
      cases binds with
      | false => exact ⟨_, .noSocket client bytes openFile requested hwants, fun w => rfl⟩
      | true =>
        by_cases hleaves : Leaves requested
        · have hpath : sanitizeTftpPath root requested = none := by
            rw [sanitizeTftpPath_eq]
            exact if_pos hleaves
          simp only [openTftpRead, hpath, ↓reduceIte]
          exact ⟨_, .path client bytes openFile requested hwants hleaves, fun w => rfl⟩
        · have hpath : sanitizeTftpPath root requested =
              some (root ++ (names requested).map .normal) := by
            rw [sanitizeTftpPath_eq]
            exact if_neg hleaves
          simp only [openTftpRead, hpath, ↓reduceIte]
          cases hopen : openFile (root ++ (names requested).map .normal) with
          | none =>
            exact ⟨_, .missing client bytes openFile requested hwants hleaves hopen, fun w => rfl⟩
          | some file =>
            exact ⟨_, .file client bytes openFile requested file hwants hleaves hopen,
              fun w => rfl⟩

/-- A datagram, as opposed to a step of a transfer. -/
def asks : TftpEvent → Bool
  | .datagram _ _ _ _ => true
  | .session _ _ => false

/-- The error a client is sent. -/
def errorTo : SocketAddr × Reply → Option (SocketAddr × List UInt8)
  | (client, .error packet) => some (client, packet)
  | _ => none

/-- The client a transfer is for. -/
def transferTo : SocketAddr × Reply → Option SocketAddr
  | (client, .transfer _) => some client
  | _ => none

/-- The replies are what the datagrams call for, one by one and in order, and all the server
does is to send the errors and to start the transfers among them. -/
structure Replied (root : List Component) (es : List TftpEvent) (w : TftpServer)
    (replies : List (SocketAddr × Reply)) : Prop where
  calls : List.Forall₂ (Calls root) (es.filter asks) replies
  errors : w.errors = replies.filterMap errorTo
  sessions : w.sessions.map Session.client = replies.filterMap transferTo

theorem Replied.step {root : List Component} {es : List TftpEvent} {w : TftpServer}
    {replies : List (SocketAddr × Reply)} (h : Replied root es w replies) (e : TftpEvent) :
    ∃ replies', Replied root (es ++ [e]) (w.step root e) replies' := by
  cases e with
  | session i e =>
    refine ⟨replies, ?_, h.errors, ?_⟩
    · rw [List.filter_append]
      simpa [asks] using h.calls
    · rw [← h.sessions]
      refine List.ext_getElem? ?_
      intro j
      simp only [TftpServer.step, List.getElem?_map, List.getElem?_modify]
      split
      · cases w.sessions[j]? <;> rfl
      · rw [id_map']
  | datagram client bytes openFile binds =>
    obtain ⟨reply, hcalls, hstep⟩ := step_datagram root client bytes openFile binds
    refine ⟨replies ++ [(client, reply)], ?_, ?_, ?_⟩
    · rw [List.filter_append]
      exact List.rel_append h.calls (.cons hcalls .nil)
    · rw [hstep, List.filterMap_append, ← h.errors]
      cases reply <;> simp [take, errorTo]
    · rw [hstep, List.filterMap_append, ← h.sessions]
      cases reply <;> simp [take, transferTo]

end Hivebus.Proofs.Sessions
