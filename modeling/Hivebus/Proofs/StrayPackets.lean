import Hivebus.Pxeboot.Tftp

namespace Hivebus.Proofs.StrayPackets
open Lib Proto Pxeboot

/-- What `serve_tftp_read` is fed while it waits, errors of its socket apart. -/
inductive Arrival where
  | timeout
  | datagram (bytes : List UInt8) (source : SocketAddr)

def Arrival.heard : Arrival → Sender.Heard
  | .timeout => .timeout
  | .datagram bytes source => .datagram bytes source

/-- A transfer with all packets it has sent, and the timeouts since it came to its block. -/
structure Served where
  sender : Sender
  sent : List (List UInt8)
  timeouts : Nat

namespace Served

/-- The top of the inner loop: the packet goes out and the wait begins. -/
def send (v : Served) : Served :=
  if v.sender.progress = .sending then
    { v with
      sender := { v.sender with progress := .waiting }
      sent := v.sent ++ [v.sender.packet] }
  else v

def begin (file : List UInt8) : Served := send ⟨.begin file, [], 0⟩

def counted (client : SocketAddr) (v : Served) (e : Arrival) : Nat :=
  match v.sender.progress, e with
  | .waiting, .timeout => v.timeouts + 1
  | .waiting, .datagram _ _ =>
    if Sender.acknowledges client v.sender.block e.heard then 0 else v.timeouts
  | _, _ => v.timeouts

def step (client : SocketAddr) (v : Served) (e : Arrival) : Served :=
  send ⟨v.sender.hear client e.heard, v.sent, v.counted client e⟩

/-- A datagram that is not the acknowledgement the transfer waits for. -/
def stray (client : SocketAddr) (v : Served) : Arrival → Bool
  | .timeout => false
  | .datagram bytes source =>
    !Sender.acknowledges client v.sender.block (.datagram bytes source)

end Served

/-- The second list is the first with datagrams put in that are not the acknowledgement
awaited when they come. -/
inductive Inserted (client : SocketAddr) : Served → List Arrival → List Arrival → Prop where
  | nil (v : Served) : Inserted client v [] []
  | keep (v : Served) (e : Arrival) (es es' : List Arrival) :
      Inserted client (v.step client e) es es' → Inserted client v (e :: es) (e :: es')
  | stray (v : Served) (e : Arrival) (es es' : List Arrival) : v.stray client e = true →
      Inserted client (v.step client e) es es' → Inserted client v es (e :: es')

/-- An acknowledgement by the client of some other block than the one awaited. -/
def Duplicate (client : SocketAddr) (v : Served) (e : Arrival) : Prop :=
  ∃ block, block ≠ v.sender.block ∧ Sender.acknowledges client block e.heard = true

/-- Nothing that was put in shows: the packets and the end of the transfer are those of the
run without it, it is given up only after so many timeouts on a block, and no acknowledgement
of another block makes it send. -/
structure Undisturbed (client : SocketAddr) (file : List UInt8) (es' : List Arrival) : Prop where
  same : ∀ es, Inserted client (.begin file) es es' →
    (Run.exec (Served.step client) (.begin file) es).sent =
        (Run.exec (Served.step client) (.begin file) es').sent ∧
      (Run.exec (Served.step client) (.begin file) es).sender.progress =
        (Run.exec (Served.step client) (.begin file) es').sender.progress
  patient : (Run.exec (Served.step client) (.begin file) es').sender.progress = .aborted →
    tftpMaxRetries ≤ (Run.exec (Served.step client) (.begin file) es').timeouts
  deaf : Run.Along (Served.step client)
    (fun v e => Duplicate client v e → (v.step client e).sent = v.sent) (.begin file) es'

/-- While the transfer waits, the only datagram that comes is the one it waits for. -/
def Quiet (client : SocketAddr) (v : Served) (e : Arrival) : Prop :=
  v.sender.progress = .waiting → v.stray client e = false

theorem counted_le (client : SocketAddr) (e : Arrival) (v : Served)
    (hw : v.sender.progress = .waiting) : v.counted client e ≤ v.timeouts + 1 := by
  cases e with
  | timeout => simp [Served.counted, hw]
  | datagram bytes source =>
    simp only [Served.counted, hw]
    split <;> omega

section Step

variable {client : SocketAddr} {v : Served} {e : Arrival}

theorem step_over (hs : v.sender.progress ≠ .sending) (hw : v.sender.progress ≠ .waiting) :
    v.step client e = v := by
  obtain ⟨sender, sent, timeouts⟩ := v
  simp only at hs hw
  cases hp : sender.progress with
  | sending => exact absurd hp hs
  | waiting => exact absurd hp hw
  | complete => simp [Served.step, Served.send, Served.counted, Sender.hear, hp]
  | aborted => simp [Served.step, Served.send, Served.counted, Sender.hear, hp]

variable (hw : v.sender.progress = .waiting)

include hw

theorem step_complete (ha : Sender.acknowledges client v.sender.block e.heard = true)
    (hc : v.sender.chunk.length < tftpBlockSize) :
    (v.step client e).sent = v.sent ∧ (v.step client e).sender.progress = .complete := by
  simp [Served.step, Served.send, Sender.hear, hw, ha, hc]

/-- The next block goes out at once. -/
theorem step_advance (ha : Sender.acknowledges client v.sender.block e.heard = true)
    (hc : ¬ v.sender.chunk.length < tftpBlockSize) :
    v.step client e = {
      sender := {
        rest := v.sender.rest.drop tftpBlockSize
        block := v.sender.block + 1
        chunk := v.sender.rest.take tftpBlockSize
        retries := 0
        progress := .waiting }
      sent := v.sent ++ [buildTftpData (v.sender.block + 1) (v.sender.rest.take tftpBlockSize)]
      timeouts := 0 } := by
  have ht : v.counted client e = 0 := by
    cases e with
    | timeout => cases ha
    | datagram bytes source => simp [Served.counted, hw, ha]
  simp [Served.step, Served.send, Sender.hear, Sender.packet, hw, ha, hc, ht]

theorem step_give_up (ha : Sender.acknowledges client v.sender.block e.heard = false)
    (hr : tftpMaxRetries ≤ v.sender.retries + 1) :
    v.step client e = {
      sender := { v.sender with retries := v.sender.retries + 1, progress := .aborted }
      sent := v.sent
      timeouts := v.counted client e } := by
  simp [Served.step, Served.send, Sender.hear, hw, ha, hr]

/-- Whatever else comes, the packet goes out once more. -/
theorem step_resend (ha : Sender.acknowledges client v.sender.block e.heard = false)
    (hr : ¬ tftpMaxRetries ≤ v.sender.retries + 1) :
    v.step client e = {
      sender := { v.sender with retries := v.sender.retries + 1, progress := .waiting }
      sent := v.sent ++ [v.sender.packet]
      timeouts := v.counted client e } := by
  simp [Served.step, Served.send, Sender.hear, Sender.packet, hw, ha, hr]

/-- A stray datagram is no timeout. -/
theorem counted_stray (hs : v.stray client e = true) : v.counted client e = v.timeouts := by
  cases e with
  | timeout => cases hs
  | datagram bytes source =>
    simp only [Served.stray, Bool.not_eq_true'] at hs
    simp [Served.counted, hw, Arrival.heard, hs]

end Step

theorem no_ack_of_stray {client : SocketAddr} {v : Served} {e : Arrival}
    (h : v.stray client e = true) : Sender.acknowledges client v.sender.block e.heard = false := by
  cases e with
  | timeout => rfl
  | datagram bytes source => simpa [Served.stray, Arrival.heard] using h

/-- What a transfer sends next depends on the sender alone. -/
theorem step_sender (client : SocketAddr) (s : Sender) (e : Arrival) :
    ∃ s' ps, ∀ sent timeouts, ∃ n, Served.step client ⟨s, sent, timeouts⟩ e = ⟨s', sent ++ ps, n⟩ := by
  by_cases hp : (s.hear client e.heard).progress = .sending
  · refine ⟨{ s.hear client e.heard with progress := .waiting }, [(s.hear client e.heard).packet], ?_⟩
    intro sent timeouts
    exact ⟨_, if_pos hp⟩
  · refine ⟨s.hear client e.heard, [], ?_⟩
    intro sent timeouts
    rw [List.append_nil]
    exact ⟨_, if_neg hp⟩

theorem exec_sender (client : SocketAddr) (es : List Arrival) (s : Sender) :
    ∃ ps, ∀ sent timeouts,
      (Run.exec (Served.step client) ⟨s, sent, timeouts⟩ es).sent = sent ++ ps := by
  induction es generalizing s with
  | nil => exact ⟨[], fun sent _ => (List.append_nil sent).symm⟩
  | cons e es ih =>
    obtain ⟨s', ps, hstep⟩ := step_sender client s e
    obtain ⟨qs, hrest⟩ := ih s'
    refine ⟨ps ++ qs, ?_⟩
    intro sent timeouts
    obtain ⟨n, hn⟩ := hstep sent timeouts
    rw [Run.exec_cons, hn, hrest, List.append_assoc]

theorem exec_over {client : SocketAddr} {v : Served}
    (h : v.sender.progress = .complete ∨ v.sender.progress = .aborted) (es : List Arrival) :
    Run.exec (Served.step client) v es = v := by
  have hs : v.sender.progress ≠ .sending := by
    rcases h with h | h <;> rw [h] <;> decide
  have hw : v.sender.progress ≠ .waiting := by
    rcases h with h | h <;> rw [h] <;> decide
  refine Run.exec_invariant (I := fun u => u = v) ?_ rfl es
  intro u e hu
  rw [hu]
  exact step_over hs hw

/-- Two transfers that wait at one block, the second a retry and a packet ahead. -/
structure Ahead (u v : Served) : Prop where
  waiting : u.sender.progress = .waiting
  sender : v.sender = { u.sender with retries := u.sender.retries + 1 }
  sent : v.sent = u.sent ++ [u.sender.packet]
  room : u.sender.retries + 1 < tftpMaxRetries
  timeouts : v.timeouts ≤ u.sender.retries

section Ahead

variable {client : SocketAddr} {u v : Served} {e : Arrival}

theorem Ahead.waiting_too (h : Ahead u v) : v.sender.progress = .waiting := by
  rw [h.sender]
  exact h.waiting

/-- Once the block is acknowledged the packet too many stays in what was sent. -/
theorem Ahead.acknowledged (h : Ahead u v)
    (ha : Sender.acknowledges client u.sender.block e.heard = true) (es : List Arrival) :
    (Run.exec (Served.step client) (u.step client e) es).sent ≠
      (Run.exec (Served.step client) (v.step client e) es).sent := by
  intro hsame
  have hlen : v.sent.length = u.sent.length + 1 := by
    rw [h.sent, List.length_append, List.length_singleton]
  have hav : Sender.acknowledges client v.sender.block e.heard = true := by
    rw [h.sender]
    exact ha
  have hchunk : v.sender.chunk = u.sender.chunk := by rw [h.sender]
  by_cases hc : u.sender.chunk.length < tftpBlockSize
  · obtain ⟨hsu, hpu⟩ := step_complete h.waiting ha hc
    obtain ⟨hsv, hpv⟩ := step_complete h.waiting_too hav (by rw [hchunk]; exact hc)
    rw [exec_over (.inl hpu), exec_over (.inl hpv), hsu, hsv] at hsame
    rw [hsame] at hlen
    omega
  · rw [step_advance h.waiting ha hc,
      step_advance h.waiting_too hav (by rw [hchunk]; exact hc), h.sender] at hsame
    obtain ⟨ps, hps⟩ := exec_sender client es {
      rest := u.sender.rest.drop tftpBlockSize
      block := u.sender.block + 1
      chunk := u.sender.rest.take tftpBlockSize
      retries := 0
      progress := .waiting }
    rw [hps, hps] at hsame
    have := congrArg List.length hsame
    simp only [List.length_append, List.length_singleton, hlen] at this
    omega

/-- Anything else leaves them so, or the second is given up short of its timeouts. -/
theorem Ahead.missed (h : Ahead u v)
    (ha : Sender.acknowledges client u.sender.block e.heard = false) :
    Ahead (u.step client e) (v.step client e) ∨
      ((v.step client e).sender.progress = .aborted ∧
        (v.step client e).timeouts < tftpMaxRetries) := by
  have hav : Sender.acknowledges client v.sender.block e.heard = false := by
    rw [h.sender]
    exact ha
  have hretries : v.sender.retries = u.sender.retries + 1 := by rw [h.sender]
  have hcount := counted_le client e v h.waiting_too
  have htimeouts := h.timeouts
  by_cases hlast : tftpMaxRetries ≤ v.sender.retries + 1
  · right
    rw [step_give_up h.waiting_too hav hlast]
    have := h.room
    exact ⟨rfl, by simp only; omega⟩
  · left
    rw [step_resend h.waiting ha (Nat.not_le.mpr h.room), step_resend h.waiting_too hav hlast]
    exact {
      waiting := rfl
      sender := by rw [h.sender]
      sent := by
        rw [h.sent, h.sender]
        rfl
      room := by
        rw [← hretries]
        exact Nat.lt_of_not_le hlast
      timeouts := by simp only; omega }

/-- They can only look the same in the end if the second is given up, and then it has not
had enough timeouts. -/
theorem Ahead.shows (h : Ahead u v) (es : List Arrival)
    (hsame : (Run.exec (Served.step client) u es).sent =
      (Run.exec (Served.step client) v es).sent) :
    (Run.exec (Served.step client) v es).sender.progress = .aborted ∧
      (Run.exec (Served.step client) v es).timeouts < tftpMaxRetries := by
  induction es generalizing u v with
  | nil =>
    rw [Run.exec_nil, Run.exec_nil, h.sent] at hsame
    have := congrArg List.length hsame
    rw [List.length_append, List.length_singleton] at this
    omega
  | cons e es ih =>
    rw [Run.exec_cons, Run.exec_cons] at hsame
    rw [Run.exec_cons]
    cases ha : Sender.acknowledges client u.sender.block e.heard with
    | true => exact absurd hsame (h.acknowledged ha es)
    | false =>
      rcases h.missed ha with hnext | ⟨hp, ht⟩
      · exact ih hnext hsame
      · rw [exec_over (.inr hp)]
        exact ⟨hp, ht⟩

end Ahead

/-- Between two arrivals the transfer waits or is over; a wait has retries left, and at
least as many retries as timeouts were counted. -/
structure Settled (v : Served) : Prop where
  rests : v.sender.progress ≠ .sending
  counts : v.sender.progress = .waiting → v.timeouts ≤ v.sender.retries
  room : v.sender.progress = .waiting → v.sender.retries < tftpMaxRetries

theorem begin_settled (file : List UInt8) : Settled (.begin file) where
  rests h := nomatch h
  counts _ := Nat.le_refl _
  room _ := (by decide : 0 < tftpMaxRetries)

theorem step_settled (client : SocketAddr) (v : Served) (e : Arrival) (h : Settled v) :
    Settled (v.step client e) := by
  by_cases hw : v.sender.progress = .waiting
  · cases ha : Sender.acknowledges client v.sender.block e.heard with
    | true =>
      by_cases hc : v.sender.chunk.length < tftpBlockSize
      · obtain ⟨_, hp⟩ := step_complete hw ha hc
        refine ⟨?_, ?_, ?_⟩ <;> rw [hp] <;> simp
      · rw [step_advance hw ha hc]
        exact ⟨(nomatch ·), fun _ => Nat.le_refl _, fun _ => (by decide : 0 < tftpMaxRetries)⟩
    | false =>
      have hcount := counted_le client e v hw
      have := h.counts hw
      by_cases hr : tftpMaxRetries ≤ v.sender.retries + 1
      · rw [step_give_up hw ha hr]
        exact ⟨(nomatch ·), (nomatch ·), (nomatch ·)⟩
      · rw [step_resend hw ha hr]
        exact ⟨(nomatch ·), fun _ => by simp only; omega, fun _ => Nat.lt_of_not_le hr⟩
  · rw [step_over h.rests hw]
    exact h

theorem exec_settled (client : SocketAddr) (file : List UInt8) (es : List Arrival) :
    Settled (Run.exec (Served.step client) (.begin file) es) :=
  Run.exec_invariant (step_settled client) (begin_settled file) es

theorem inserted_self (client : SocketAddr) (v : Served) (es : List Arrival) :
    Inserted client v es es := by
  induction es generalizing v with
  | nil => exact .nil v
  | cons e es ih => exact .keep v e es es (ih _)

theorem inserted_one {client : SocketAddr} {e : Arrival} (post : List Arrival) (v : Served)
    (pre : List Arrival) (h : (Run.exec (Served.step client) v pre).stray client e = true) :
    Inserted client v (pre ++ post) (pre ++ e :: post) := by
  induction pre generalizing v with
  | nil => exact .stray v e post post h (inserted_self client _ post)
  | cons f pre ih => exact .keep v f _ _ (ih _ h)

/-- A stray datagram in a wait shows somewhere. -/
theorem quiet_of_undisturbed {client : SocketAddr} {file : List UInt8} {es' : List Arrival}
    (h : Undisturbed client file es') :
    Run.Along (Served.step client) (Quiet client) (.begin file) es' := by
  intro pre e post he hw
  by_contra hstray
  rw [Bool.not_eq_false] at hstray
  have hsettled := exec_settled client file pre
  have hins := inserted_one post (.begin file) pre hstray
  rw [← he] at hins
  obtain ⟨hsent, _⟩ := h.same _ hins
  have hpatient := h.patient
  rw [he, Run.exec_append, Run.exec_cons] at hpatient
  rw [Run.exec_append, he, Run.exec_append, Run.exec_cons] at hsent
  generalize Run.exec (Served.step client) (.begin file) pre = v at hw hstray hsettled hsent hpatient
  have ha := no_ack_of_stray hstray
  have hcount := counted_stray hw hstray
  have hle := hsettled.counts hw
  have hroom := hsettled.room hw
  by_cases hr : tftpMaxRetries ≤ v.sender.retries + 1
  · rw [step_give_up hw ha hr, exec_over (.inr rfl)] at hpatient
    have := hpatient rfl
    simp only [hcount] at this
    omega
  · have hahead : Ahead v (v.step client e) := by
      rw [step_resend hw ha hr]
      exact ⟨hw, by simp only [hw], rfl, Nat.lt_of_not_le hr, by rw [hcount]; exact hle⟩
    obtain ⟨hp, ht⟩ := hahead.shows post hsent
    exact absurd (hpatient hp) (Nat.not_le.mpr ht)

/-- With no stray datagram in a wait, what was put in came when all was over. -/
theorem inserted_quiet {client : SocketAddr} {v : Served} {es es' : List Arrival}
    (hins : Inserted client v es es') (hv : Settled v)
    (hq : Run.Along (Served.step client) (Quiet client) v es') :
    Run.exec (Served.step client) v es = Run.exec (Served.step client) v es' := by
  induction hins with
  | nil v => rfl
  | keep v e es es' _ ih =>
    obtain ⟨_, hrest⟩ := Run.along_cons.mp hq
    exact ih (step_settled client v e hv) hrest
  | stray v e es es' hs _ ih =>
    obtain ⟨hfirst, hrest⟩ := Run.along_cons.mp hq
    have hw : v.sender.progress ≠ .waiting := by
      intro hw
      rw [hfirst hw] at hs
      cases hs
    have hsame : v.step client e = v := step_over hv.rests hw
    have hexec := ih (step_settled client v e hv) hrest
    rw [hsame] at hexec
    rw [Run.exec_cons, hsame]
    exact hexec

/-- Only timeouts use up retries then. -/
structure Timed (v : Served) : Prop where
  settled : Settled v
  waits : v.sender.progress = .waiting → v.timeouts = v.sender.retries
  ends : v.sender.progress = .aborted → tftpMaxRetries ≤ v.timeouts

theorem timeout_of_quiet {client : SocketAddr} {v : Served} {e : Arrival}
    (hs : v.stray client e = false)
    (ha : Sender.acknowledges client v.sender.block e.heard = false) : e = .timeout := by
  cases e with
  | timeout => rfl
  | datagram bytes source =>
    simp only [Served.stray, Bool.not_eq_false'] at hs
    rw [Arrival.heard, hs] at ha
    cases ha

theorem step_timed (client : SocketAddr) (v : Served) (e : Arrival) (h : Timed v)
    (hq : Quiet client v e) : Timed (v.step client e) := by
  have hsettled := step_settled client v e h.settled
  by_cases hw : v.sender.progress = .waiting
  · cases ha : Sender.acknowledges client v.sender.block e.heard with
    | true =>
      by_cases hc : v.sender.chunk.length < tftpBlockSize
      · obtain ⟨_, hp⟩ := step_complete hw ha hc
        refine ⟨hsettled, ?_, ?_⟩ <;> rw [hp] <;> simp
      · rw [step_advance hw ha hc] at hsettled ⊢
        exact ⟨hsettled, fun _ => rfl, (nomatch ·)⟩
    | false =>
      have hcount : v.counted client e = v.timeouts + 1 := by
        rw [timeout_of_quiet (hq hw) ha]
        simp only [Served.counted, hw]
      have hwaits := h.waits hw
      by_cases hr : tftpMaxRetries ≤ v.sender.retries + 1
      · rw [step_give_up hw ha hr] at hsettled ⊢
        refine ⟨hsettled, (nomatch ·), ?_⟩
        intro _
        rw [hcount, hwaits]
        exact hr
      · rw [step_resend hw ha hr] at hsettled ⊢
        refine ⟨hsettled, ?_, (nomatch ·)⟩
        intro _
        rw [hcount, hwaits]
  · rw [step_over h.settled.rests hw]
    exact h

theorem stray_of_duplicate {client : SocketAddr} {v : Served} {e : Arrival}
    (h : Duplicate client v e) : v.stray client e = true := by
  obtain ⟨block, hne, ha⟩ := h
  cases e with
  | timeout => cases ha
  | datagram bytes source =>
    simp only [Served.stray, Bool.not_eq_true']
    simp only [Arrival.heard, Sender.acknowledges] at ha ⊢
    split at ha
    · next a b c d hb =>
      simp only [Bool.and_eq_true, beq_iff_eq] at ha
      have hother : (UInt16.ofNat (ofBeBytes [c, d]) == v.sender.block) = false := by
        rw [ha.2]
        exact beq_eq_false_iff_ne.mpr hne
      simp only [hother, Bool.and_false]
    · cases ha

theorem undisturbed_of_quiet {client : SocketAddr} {file : List UInt8} {es' : List Arrival}
    (h : Run.Along (Served.step client) (Quiet client) (.begin file) es') :
    Undisturbed client file es' where
  same es hins := by
    rw [inserted_quiet hins (begin_settled file) h]
    exact ⟨rfl, rfl⟩
  patient := by
    have hbegin : Timed (.begin file) := ⟨begin_settled file, fun _ => rfl, (nomatch ·)⟩
    have hrun := Run.throughout_of_along (step_timed client) hbegin h
    exact (hrun es' [] (List.append_nil es').symm).ends
  deaf pre e post he hdup := by
    have hw : (Run.exec (Served.step client) (.begin file) pre).sender.progress ≠ .waiting := by
      intro hw
      have hstray := h pre e post he hw
      rw [stray_of_duplicate hdup] at hstray
      cases hstray
    rw [step_over (exec_settled client file pre).rests hw]

/-- A transfer is undisturbed exactly when nothing disturbs it: every datagram other than
the acknowledgement it waits for shows in what it sends, or in how soon it gives up. -/
theorem undisturbed_iff (client : SocketAddr) (file : List UInt8) (es' : List Arrival) :
    Undisturbed client file es' ↔
      Run.Along (Served.step client) (Quiet client) (.begin file) es' :=
  ⟨quiet_of_undisturbed, undisturbed_of_quiet⟩

/-- The acknowledgement of a block. -/
def ackOf (block : UInt8) : List UInt8 := [0, 4, 0, block]

/-- Two blocks; the acknowledgement of the first comes twice. -/
def doubled (client : SocketAddr) : List Arrival :=
  [.datagram (ackOf 1) client, .datagram (ackOf 1) client, .datagram (ackOf 2) client]

/-- The second copy makes the server send the second block again. -/
theorem duplicate_disturbs :
    ¬ Undisturbed (.v4 ⟨0x0A2A0064⟩ 2070) (List.replicate 512 0)
      (doubled (.v4 ⟨0x0A2A0064⟩ 2070)) := by
  intro h
  have hq := quiet_of_undisturbed h [.datagram (ackOf 1) (.v4 ⟨0x0A2A0064⟩ 2070)]
    (.datagram (ackOf 1) (.v4 ⟨0x0A2A0064⟩ 2070)) [.datagram (ackOf 2) (.v4 ⟨0x0A2A0064⟩ 2070)] rfl
  exact absurd (hq (by decide +kernel)) (by decide +kernel)

end Hivebus.Proofs.StrayPackets
