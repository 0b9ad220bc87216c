import Hivebus.Pxeboot.Daemon
import Hivebus.Proofs.Offers
import Hivebus.Proofs.ReplyBytes

namespace Hivebus.Proofs.Conversation
open Lib Proto Pxeboot Leases Pool Offers ReplyBytes Datagrams

/-- A request finds no lease of its client and no address of the pool to give. -/
def Exhausted (cfg : Config) (q : Request) (s : State) : Prop :=
  s.phase = .leasing q ∧ s.leases.lookup q.mac = none ∧ ∀ ip, InPool cfg ip → Leased s.leases ip

/-- The packet for the request a reply is being made for: an offer for a discover, an
acknowledgement for a request, with the address the client has leased at that moment and the
boot file it is registered with. -/
def Answers (cfg : Config) (q : Request) (p : SocketAddr × List UInt8) (s : State) : Prop :=
  ∃ l, s.phase = .replying q l.ip ∧ s.leases.lookup q.mac = some l ∧
    decodeMessage p.2 = some (replyMessage (match q.kind with
      | .discover => dhcpOffer
      | .request => dhcpAck) q.xid q.chaddr.1 l.ip cfg.serverIp cfg.subnetMask cfg.gateway
      cfg.leaseSecs (((s.boot.lookup q.mac).bind BootEntry.ipxeScript).getD cfg.bootFile)) ∧
    p.1 = if q.flags &&& 0x8000 ≠ 0 then .v4 ⟨0xFFFFFFFF⟩ dhcpClientPort
      else .v4 l.ip dhcpClientPort

/-- What a request comes to. -/
def Outcome (cfg : Config) (q : Request) (out : Option (SocketAddr × List UInt8)) (s : State) :
    Prop :=
  match out with
  | some p => Answers cfg q p s
  | none => Exhausted cfg q s

/-- What goes out is leased to the client it goes to. -/
def Stored (s : State) : Prop :=
  ∀ q ip, s.phase = .replying q ip → ∃ l, s.leases.lookup q.mac = some l ∧ l.ip = ip

theorem start_stored : Stored Pxeboot.start := by
  intro q ip hp
  cases hp

theorem step_stored (cfg : Config) (s : State) (e : Event) (h : Stored s) :
    Stored (Pxeboot.step cfg s e) := by
  rcases advance_or_other e with ⟨now, stored, rfl⟩ | hne
  · intro q ip hp
    have hcases := advance_cases cfg now stored s
    simp only [Pxeboot.step] at hp ⊢
    generalize advance cfg now stored s = s' at hcases hp ⊢
    cases hcases with
    | @store q' ip' hph =>
      cases hp
      exact ⟨lease cfg now ip, by rw [Table.lookup_insert_if, if_pos rfl], rfl⟩
    | rest hph =>
      rw [hph] at hp
      cases hp
    | _ => cases hp
  · intro q ip hp
    rw [(step_other cfg s e hne).1]
    rcases phase_step cfg s hne with heq | ⟨_, q', entry, _, hnew⟩
    · exact h q ip (heq ▸ hp)
    · rw [hnew] at hp
      cases hp

/-- The turns the DHCP task needs for the request in hand. -/
def rank : Phase → Nat
  | .idle => 0
  | .scripting _ _ => 5
  | .choosing _ => 4
  | .leasing _ => 3
  | .storing _ _ => 2
  | .replying _ _ => 1

theorem rank_le (ph : Phase) : rank ph ≤ 5 := by
  cases ph <;> simp [rank]

theorem rank_eq_zero {ph : Phase} (h : rank ph = 0) : ph = .idle := by
  cases ph <;> first | rfl | cases h

/-- The packet a turn sends. -/
def output (cfg : Config) (s : State) (now : Instant) (stored : Bool) :
    Option (SocketAddr × List UInt8) :=
  (answer cfg s (.advance now stored)).map (fun r => (r.target, r.packet))

/-- What a turn does for the request in hand: it gets one step further with it, or is done
with it, which it drops because there is no address for it or answers. -/
theorem advance_request (cfg : Config) {s : State} {q : Request} (now : Instant) (stored : Bool)
    (hs : Stored s) (hq : s.phase.request = some q) :
    rank (advance cfg now stored s).phase + 1 ≤ rank s.phase ∧
    (((advance cfg now stored s).phase.request = some q ∧ output cfg s now stored = none) ∨
      ((advance cfg now stored s).phase = .idle ∧ Outcome cfg q (output cfg s now stored) s)) := by
  have hcases := advance_cases cfg now stored s
  generalize advance cfg now stored s = s' at hcases ⊢
  cases hcases with
  | rest hph =>
    rw [hph] at hq
    cases hq
  | @refuse q' hph hl hf =>
    rw [hph] at hq
    cases hq
    refine ⟨by simp [hph, rank], .inr ⟨rfl, ?_⟩⟩
    simp only [output, answer, hph, Option.map_none, Outcome]
    exact ⟨hph, hl, freeIp_eq_none.mp hf⟩
  | @reply q' ip hph =>
    rw [hph] at hq
    cases hq
    obtain ⟨l, hl, rfl⟩ := hs q ip hph
    refine ⟨by simp [hph, rank], .inr ⟨rfl, ?_⟩⟩
    simp only [output, answer, hph, Option.map_some, Outcome]
    refine ⟨l, hph, hl, ?_, rfl⟩
    cases q.kind <;> exact decode_reply ..
  | script hph | assign hph _ | choose hph _ | renew hph _ | allocate hph _ _ | store hph =>
    rw [hph] at hq
    cases hq
    refine ⟨by simp [hph, rank], .inl ⟨rfl, ?_⟩⟩
    simp only [output, answer, hph, Option.map_none]

theorem recv_request {cfg : Config} {s : State} (q : Request) (hp : s.phase = .idle) :
    (Pxeboot.step cfg s (.recv q)).phase.request = some q := by
  simp only [Pxeboot.step, hp]
  cases s.boot.lookup q.mac <;> rfl

/-- The task has nothing to do, or is no more. -/
def Resting (w : DhcpServer) : Prop :=
  w.panicked ≠ none ∨ w.state.phase = .idle ∧ w.socket = []

/-- The task waits for a datagram and there is one. -/
structure Receives (w : DhcpServer) (datagram : List UInt8) (rest : List (List UInt8)) : Prop where
  running : w.panicked = none
  idle : w.state.phase = .idle
  socket : w.socket = datagram :: rest

/-- What a turn of the task is: none, a datagram, one that ends it, or the request in hand. -/
theorem turn_cases (cfg : Config) (now : Instant) (stored : Bool) (w : DhcpServer) :
    (Resting w ∧ w.turn cfg now stored = w) ∨
    (∃ datagram rest, Receives w datagram rest ∧
      ((∃ q, readRequest (datagram.take dhcpBufferSize) = .ok q ∧ w.turn cfg now stored = { w with
          state := q.elim w.state (fun q => Pxeboot.step cfg w.state (.recv q))
          socket := rest
          taken := w.taken ++ [datagram] }) ∨
        ∃ panic, readRequest (datagram.take dhcpBufferSize) = .error panic ∧
          w.turn cfg now stored = { w with
            socket := rest
            panicked := some panic
            taken := w.taken ++ [datagram] })) ∨
    (w.panicked = none ∧ ∃ q, w.state.phase.request = some q ∧ w.turn cfg now stored = { w with
      state := advance cfg now stored w.state
      sent := w.sent ++ (output cfg w.state now stored).toList }) := by
  cases hpan : w.panicked with
  | some panic => exact .inl ⟨.inl (by simp [hpan]), by simp [DhcpServer.turn, hpan]⟩
  | none =>
    cases hph : w.state.phase with
    | idle =>
      cases hsock : w.socket with
      | nil => exact .inl ⟨.inr ⟨hph, hsock⟩, by simp [DhcpServer.turn, hpan, hph, hsock]⟩
      | cons datagram rest =>
        refine .inr (.inl ⟨datagram, rest, ⟨hpan, hph, hsock⟩, ?_⟩)
        cases hr : readRequest (datagram.take dhcpBufferSize) with
        | error panic =>
          exact .inr ⟨panic, rfl, by
            simp [DhcpServer.turn, hpan, hph, hsock, receive, hr, bind, Except.bind]⟩
        | ok q =>
          refine .inl ⟨q, rfl, ?_⟩
          cases q <;> simp [DhcpServer.turn, hpan, hph, hsock, receive, hr, bind, Except.bind, pure,
            Except.pure]
    | scripting q entry => exact .inr (.inr ⟨rfl, q, rfl, by simp [DhcpServer.turn, output, hpan, hph]⟩)
    | choosing q => exact .inr (.inr ⟨rfl, q, rfl, by simp [DhcpServer.turn, output, hpan, hph]⟩)
    | leasing q => exact .inr (.inr ⟨rfl, q, rfl, by simp [DhcpServer.turn, output, hpan, hph]⟩)
    | storing q ip => exact .inr (.inr ⟨rfl, q, rfl, by simp [DhcpServer.turn, output, hpan, hph]⟩)
    | replying q ip => exact .inr (.inr ⟨rfl, q, rfl, by simp [DhcpServer.turn, output, hpan, hph]⟩)

theorem run_concat (cfg : Config) (es : List DhcpEvent) (e : DhcpEvent) :
    DhcpServer.run cfg (es ++ [e]) = (DhcpServer.run cfg es).step cfg e := by
  rw [DhcpServer.run, Run.exec_append]
  rfl

/-- To the tables a step of the server is one of theirs, or none. -/
theorem step_state (cfg : Config) (w : DhcpServer) (e : DhcpEvent) :
    (w.step cfg e).state = w.state ∨
      ∃ e', (w.step cfg e).state = Pxeboot.step cfg w.state e' := by
  cases e with
  | arrive datagram => exact .inl rfl
  | register mac entry => exact .inr ⟨.register mac entry, rfl⟩
  | write i stored => exact .inr ⟨.write i stored, rfl⟩
  | turn now stored =>
    simp only [DhcpServer.step]
    rcases turn_cases cfg now stored w with ⟨_, ht⟩ | ⟨d, rest, _, ⟨q, _, ht⟩ | ⟨p, _, ht⟩⟩ | ⟨_, q, _, ht⟩
    · exact .inl (by rw [ht])
    · cases q with
      | none => exact .inl (by rw [ht]; rfl)
      | some q => exact .inr ⟨.recv q, by rw [ht]; rfl⟩
    · exact .inl (by rw [ht])
    · exact .inr ⟨.advance now stored, by rw [ht]; rfl⟩

/-- The server at its socket runs the tables. -/
theorem run_state (cfg : Config) (es : List DhcpEvent) :
    ∃ es', (DhcpServer.run cfg es).state = Pxeboot.run cfg es' := by
  refine Run.exec_invariant (I := fun w : DhcpServer => ∃ es', w.state = Pxeboot.run cfg es') ?_
    ⟨[], rfl⟩ es
  intro w e ⟨es', h⟩
  rcases step_state cfg w e with hs | ⟨e', hs⟩
  · exact ⟨es', by rw [hs, h]⟩
  · refine ⟨es' ++ [e'], ?_⟩
    rw [hs, h, Pxeboot.run, Pxeboot.run, Run.exec_append]
    rfl

theorem run_stored (cfg : Config) (es : List DhcpEvent) : Stored (DhcpServer.run cfg es).state := by
  obtain ⟨es', h⟩ := run_state cfg es
  rw [h]
  exact Run.exec_invariant (step_stored cfg) start_stored es'

def arrival : DhcpEvent → Option (List UInt8)
  | .arrive datagram => some datagram
  | _ => none

def readable (datagram : List UInt8) : Bool :=
  match readRequest (datagram.take dhcpBufferSize) with
  | .ok _ => true
  | .error _ => false

theorem requestOf_ok {datagram : List UInt8} {q : Option Request}
    (h : readRequest (datagram.take dhcpBufferSize) = .ok q) :
    requestOf datagram = q ∧ readable datagram = true := by
  simp [requestOf, readable, h]

theorem requestOf_error {datagram : List UInt8} {panic : Panic}
    (h : readRequest (datagram.take dhcpBufferSize) = .error panic) :
    requestOf datagram = none ∧ readable datagram = false := by
  simp [requestOf, readable, h]

/-- The task ends with the first datagram it cannot read, and with no other. -/
def Ends (w : DhcpServer) : Prop :=
  match w.panicked with
  | none => ∀ d ∈ w.taken, readable d = true
  | some panic => w.state.phase = .idle ∧ ∃ before last, w.taken = before ++ [last] ∧
      (∀ d ∈ before, readable d = true) ∧ readRequest (last.take dhcpBufferSize) = .error panic

/-- What has become of the requests, in the order they came in: a packet or none. -/
abbrev Log := List (Request × Option (SocketAddr × List UInt8))

/-- The turn that ends a request: at that moment the requests before it are all done with and
it is the one in hand, and the turn sends its packet or finds that there is no address. -/
def Done (cfg : Config) (es : List DhcpEvent) (before : Log) (q : Request)
    (out : Option (SocketAddr × List UInt8)) : Prop :=
  ∃ pre now stored post, es = pre ++ .turn now stored :: post ∧
    (DhcpServer.run cfg pre).taken.filterMap requestOf = before.map Prod.fst ++ [q] ∧
    (DhcpServer.run cfg pre).state.phase.request = some q ∧
    (DhcpServer.run cfg pre).sent = before.filterMap Prod.snd ∧
    (DhcpServer.run cfg (pre ++ [.turn now stored])).state.phase = .idle ∧
    (DhcpServer.run cfg (pre ++ [.turn now stored])).sent =
      before.filterMap Prod.snd ++ out.toList ∧
    Outcome cfg q out (DhcpServer.run cfg pre).state

theorem Done.concat {cfg : Config} {es : List DhcpEvent} {before : Log} {q : Request}
    {out : Option (SocketAddr × List UInt8)} (h : Done cfg es before q out) (e : DhcpEvent) :
    Done cfg (es ++ [e]) before q out := by
  obtain ⟨pre, now, stored, post, rfl, h⟩ := h
  exact ⟨pre, now, stored, post ++ [e], by simp, h⟩

structure Account (cfg : Config) (es : List DhcpEvent) (log : Log) : Prop where
  arrivals : (DhcpServer.run cfg es).taken ++ (DhcpServer.run cfg es).socket = es.filterMap arrival
  requests : (DhcpServer.run cfg es).taken.filterMap requestOf =
    log.map Prod.fst ++ (DhcpServer.run cfg es).state.phase.request.toList
  sent : (DhcpServer.run cfg es).sent = log.filterMap Prod.snd
  done : ∀ before q out, before ++ [(q, out)] <+: log → Done cfg es before q out
  ends : Ends (DhcpServer.run cfg es)

/-- What leaves the task where it is changes nothing in the account. -/
theorem Account.keep {cfg : Config} {es : List DhcpEvent} {log : Log} {e : DhcpEvent}
    (h : Account cfg es log)
    (hsocket : ((DhcpServer.run cfg es).step cfg e).socket =
      (DhcpServer.run cfg es).socket ++ (arrival e).toList)
    (htaken : ((DhcpServer.run cfg es).step cfg e).taken = (DhcpServer.run cfg es).taken)
    (hsent : ((DhcpServer.run cfg es).step cfg e).sent = (DhcpServer.run cfg es).sent)
    (hpanicked : ((DhcpServer.run cfg es).step cfg e).panicked = (DhcpServer.run cfg es).panicked)
    (hphase : ((DhcpServer.run cfg es).step cfg e).state.phase =
      (DhcpServer.run cfg es).state.phase) : Account cfg (es ++ [e]) log where
  arrivals := by
    rw [run_concat, htaken, hsocket, ← List.append_assoc, h.arrivals, List.filterMap_append]
    cases e <;> rfl
  requests := by rw [run_concat, htaken, hphase, h.requests]
  sent := by rw [run_concat, hsent, h.sent]
  done := fun before q out hm => (h.done before q out hm).concat e
  ends := by
    have hends := h.ends
    rw [run_concat]
    unfold Ends at hends ⊢
    rwa [hpanicked, htaken, hphase]

/-- A turn of the task keeps the account, with one more entry when it is done with a request. -/
theorem turn_account {cfg : Config} {es : List DhcpEvent} {log : Log} (now : Instant) (stored : Bool)
    (h : Account cfg es log) : ∃ more, Account cfg (es ++ [.turn now stored]) (log ++ more) := by
  have hrun : DhcpServer.run cfg (es ++ [.turn now stored]) =
      (DhcpServer.run cfg es).turn cfg now stored := run_concat cfg es _
  have hwhole : (es ++ [DhcpEvent.turn now stored]).filterMap arrival = es.filterMap arrival := by
    rw [List.filterMap_append]
    exact List.append_nil _
  have harrivals := h.arrivals
  have hrequests := h.requests
  have hends := h.ends
  rcases turn_cases cfg now stored (DhcpServer.run cfg es) with
    ⟨_, ht⟩ | ⟨d, rest, ⟨hrunning, hidle, hsocket⟩, hread⟩ | ⟨hrunning, q, hq, ht⟩
  · -- nothing happens
    refine ⟨[], ?_⟩
    rw [List.append_nil]
    refine h.keep ?_ ?_ ?_ ?_ ?_
    · exact (congrArg DhcpServer.socket ht).trans (List.append_nil _).symm
    · exact congrArg DhcpServer.taken ht
    · exact congrArg DhcpServer.sent ht
    · exact congrArg DhcpServer.panicked ht
    · exact congrArg (fun w => w.state.phase) ht
  · rw [hsocket] at harrivals
    rw [hidle, Phase.request, Option.toList_none, List.append_nil] at hrequests
    simp only [Ends, hrunning] at hends
    refine ⟨[], ?_⟩
    rw [List.append_nil]
    rcases hread with ⟨q, hq, ht⟩ | ⟨panic, hp, ht⟩
    · -- a datagram that can be read is in hand now, or is no request
      refine ⟨?_, ?_, ?_, fun before q out hm => (h.done before q out hm).concat _, ?_⟩
      · rw [hrun, ht, hwhole, ← harrivals]
        simp
      · rw [hrun, ht, List.filterMap_append, hrequests, List.filterMap_cons, (requestOf_ok hq).1]
        cases q with
        | none => simp [hidle, Phase.request]
        | some q => simp [recv_request q hidle]
      · rw [hrun, ht, h.sent]
      · rw [hrun, ht, Ends, hrunning]
        intro d' hd'
        rcases List.mem_append.mp hd' with hold | hnew
        · exact hends d' hold
        · rw [List.mem_singleton.mp hnew]
          exact (requestOf_ok hq).2
    · -- a datagram that cannot be read ends the task
      refine ⟨?_, ?_, ?_, fun before q out hm => (h.done before q out hm).concat _, ?_⟩
      · rw [hrun, ht, hwhole, ← harrivals]
        simp
      · rw [hrun, ht, List.filterMap_append, hrequests, List.filterMap_cons, (requestOf_error hp).1]
        simp [hidle, Phase.request]
      · rw [hrun, ht, h.sent]
      · rw [hrun, ht, Ends]
        exact ⟨hidle, _, d, rfl, hends, hp⟩
  · obtain ⟨_, hout⟩ := advance_request cfg now stored (run_stored cfg es) hq
    rw [hq, Option.toList_some] at hrequests
    simp only [Ends, hrunning] at hends
    have hafter : Ends (DhcpServer.run cfg (es ++ [.turn now stored])) := by
      rw [hrun, ht, Ends, hrunning]
      exact hends
    have hstays : (DhcpServer.run cfg (es ++ [.turn now stored])).taken ++
        (DhcpServer.run cfg (es ++ [.turn now stored])).socket =
          (es ++ [DhcpEvent.turn now stored]).filterMap arrival := by
      rw [hwhole, hrun, ht, ← harrivals]
    have hsent : (DhcpServer.run cfg (es ++ [.turn now stored])).sent =
        log.filterMap Prod.snd ++ (output cfg (DhcpServer.run cfg es).state now stored).toList := by
      rw [hrun, ht, ← h.sent]
    rcases hout with ⟨hstill, hnone⟩ | ⟨hidle, hcome⟩
    · -- the request stays in hand
      refine ⟨[], hstays, ?_, ?_, ?_, hafter⟩
      · rw [hrun, ht, hrequests, hstill, List.append_nil]
        rfl
      · rw [hsent, hnone, List.append_nil]
        exact List.append_nil _
      · rw [List.append_nil]
        exact fun before q out hm => (h.done before q out hm).concat _
    · -- its answer is sent, or there is no address for it
      have hrest : (DhcpServer.run cfg (es ++ [.turn now stored])).state.phase = .idle := by
        rw [hrun, ht]
        exact hidle
      refine ⟨[(q, output cfg (DhcpServer.run cfg es).state now stored)], hstays, ?_, ?_, ?_, hafter⟩
      · rw [hrest, hrun, ht, hrequests, List.map_append]
        simp [Phase.request]
      · rw [hsent, List.filterMap_append]
        cases output cfg (DhcpServer.run cfg es).state now stored <;> rfl
      · intro before q' out hm
        rcases List.prefix_concat_iff.mp hm with heq | hold
        · obtain ⟨rfl, hlast⟩ := List.append_inj' heq rfl
          obtain ⟨rfl, rfl⟩ := Prod.mk.inj (List.singleton_inj.mp hlast)
          exact ⟨es, now, stored, [], rfl, hrequests, hq, h.sent, hrest, hsent, hcome⟩
        · exact (h.done before q' out hold).concat _

theorem step_account {cfg : Config} {es : List DhcpEvent} {log : Log} (e : DhcpEvent)
    (h : Account cfg es log) : ∃ more, Account cfg (es ++ [e]) (log ++ more) := by
  have same : Account cfg (es ++ [e]) log → ∃ more, Account cfg (es ++ [e]) (log ++ more) :=
    fun h => ⟨[], by rwa [List.append_nil]⟩
  cases e with
  | turn now stored => exact turn_account now stored h
  | arrive datagram => exact same (h.keep rfl rfl rfl rfl rfl)
  | register mac entry => exact same (h.keep (List.append_nil _).symm rfl rfl rfl rfl)
  | write i stored =>
    refine same (h.keep (List.append_nil _).symm rfl rfl rfl ?_)
    simp only [DhcpServer.step, Pxeboot.step]
    cases (DhcpServer.run cfg es).state.writers[i]? <;> rfl

theorem start_account (cfg : Config) : Account cfg [] [] where
  arrivals := rfl
  requests := rfl
  sent := rfl
  done := by
    intro before q out hm
    simp at hm
  ends := fun _ hm => absurd hm List.not_mem_nil

/-- An account is only ever added to. -/
theorem account_grows {cfg : Config} {es : List DhcpEvent} {log : Log} (h : Account cfg es log)
    (fs : List DhcpEvent) : ∃ more, Account cfg (es ++ fs) (log ++ more) := by
  induction fs generalizing es log with
  | nil => exact ⟨[], by rwa [List.append_nil, List.append_nil]⟩
  | cons e fs ih =>
    obtain ⟨more, h⟩ := step_account e h
    obtain ⟨rest, h⟩ := ih h
    refine ⟨more ++ rest, ?_⟩
    rwa [List.append_assoc, List.append_assoc] at h

theorem run_account (cfg : Config) (es : List DhcpEvent) : ∃ log, Account cfg es log :=
  account_grows (start_account cfg) es

/-- Whatever comes in on port 67 and however the tasks of the process take turns, there is an
account of the requests in the order they came in, which is only ever added to: for each but
the one in hand there is the turn that ended it, with one packet, made from the lease and the
boot file its client had in that turn, or with the whole pool leased; what was sent is just
that; and only a datagram that cannot be read ends the task. -/
theorem requests_accounted (cfg : Config) (es : List DhcpEvent) :
    ∃ log, Account cfg es log ∧ ∀ fs, ∃ more, Account cfg (es ++ fs) (log ++ more) := by
  obtain ⟨log, h⟩ := run_account cfg es
  exact ⟨log, h, account_grows h⟩

/-- The turns the task still needs for all that is there. -/
def work (w : DhcpServer) : Nat :=
  match w.panicked with
  | some _ => 0
  | none => 6 * w.socket.length + rank w.state.phase

theorem resting_of_work {w : DhcpServer} (h : work w = 0) : Resting w := by
  unfold work at h
  cases hp : w.panicked with
  | some panic => exact .inl (by simp [hp])
  | none =>
    simp only [hp] at h
    exact .inr ⟨rank_eq_zero (by omega), List.length_eq_zero_iff.mp (by omega)⟩

theorem turn_work (cfg : Config) (now : Instant) (stored : Bool) {w : DhcpServer}
    (hs : Stored w.state) : work (w.turn cfg now stored) ≤ work w - 1 := by
  rcases turn_cases cfg now stored w with
    ⟨hrest, ht⟩ | ⟨d, rest, ⟨hrunning, hidle, hsocket⟩, hread⟩ | ⟨hrunning, q, hq, ht⟩
  · rw [ht]
    rcases hrest with hp | ⟨hidle, hsocket⟩
    · cases hpan : w.panicked with
      | none => exact absurd hpan hp
      | some panic => simp [work, hpan]
    · cases hpan : w.panicked <;> simp [work, hpan, hidle, hsocket, rank]
  · have hw : work w = 6 * (rest.length + 1) := by
      simp [work, hrunning, hidle, hsocket, rank]
    rcases hread with ⟨q, _, ht⟩ | ⟨panic, _, ht⟩
    · have hr := rank_le (q.elim w.state (fun q => Pxeboot.step cfg w.state (.recv q))).phase
      rw [ht, hw]
      simp only [work, hrunning]
      omega
    · rw [ht]
      simp [work]
  · obtain ⟨hr, _⟩ := advance_request cfg now stored hs hq
    rw [ht]
    simp only [work, hrunning]
    omega

theorem other_work (cfg : Config) (w : DhcpServer) {e : DhcpEvent}
    (he : ∀ now stored, e ≠ .turn now stored) :
    work (w.step cfg e) ≤ work w + 6 * (arrival e).toList.length := by
  have same : ∀ w' : DhcpServer, w'.panicked = w.panicked → w'.socket = w.socket →
      w'.state.phase = w.state.phase → work w' ≤ work w := by
    intro w' h1 h2 h3
    simp only [work, h1, h2, h3]
    exact Nat.le_refl _
  cases e with
  | turn now stored => exact absurd rfl (he now stored)
  | arrive datagram =>
    cases hp : w.panicked with
    | some panic => simp [work, DhcpServer.step, hp]
    | none =>
      simp only [work, DhcpServer.step, hp, List.length_append, List.length_singleton, arrival,
        Option.toList_some]
      omega
  | register mac entry => exact same _ rfl rfl rfl
  | write i stored =>
    refine same _ rfl rfl ?_
    simp only [DhcpServer.step, Pxeboot.step]
    cases w.state.writers[i]? <;> rfl

def turns : DhcpEvent → Bool
  | .turn _ _ => true
  | _ => false

theorem step_work (cfg : Config) (w : DhcpServer) (e : DhcpEvent) (hs : Stored w.state) :
    work (w.step cfg e) ≤ work w - (turns e).toNat + 6 * (arrival e).toList.length := by
  cases e with
  | turn now stored => exact Nat.le_trans (turn_work cfg now stored hs) (Nat.le_add_right _ _)
  | arrive datagram => exact other_work cfg w (fun _ _ h => DhcpEvent.noConfusion h)
  | register mac entry => exact other_work cfg w (fun _ _ h => DhcpEvent.noConfusion h)
  | write i stored => exact other_work cfg w (fun _ _ h => DhcpEvent.noConfusion h)

/-- Each datagram brings six turns of work at most. -/
theorem run_work (cfg : Config) (es : List DhcpEvent) :
    work (DhcpServer.run cfg es) ≤ 6 * (es.filterMap arrival).length := by
  refine Run.exec_history (I := fun es w => work w ≤ 6 * (es.filterMap arrival).length)
    (s := DhcpServer.start) (Nat.le_refl 0) ?_ es
  intro es e h
  have hstep := step_work cfg _ e (run_stored cfg es)
  have hlen : ((es ++ [e]).filterMap arrival).length =
      (es.filterMap arrival).length + (arrival e).toList.length := by
    rw [List.filterMap_append, List.length_append]
    cases e <;> rfl
  rw [hlen]
  simp only [DhcpServer.run] at hstep
  omega

/-- While no more come in, every turn takes some of the work away. -/
theorem work_done (cfg : Config) (es : List DhcpEvent) {fs : List DhcpEvent}
    (hquiet : fs.filterMap arrival = []) :
    work (DhcpServer.run cfg (es ++ fs)) ≤ work (DhcpServer.run cfg es) - fs.countP turns := by
  induction fs generalizing es with
  | nil => simp
  | cons e fs ih =>
    have he : (arrival e).toList = [] := by
      cases h : arrival e with
      | none => rfl
      | some d => rw [List.filterMap_cons_some h] at hquiet; cases hquiet
    have hfs : fs.filterMap arrival = [] := by
      cases h : arrival e with
      | none => rwa [List.filterMap_cons_none h] at hquiet
      | some d => rw [h] at he; cases he
    have hstep := step_work cfg _ e (run_stored cfg es)
    have hrest := ih (es ++ [e]) hfs
    rw [List.append_assoc, run_concat] at hrest
    rw [he] at hstep
    rw [List.countP_cons]
    simp only [List.singleton_append] at hrest
    cases ht : turns e
    · simp only [ht, Bool.toNat_false] at hstep ⊢
      simp at hstep ⊢
      omega
    · simp only [ht, Bool.toNat_true] at hstep ⊢
      simp at hstep ⊢
      omega

/-- When no more datagrams come, the task needs six turns for each that came: then every
request before the first datagram that cannot be read has its place in the account, and no
request behind it has. -/
theorem requests_settled (cfg : Config) (es fs : List DhcpEvent)
    (hquiet : fs.filterMap arrival = [])
    (hturns : 6 * (es.filterMap arrival).length ≤ fs.countP turns) :
    ∃ log, Account cfg (es ++ fs) log ∧
      log.map Prod.fst = ((es.filterMap arrival).takeWhile readable).filterMap requestOf := by
  have hwork := run_work cfg es
  have hdone := work_done cfg es hquiet
  have hrest := resting_of_work (w := DhcpServer.run cfg (es ++ fs)) (by omega)
  obtain ⟨log, h⟩ := run_account cfg (es ++ fs)
  refine ⟨log, h, ?_⟩
  have harrivals := h.arrivals
  have hrequests := h.requests
  have hends := h.ends
  rw [List.filterMap_append, hquiet, List.append_nil] at harrivals
  unfold Ends at hends
  cases hp : (DhcpServer.run cfg (es ++ fs)).panicked with
  | none =>
    rw [hp] at hends
    rcases hrest with hno | ⟨hidle, hsocket⟩
    · exact absurd hp hno
    · rw [hsocket, List.append_nil] at harrivals
      rw [hidle, Phase.request, Option.toList_none, List.append_nil] at hrequests
      have hall : (DhcpServer.run cfg (es ++ fs)).taken.takeWhile readable =
          (DhcpServer.run cfg (es ++ fs)).taken := by
        have happ : ((DhcpServer.run cfg (es ++ fs)).taken ++ []).takeWhile readable =
            (DhcpServer.run cfg (es ++ fs)).taken ++ [].takeWhile readable :=
          List.takeWhile_append_of_pos hends
        rwa [List.append_nil, List.takeWhile_nil, List.append_nil] at happ
      rw [← harrivals, hall, ← hrequests]
  | some panic =>
    rw [hp] at hends
    obtain ⟨hidle, before, last, htaken, hbefore, hlast⟩ := hends
    have hstop : readable last = false := (requestOf_error hlast).2
    rw [hidle, Phase.request, Option.toList_none, List.append_nil, htaken, List.filterMap_append,
      List.filterMap_cons, (requestOf_error hlast).1] at hrequests
    rw [← harrivals, htaken, List.append_assoc, List.takeWhile_append_of_pos hbefore,
      List.singleton_append, List.takeWhile_cons_of_neg (by simp [hstop]), List.append_nil,
      ← hrequests]
    simp

/-- A discover, all zeros but for the cookie and the message type. -/
def plainDiscover : List UInt8 :=
  List.replicate 236 0 ++ dhcpMagic ++ [optMessageType, 1, dhcpDiscover, optEnd]

/-- A datagram that cannot be read between two discovers, and turns enough for all three. -/
theorem poisoned_between : ∃ log, Account seedConfig
      ([.arrive plainDiscover, .arrive cutMessage, .arrive plainDiscover] ++
        List.replicate 18 (.turn 0 true)) log ∧
    log.map Prod.fst = (([plainDiscover, cutMessage, plainDiscover]).takeWhile readable).filterMap
      requestOf :=
  requests_settled seedConfig _ _ (by rfl) (by decide)

end Hivebus.Proofs.Conversation
