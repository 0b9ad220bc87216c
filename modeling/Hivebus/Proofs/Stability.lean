import Hivebus.Proofs.Offers

namespace Hivebus.Proofs.Stability
open Lib Proto Pxeboot Leases Pool Offers

/-- A reply that was sent: to whom, which address, and how often the client's static
address had changed when the request looked it up. -/
structure Given where
  mac : Mac
  seen : Nat
  yiaddr : Ipv4Addr

/-- The server with a log of its replies. `changes` counts the changes of each client's
static address, `seen` is that count at the last look of the request in hand, and `held`
are the leases as that request found them. -/
structure Logged where
  state : State
  changes : Mac → Nat
  seen : Nat
  held : LeaseTable
  replies : List Given

def Logged.start : Logged := ⟨Pxeboot.start, fun _ => 0, 0, ∅, []⟩

def log (cfg : Config) (w : Logged) (e : Event) : Logged where
  state := step cfg w.state e
  changes m :=
    if staticIp (step cfg w.state e).boot m = staticIp w.state.boot m then w.changes m
    else w.changes m + 1
  seen :=
    match e, w.state.phase with
    | .advance _ _, .choosing q => w.changes q.mac
    | _, _ => w.seen
  held :=
    match e, w.state.phase with
    | .recv _, .idle => w.state.leases
    | _, _ => w.held
  replies :=
    match answer cfg w.state e with
    | some r => w.replies ++ [⟨r.mac, w.seen, r.yiaddr⟩]
    | none => w.replies

/-- Two replies to a client carry one address, unless its static address has changed from
the one's look at it to the other's. -/
def SameAnswer (w : Logged) : Prop :=
  ∀ x ∈ w.replies, ∀ y ∈ w.replies, x.mac = y.mac → x.seen = y.seen → x.yiaddr = y.yiaddr

/-- A client with no lease is given the least address of the pool that is in none, and
refused exactly when there is no such address. -/
def ChoosesLeast (cfg : Config) (w : Logged) (e : Event) : Prop :=
  ∀ now q, Searches w.state e now q →
    (∀ ip, (step cfg w.state e).phase = .storing q ip ↔
      InPool cfg ip ∧ ¬ Leased w.state.leases ip ∧
      ∀ b, InPool cfg b → b.bits < ip.bits → Leased w.state.leases b) ∧
    ((step cfg w.state e).phase = .idle ↔ ∀ ip, InPool cfg ip → Leased w.state.leases ip)

/-- A request that is refused leaves the leases as it found them. -/
def RefusalKeeps (cfg : Config) (w : Logged) (e : Event) : Prop :=
  ∀ q, w.state.phase = .leasing q → (step cfg w.state e).phase = .idle →
    (step cfg w.state e).leases = w.held

/-- The address a client would be given now. -/
def Current (s : State) (mac : Mac) (ip : Ipv4Addr) : Prop :=
  match staticIp s.boot mac with
  | some a => ip = a
  | none => ∃ l, s.leases.lookup mac = some l ∧ l.ip = ip

/-- The request in hand looked after all those that have been answered. -/
def Latest (w : Logged) (q : Request) : Prop :=
  w.seen ≤ w.changes q.mac ∧ ∀ x ∈ w.replies, x.mac = q.mac → x.seen ≤ w.seen

/-- The address on its way agrees with the table and with the replies of its time. -/
def Agrees (w : Logged) (q : Request) (ip : Ipv4Addr) : Prop :=
  (w.seen = w.changes q.mac → ∀ a, staticIp w.state.boot q.mac = some a → ip = a) ∧
    ∀ x ∈ w.replies, x.mac = q.mac → x.seen = w.seen → x.yiaddr = ip

/-- What is known of the request in hand, once it has looked at the boot table. -/
def InHand (w : Logged) : Prop :=
  match w.state.phase with
  | .leasing q => Latest w q ∧
      (w.seen = w.changes q.mac → staticIp w.state.boot q.mac = none) ∧
      ∀ x ∈ w.replies, x.mac = q.mac → x.seen = w.seen →
        ∃ l, w.state.leases.lookup q.mac = some l ∧ l.ip = x.yiaddr
  | .storing q ip => Latest w q ∧ Agrees w q ip
  | .replying q ip => Latest w q ∧ Agrees w q ip ∧
      ∃ l, w.state.leases.lookup q.mac = some l ∧ l.ip = ip
  | _ => True

/-- The replies of the present time are what the tables still say. -/
structure Consistent (w : Logged) : Prop where
  past : ∀ x ∈ w.replies, x.seen ≤ w.changes x.mac
  same : SameAnswer w
  current : ∀ x ∈ w.replies, x.seen = w.changes x.mac → Current w.state x.mac x.yiaddr
  inHand : InHand w

theorem changes_le (cfg : Config) (w : Logged) (e : Event) (m : Mac) :
    w.changes m ≤ (log cfg w e).changes m := by
  simp only [log]
  split <;> omega

/-- Where the count stands still, so does the static address. -/
theorem static_of_changes {cfg : Config} {w : Logged} {e : Event} {m : Mac}
    (h : (log cfg w e).changes m ≤ w.changes m) :
    staticIp (log cfg w e).state.boot m = staticIp w.state.boot m := by
  simp only [log] at h ⊢
  split at h
  · next hs => exact hs
  · omega

/-- What the other tasks do is consistent with the log: they leave the replies, the
leases and the request in hand, and count what they change in the boot table. -/
theorem Consistent.carry {w w' : Logged} (h : Consistent w) (hr : w'.replies = w.replies)
    (hs : w'.seen = w.seen) (hl : w'.state.leases = w.state.leases)
    (hc : ∀ m, w.changes m ≤ w'.changes m)
    (hst : ∀ m, w'.changes m ≤ w.changes m →
      staticIp w'.state.boot m = staticIp w.state.boot m)
    (hp : w'.state.phase = w.state.phase ∨ InHand w') : Consistent w' := by
  have latest : ∀ q, Latest w q → Latest w' q := by
    intro q hq
    rw [Latest, hs, hr]
    exact ⟨Nat.le_trans hq.1 (hc q.mac), hq.2⟩
  have still : ∀ q, Latest w q → w'.seen = w'.changes q.mac →
      w.seen = w.changes q.mac ∧ staticIp w'.state.boot q.mac = staticIp w.state.boot q.mac := by
    intro q hq he
    have h1 := hq.1
    have h2 := hc q.mac
    rw [hs] at he
    exact ⟨by omega, hst q.mac (by omega)⟩
  have agrees : ∀ q ip, Latest w q → Agrees w q ip → Agrees w' q ip := by
    intro q ip hq ha
    refine ⟨?_, by rw [hr, hs]; exact ha.2⟩
    intro he a hsa
    obtain ⟨hn, hsame⟩ := still q hq he
    exact ha.1 hn a (hsame ▸ hsa)
  constructor
  · intro x hx
    rw [hr] at hx
    exact Nat.le_trans (h.past x hx) (hc x.mac)
  · intro x hx y hy
    rw [hr] at hx hy
    exact h.same x hx y hy
  · intro x hx he
    rw [hr] at hx
    have hp := h.past x hx
    have h1 := hc x.mac
    have hcur := h.current x hx (by omega)
    rw [Current] at hcur ⊢
    rw [hst x.mac (by omega), hl]
    exact hcur
  · rcases hp with hp | hp
    · have hh := h.inHand
      unfold InHand at hh ⊢
      rw [hp, hl]
      cases hph : w.state.phase with
      | leasing q =>
        rw [hph] at hh
        obtain ⟨hq, hn, hx⟩ := hh
        refine ⟨latest q hq, ?_, by rw [hr, hs]; exact hx⟩
        intro he
        obtain ⟨he', hsame⟩ := still q hq he
        rw [hsame]
        exact hn he'
      | storing q ip =>
        rw [hph] at hh
        exact ⟨latest q hh.1, agrees q ip hh.1 hh.2⟩
      | replying q ip =>
        rw [hph] at hh
        exact ⟨latest q hh.1, agrees q ip hh.1 hh.2.1, hh.2.2⟩
      | idle => trivial
      | scripting q entry => trivial
      | choosing q => trivial
    · exact hp

theorem other_consistent {cfg : Config} {w : Logged} {e : Event}
    (he : ∀ now stored, e ≠ .advance now stored) (h : Consistent w) :
    Consistent (log cfg w e) := by
  have hrs : (log cfg w e).replies = w.replies ∧ (log cfg w e).seen = w.seen := by
    cases e with
    | advance now stored => exact absurd rfl (he now stored)
    | recv q => exact ⟨rfl, rfl⟩
    | register mac entry => exact ⟨rfl, rfl⟩
    | write i stored => exact ⟨rfl, rfl⟩
  refine h.carry hrs.1 hrs.2 (step_other cfg w.state e he).1 (changes_le cfg w e)
    (fun m => static_of_changes) ?_
  rcases phase_step cfg w.state he with hp | ⟨_, q, entry, _, hp⟩
  · exact .inl hp
  · right
    have hp' : (log cfg w e).state.phase = .scripting q entry := hp
    rw [InHand, hp']
    trivial

section Advance

variable {cfg : Config} {w : Logged} (now : Instant) (stored : Bool)

/-- What a step of the DHCP task adds to the log; it changes no static address. -/
theorem log_advance : log cfg w (.advance now stored) = {
    state := advance cfg now stored w.state
    changes := w.changes
    seen := match w.state.phase with
      | .choosing q => w.changes q.mac
      | _ => w.seen
    held := w.held
    replies := match w.state.phase with
      | .replying q ip => w.replies ++ [⟨q.mac, w.seen, ip⟩]
      | _ => w.replies } := by
  have hc : ∀ m, staticIp (advance cfg now stored w.state).boot m = staticIp w.state.boot m :=
    static_step cfg w.state (.advance now stored)
  cases hph : w.state.phase with
  | replying q ip =>
    simp only [log, answer, step, hc, ↓reduceIte, hph]
    rfl
  | _ => simp only [log, answer, step, hc, ↓reduceIte, hph]

/-- Writing a lease keeps the replies of the present time true when those to its client
carry its address. -/
theorem current_insert {mac : Mac} {ip : Ipv4Addr} {ph : Phase} (h : Consistent w)
    (hx : ∀ x ∈ w.replies, x.mac = mac → x.seen = w.changes mac → x.yiaddr = ip) :
    ∀ x ∈ w.replies, x.seen = w.changes x.mac →
      Current { w.state with leases := w.state.leases.insert mac (lease cfg now ip), phase := ph }
        x.mac x.yiaddr := by
  intro x hxr he
  have hcur := h.current x hxr he
  unfold Current at *
  simp only
  cases hs : staticIp w.state.boot x.mac with
  | some a =>
    rw [hs] at hcur
    exact hcur
  | none =>
    rw [hs] at hcur
    by_cases hm : x.mac = mac
    · refine ⟨lease cfg now ip, by rw [hm, AList.lookup_insert], ?_⟩
      exact (hx x hxr hm (hm ▸ he)).symm
    · simp only [Table.lookup_insert_if, hm, ↓reduceIte]
      exact hcur

/-- The step at which the request in hand looks at the boot table. -/
theorem choosing_consistent {q : Request} (hph : w.state.phase = .choosing q) (h : Consistent w) :
    Consistent (log cfg w (.advance now stored)) := by
  have hlatest : ∀ x ∈ w.replies, x.mac = q.mac → x.seen ≤ w.changes q.mac := by
    intro x hx hm
    rw [← hm]
    exact h.past x hx
  have hcur : ∀ x ∈ w.replies, x.mac = q.mac → x.seen = w.changes q.mac →
      Current w.state q.mac x.yiaddr := by
    intro x hx hm he
    rw [← hm] at he ⊢
    exact h.current x hx he
  rw [log_advance]
  simp only [advance, hph]
  cases hs : staticIp w.state.boot q.mac with
  | some ip =>
    refine ⟨h.past, h.same, h.current, ⟨Nat.le_refl _, hlatest⟩, ?_, ?_⟩
    · intro _ a ha
      exact Option.some.inj (hs.symm.trans ha)
    · intro x hx hm he
      have := hcur x hx hm he
      rw [Current, hs] at this
      exact this
  | none =>
    refine ⟨h.past, h.same, h.current, ⟨Nat.le_refl _, hlatest⟩, fun _ => hs, ?_⟩
    intro x hx hm he
    have := hcur x hx hm he
    rw [Current, hs] at this
    exact this

/-- The step at which it looks for a lease, then for an address of the pool. -/
theorem leasing_consistent {q : Request} (hph : w.state.phase = .leasing q) (h : Consistent w) :
    Consistent (log cfg w (.advance now stored)) := by
  have hh := h.inHand
  rw [InHand, hph] at hh
  obtain ⟨hq, hn, hx⟩ := hh
  rw [log_advance]
  simp only [advance, hph]
  cases hl : w.state.leases.lookup q.mac with
  | some l =>
    have hip : ∀ x ∈ w.replies, x.mac = q.mac → x.seen = w.seen → x.yiaddr = l.ip := by
      intro x hxr hm he
      obtain ⟨l', hl', hip⟩ := hx x hxr hm he
      rw [hl] at hl'
      cases hl'
      exact hip.symm
    refine ⟨h.past, h.same, current_insert now h ?_, hq, ?_, hip⟩
    · intro x hxr hm he
      have h1 := hq.1
      have h2 := hq.2 x hxr hm
      exact hip x hxr hm (by omega)
    · intro he a ha
      rw [hn he] at ha
      cases ha
  | none =>
    cases freeIp cfg w.state.leases with
    | none => exact ⟨h.past, h.same, h.current, trivial⟩
    | some ip =>
      refine ⟨h.past, h.same, h.current, hq, ?_, ?_⟩
      · intro he a ha
        rw [hn he] at ha
        cases ha
      · intro x hxr hm he
        obtain ⟨l, hl', _⟩ := hx x hxr hm he
        rw [hl] at hl'
        cases hl'

/-- The step at which its address is stored. -/
theorem storing_consistent {q : Request} {ip : Ipv4Addr} (hph : w.state.phase = .storing q ip)
    (h : Consistent w) : Consistent (log cfg w (.advance now stored)) := by
  have hh := h.inHand
  rw [InHand, hph] at hh
  obtain ⟨hq, ha⟩ := hh
  rw [log_advance]
  simp only [advance, hph]
  refine ⟨h.past, h.same, current_insert now h ?_, hq, ha, lease cfg now ip, ?_, rfl⟩
  · intro x hxr hm he
    have h1 := hq.1
    have h2 := hq.2 x hxr hm
    exact ha.2 x hxr hm (by omega)
  · exact AList.lookup_insert _

/-- The step at which it is answered. -/
theorem replying_consistent {q : Request} {ip : Ipv4Addr} (hph : w.state.phase = .replying q ip)
    (h : Consistent w) : Consistent (log cfg w (.advance now stored)) := by
  have hh := h.inHand
  rw [InHand, hph] at hh
  obtain ⟨hq, ha, hl⟩ := hh
  rw [log_advance]
  simp only [advance, hph]
  constructor
  · intro x hx
    rcases List.mem_append.mp hx with hx | hx
    · exact h.past x hx
    · cases List.mem_singleton.mp hx
      exact hq.1
  · intro x hx y hy hm hs
    rcases List.mem_append.mp hx with hx | hx
    · rcases List.mem_append.mp hy with hy | hy
      · exact h.same x hx y hy hm hs
      · cases List.mem_singleton.mp hy
        exact ha.2 x hx hm hs
    · cases List.mem_singleton.mp hx
      rcases List.mem_append.mp hy with hy | hy
      · exact (ha.2 y hy hm.symm hs.symm).symm
      · cases List.mem_singleton.mp hy
        rfl
  · intro x hx he
    rcases List.mem_append.mp hx with hx | hx
    · exact h.current x hx he
    · cases List.mem_singleton.mp hx
      unfold Current
      cases hs : staticIp w.state.boot q.mac with
      | some a => exact ha.1 he a hs
      | none => exact hl
  · trivial

end Advance

theorem log_consistent (cfg : Config) (w : Logged) (e : Event) (h : Consistent w) :
    Consistent (log cfg w e) := by
  rcases advance_or_other e with ⟨now, stored, rfl⟩ | hne
  · cases hph : w.state.phase with
    | choosing q => exact choosing_consistent now stored hph h
    | leasing q => exact leasing_consistent now stored hph h
    | storing q ip => exact storing_consistent now stored hph h
    | replying q ip => exact replying_consistent now stored hph h
    | idle =>
      rw [log_advance]
      simp only [advance, hph]
      exact ⟨h.past, h.same, h.current, h.inHand⟩
    | scripting q entry =>
      rw [log_advance]
      simp only [advance, hph]
      exact ⟨h.past, h.same, h.current, trivial⟩
  · exact other_consistent hne h

theorem consistent_start : Consistent Logged.start where
  past := by
    intro x hx
    cases hx
  same := by
    intro x hx
    cases hx
  current := by
    intro x hx
    cases hx
  inHand := trivial

/-- The search of the pool is exact at both its ends. -/
theorem chooses_least (cfg : Config) (w : Logged) (e : Event) : ChoosesLeast cfg w e := by
  intro now q hs
  obtain ⟨stored, rfl, hph, hl⟩ := hs
  rw [← freeIp_eq_none]
  simp only [← freeIp_eq_some, step, advance, hph, hl]
  cases freeIp cfg w.state.leases with
  | some ip => simp
  | none => simp

/-- A request that has not come to an address yet has not touched the leases. -/
def Untouched (w : Logged) : Prop :=
  match w.state.phase with
  | .scripting _ _ | .choosing _ | .leasing _ => w.state.leases = w.held
  | _ => True

theorem log_untouched (cfg : Config) (w : Logged) (e : Event) (h : Untouched w) :
    Untouched (log cfg w e) := by
  unfold Untouched at *
  cases e with
  | advance now stored =>
    rw [log_advance]
    have hcases := advance_cases cfg now stored w.state
    generalize advance cfg now stored w.state = s' at hcases ⊢
    cases hcases with
    | rest hph => simp only [hph]
    | script hph | choose hph _ =>
      rw [hph] at h
      exact h
    | _ => trivial
  | register mac entry => exact h
  | write i stored =>
    simp only [log, step]
    cases w.state.writers[i]? <;> exact h
  | recv q =>
    cases hph : w.state.phase with
    | idle =>
      simp only [log, step, hph]
      cases w.state.boot.lookup q.mac <;> rfl
    | storing p ip => simp only [log, step, hph]
    | replying p ip => simp only [log, step, hph]
    | _ =>
      rw [hph] at h
      simp only [log, step, hph]
      exact h

theorem refusal_keeps {cfg : Config} {w : Logged} (e : Event) (h : Untouched w) :
    RefusalKeeps cfg w e := by
  intro q hph hidle
  rw [Untouched, hph] at h
  have h : w.state.leases = w.held := h
  rw [← h]
  rcases advance_or_other e with ⟨now, stored, rfl⟩ | hne
  · simp only [step, advance, hph] at hidle ⊢
    cases hl : w.state.leases.lookup q.mac with
    | some l => simp only [hl, reduceCtorEq] at hidle
    | none => cases freeIp cfg w.state.leases <;> rfl
  · exact (step_other cfg w.state e hne).1

/-- Replies are stable, the pool is used to its last address, and a refusal costs
nobody a lease, in every run. -/
theorem leases_stable (cfg : Config) (es : List Event) :
    Run.Throughout (log cfg) SameAnswer Logged.start es ∧
      Run.Along (log cfg) (ChoosesLeast cfg) Logged.start es ∧
      Run.Along (log cfg) (RefusalKeeps cfg) Logged.start es := by
  refine ⟨?_, fun pre e _ _ => chooses_least cfg _ e, ?_⟩
  · intro pre _ _
    exact (Run.exec_invariant (log_consistent cfg) consistent_start pre).same
  · intro pre e _ _
    have h0 : Untouched Logged.start := by
      unfold Untouched
      trivial
    exact refusal_keeps e (Run.exec_invariant (log_untouched cfg) h0 pre)

end Hivebus.Proofs.Stability
