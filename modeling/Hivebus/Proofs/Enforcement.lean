import Hivebus.Netop.Daemon
import Hivebus.Proofs.Services

namespace Hivebus.Proofs.Enforcement
open Lib Proto Netop Envelope Services

/-- The state a request sets. -/
def setOf : ControlOp → Option DesiredState
  | .custom tag payload =>
    if tag = "state.set" then (DesiredState.codec.decode payload).map Prod.fst else none
  | _ => none

/-- The bytes an event brings to the control socket. -/
def streamOf (e : Event) : Option (List UInt8) :=
  match e.doing with
  | .control stream => some stream
  | .poll => none

/-- What was set last, and nothing at all before that. -/
def inForce (es : List Event) : DesiredState :=
  (((commands streamOf es).filterMap setOf).getLast?).getD .default

variable {refusal : String → List UInt8 → String} {refused : List UInt8 → String}

theorem obey_state (s : DesiredState) (op : ControlOp) :
    obey (controlPlane refusal) s op = (setOf op).getD s := by
  cases op with
  | custom tag payload =>
    simp only [obey, controlPlane, dispatch, custom, setOf, Option.map_some, Option.getD_some]
    by_cases ht : tag = "state.set"
    · simp only [if_pos ht]
      cases DesiredState.codec.decode payload <;> rfl
    · rw [if_neg ht, if_neg ht]
      rfl
  | _ => rfl

theorem poll_state (d : Netop.Daemon) (now : Instant) :
    (d.poll now).state = d.state ∧ (d.poll now).exited = d.exited := by
  unfold Daemon.poll
  split
  · split <;> exact ⟨rfl, rfl⟩
  · split <;> exact ⟨rfl, rfl⟩
  · exact ⟨rfl, rfl⟩

theorem serve_loop (d : Netop.Daemon) (stream : List UInt8) :
    (d.serve refusal refused stream).loop = d.loop ∧
      (d.serve refusal refused stream).passes = d.passes := by
  unfold Daemon.serve
  split <;> exact ⟨rfl, rfl⟩

theorem serve_ends {d : Netop.Daemon} {stream : List UInt8}
    (h : (connection (controlPlane refusal) refused d.state stream).2 = .exited) :
    d.serve refusal refused stream = { d with exited := true } := by
  unfold Daemon.serve
  split
  · rfl
  · next hlives hc =>
    rw [hc] at h
    exact (hlives h).elim

theorem serve_told {d : Netop.Daemon} {stream : List UInt8}
    (h : (connection (controlPlane refusal) refused d.state stream).2 ≠ .exited) :
    d.serve refusal refused stream =
      { d with state := (connection (controlPlane refusal) refused d.state stream).1 } := by
  unfold Daemon.serve
  split
  · next hc => exact absurd (by rw [hc]) h
  · next hc => rw [hc]

theorem netop_serves (refusal : String → List UInt8 → String) (refused : List UInt8 → String) :
    Serves (controlPlane refusal) refused (Daemon.step refusal refused) Daemon.state Daemon.exited
      streamOf where
  ended := by
    intro d e hd
    simp [Daemon.step, hd]
  idle := by
    intro d e hd hs
    obtain ⟨now, doing⟩ := e
    unfold Daemon.step
    rw [if_neg (by simp [hd])]
    cases doing with
    | control stream => cases hs
    | poll => exact ⟨(poll_state d now).1, (poll_state d now).2.trans hd⟩
  told := by
    intro d e bs hd hs hx
    obtain ⟨now, doing⟩ := e
    unfold Daemon.step
    rw [if_neg (by simp [hd])]
    cases doing with
    | control stream =>
      cases hs
      simp only [serve_told hx]
      exact ⟨trivial, hd⟩
    | poll => cases hs
  ends := by
    intro d e bs hd hs hx
    obtain ⟨now, doing⟩ := e
    unfold Daemon.step
    rw [if_neg (by simp [hd])]
    cases doing with
    | control stream =>
      cases hs
      simp only [serve_ends hx]
      exact ⟨trivial, trivial⟩
    | poll => cases hs

theorem run_state (refusal : String → List UInt8 → String) (refused : List UInt8 → String)
    (cfg : Config) (es : List Event) :
    (Daemon.run refusal refused cfg es).state = inForce es := by
  have hstate := (netop_serves refusal refused).exec_state dispatch_exits
    (d := Daemon.start cfg) rfl es
  exact hstate.trans
    (Run.exec_last_write (fun s : DesiredState => s) obey_state _ _)

/-- What a step does to the loop: nothing, or it makes a pass for what is in force, or it makes
an interval of zero. -/
theorem step_loop (refusal : String → List UInt8 → String) (refused : List UInt8 → String)
    (d : Netop.Daemon) (e : Event) :
    ((Daemon.step refusal refused d e).loop = d.loop ∧
      (Daemon.step refusal refused d e).passes = d.passes) ∨
    (d.loop = .spawned 0 ∧ (Daemon.step refusal refused d e).loop = .panicked ∧
      (Daemon.step refusal refused d e).passes = d.passes) ∨
    ((Daemon.step refusal refused d e).passes = d.passes ++ [(e.now, d.state)] ∧
      ((∃ period, period ≠ 0 ∧ d.loop = .spawned period ∧
        (Daemon.step refusal refused d e).loop = .ticking period (e.now + period)) ∨
      ∃ period next, next ≤ e.now ∧ d.loop = .ticking period next ∧
        (Daemon.step refusal refused d e).loop = .ticking period (next + period))) := by
  unfold Daemon.step
  by_cases hd : d.exited = true
  · rw [if_pos hd]
    exact .inl ⟨rfl, rfl⟩
  · rw [if_neg hd]
    obtain ⟨now, doing⟩ := e
    cases doing with
    | control stream => exact .inl (serve_loop d stream)
    | poll =>
      simp only [Daemon.poll]
      cases hl : d.loop with
      | spawned period =>
        by_cases hp : period = 0
        · subst hp
          exact .inr (.inl ⟨rfl, rfl, rfl⟩)
        · simp only [if_neg hp]
          exact .inr (.inr ⟨trivial, .inl ⟨period, hp, rfl, rfl⟩⟩)
      | ticking period next =>
        by_cases hn : next ≤ now
        · simp only [if_pos hn]
          exact .inr (.inr ⟨trivial, .inr ⟨period, next, hn, rfl, rfl⟩⟩)
        · simp only [if_neg hn]
          exact .inl ⟨hl, trivial⟩
      | panicked => exact .inl ⟨hl, rfl⟩

/-- A loop whose interval cannot be made never makes a pass. -/
theorem step_stuck {d : Netop.Daemon}
    (h : (d.loop = .spawned 0 ∨ d.loop = .panicked) ∧ d.passes = [])
    (e : Event) :
    ((Daemon.step refusal refused d e).loop = .spawned 0 ∨
        (Daemon.step refusal refused d e).loop = .panicked) ∧
      (Daemon.step refusal refused d e).passes = [] := by
  obtain ⟨hl, hp⟩ := h
  rcases step_loop refusal refused d e with
    ⟨hl', hp'⟩ | ⟨_, hl', hp'⟩ | ⟨_, ⟨period, hne, hl', _⟩ | ⟨period, next, _, hl', _⟩⟩
  · rw [hl', hp']
    exact ⟨hl, hp⟩
  · rw [hl', hp']
    exact ⟨.inr rfl, hp⟩
  · rw [hl'] at hl
    rcases hl with hl | hl
    · cases hl
      exact absurd rfl hne
    · cases hl
  · rw [hl'] at hl
    rcases hl with hl | hl <;> cases hl

def periodOf (cfg : Config) : Duration := Duration.fromSecs cfg.reconcileSecs.toNat

theorem periodOf_eq_zero {cfg : Config} : periodOf cfg = 0 ↔ cfg.reconcileSecs = 0 := by
  rw [periodOf, Duration.fromSecs, Nat.mul_eq_zero, or_iff_left (by decide), ← UInt64.toNat_inj]
  rfl

/-- The loop has a turn, and it is its first one or as many periods have gone by since its
first pass as it has made passes. -/
def Due (period : Duration) (d : Netop.Daemon) (e : Event) : Prop :=
  d.exited = false ∧ e.doing = .poll ∧ period ≠ 0 ∧
    ∀ first ∈ d.passes.head?, first.1 + d.passes.length * period ≤ e.now

/-- The ticks of a loop keep to the time of its first pass. -/
def Ticks (period : Duration) (d : Netop.Daemon) : Prop :=
  d.loop = .spawned period ∧ d.passes = [] ∨
    ∃ first rest, d.passes = first :: rest ∧
      d.loop = .ticking period (first.1 + d.passes.length * period)

theorem poll_ticks {period : Duration} (hperiod : period ≠ 0) {d : Netop.Daemon}
    (h : Ticks period d) (hruns : d.exited = false) (now : Instant) :
    Ticks period (d.poll now) ∧
      (Due period d ⟨now, .poll⟩ ∧ (d.poll now).passes = d.passes ++ [(now, d.state)] ∨
        ¬ Due period d ⟨now, .poll⟩ ∧ (d.poll now).passes = d.passes) := by
  rcases h with ⟨hloop, hpasses⟩ | ⟨first, rest, hpasses, hloop⟩
  · have hpoll : d.poll now =
        { d with loop := .ticking period (now + period), passes := d.passes ++ [(now, d.state)] } := by
      rw [Daemon.poll, hloop]
      exact if_neg hperiod
    rw [hpoll]
    refine ⟨.inr ⟨(now, d.state), [], by rw [hpasses]; rfl, ?_⟩, .inl ⟨⟨hruns, rfl, hperiod, ?_⟩, rfl⟩⟩
    · rw [hpasses]
      simp
    · rw [hpasses]
      simp
  · by_cases hdue : first.1 + d.passes.length * period ≤ now
    · have hpoll : d.poll now =
          { d with
            loop := .ticking period (first.1 + d.passes.length * period + period)
            passes := d.passes ++ [(now, d.state)] } := by
        rw [Daemon.poll, hloop]
        exact if_pos hdue
      rw [hpoll]
      refine ⟨.inr ⟨first, rest ++ [(now, d.state)], by rw [hpasses]; rfl, ?_⟩,
        .inl ⟨⟨hruns, rfl, hperiod, ?_⟩, rfl⟩⟩
      · rw [List.length_append, List.length_singleton, Nat.succ_mul, Nat.add_assoc]
      · intro x hx
        rw [hpasses] at hx
        cases hx
        exact hdue
    · have hpoll : d.poll now = d := by
        rw [Daemon.poll, hloop]
        exact if_neg hdue
      rw [hpoll]
      refine ⟨.inr ⟨first, rest, hpasses, hloop⟩, .inr ⟨?_, rfl⟩⟩
      intro h
      exact hdue (h.2.2.2 first (by rw [hpasses]; rfl))

theorem step_ticks {period : Duration} (hperiod : period ≠ 0) {d : Netop.Daemon}
    (h : Ticks period d) (e : Event) :
    Ticks period (Daemon.step refusal refused d e) ∧
      (Due period d e ∧
          (Daemon.step refusal refused d e).passes = d.passes ++ [(e.now, d.state)] ∨
        ¬ Due period d e ∧ (Daemon.step refusal refused d e).passes = d.passes) := by
  unfold Daemon.step
  by_cases hx : d.exited = true
  · rw [if_pos hx]
    refine ⟨h, .inr ⟨?_, rfl⟩⟩
    intro hdue
    have hruns := hdue.1
    rw [hx] at hruns
    cases hruns
  · rw [if_neg hx]
    obtain ⟨now, doing⟩ := e
    cases doing with
    | poll => exact poll_ticks hperiod h (by simpa using hx) now
    | control stream =>
      have hserve : (d.serve refusal refused stream).loop = d.loop ∧
          (d.serve refusal refused stream).passes = d.passes := serve_loop d stream
      obtain ⟨hloop, hpasses⟩ := hserve
      refine ⟨?_, .inr ⟨?_, hpasses⟩⟩
      · rw [Ticks, hloop, hpasses]
        exact h
      · intro hdue
        cases hdue.2.1

/-- What netop does with the states it is told, whatever else comes in on its socket: the last
one it accepted is in force, and the loop makes a pass for what is in force at its first turn
and then whenever a tick is due, and no other pass. With an interval of zero, as it has without
a config file, it accepts states just the same, and its loop panics in its first turn and never
makes a pass. -/
theorem passes_enforce (refusal : String → List UInt8 → String) (refused : List UInt8 → String)
    (cfg : Config) (es : List Event) :
    (Daemon.run refusal refused cfg es).state = inForce es ∧
    (∀ pre e post, es = pre ++ e :: post →
      Due (periodOf cfg) (Daemon.run refusal refused cfg pre) e ∧
        (Daemon.run refusal refused cfg (pre ++ [e])).passes =
          (Daemon.run refusal refused cfg pre).passes ++ [(e.now, inForce pre)] ∨
      ¬ Due (periodOf cfg) (Daemon.run refusal refused cfg pre) e ∧
        (Daemon.run refusal refused cfg (pre ++ [e])).passes =
          (Daemon.run refusal refused cfg pre).passes) ∧
    (cfg.reconcileSecs = 0 → (Daemon.run refusal refused cfg es).passes = [] ∧
      ∀ pre e post, es = pre ++ e :: post → e.doing = .poll →
        (Daemon.run refusal refused cfg pre).exited = false →
        (Daemon.run refusal refused cfg (pre ++ [e])).loop = .panicked) ∧
    ∀ fromStr, load fromStr none = .ok cfg → cfg.reconcileSecs = 0 := by
  have hlast : ∀ pre e, Daemon.run refusal refused cfg (pre ++ [e]) =
      Daemon.step refusal refused (Daemon.run refusal refused cfg pre) e := by
    intro pre e
    rw [Daemon.run, Run.exec_append]
    rfl
  have hstuck : cfg.reconcileSecs = 0 → ∀ fs,
      ((Daemon.run refusal refused cfg fs).loop = .spawned 0 ∨
        (Daemon.run refusal refused cfg fs).loop = .panicked) ∧
      (Daemon.run refusal refused cfg fs).passes = [] := by
    intro h0 fs
    have hstart : (Daemon.start cfg).loop = .spawned 0 := by
      rw [Daemon.start, h0]
      rfl
    exact Run.exec_invariant (I := fun d : Netop.Daemon =>
      (d.loop = .spawned 0 ∨ d.loop = .panicked) ∧ d.passes = [])
      (fun _ e h => step_stuck h e) ⟨.inl hstart, rfl⟩ fs
  refine ⟨run_state refusal refused cfg es, ?_, ?_, ?_⟩
  · intro pre e post _
    by_cases h0 : cfg.reconcileSecs = 0
    · refine .inr ⟨fun hdue => hdue.2.2.1 (periodOf_eq_zero.mpr h0), ?_⟩
      rw [(hstuck h0 (pre ++ [e])).2, (hstuck h0 pre).2]
    · have hperiod : periodOf cfg ≠ 0 := fun h => h0 (periodOf_eq_zero.mp h)
      have hticks : Ticks (periodOf cfg) (Daemon.run refusal refused cfg pre) :=
        Run.exec_invariant (I := Ticks (periodOf cfg))
          (fun _ e h => (step_ticks hperiod h e).1) (.inl ⟨rfl, rfl⟩) pre
      rw [hlast, ← run_state refusal refused cfg pre]
      exact (step_ticks hperiod hticks e).2
  · intro h0
    refine ⟨(hstuck h0 es).2, ?_⟩
    intro pre e post _ hpoll hruns
    rw [hlast, Daemon.step, if_neg (by rw [hruns]; simp)]
    simp only [hpoll, Daemon.poll]
    rcases (hstuck h0 pre).1 with hl | hl
    · simp only [hl, ↓reduceIte]
    · simp only [hl]
  · intro fromStr hload
    cases hload
    rfl

/-- The time from which a loop waits for its turn, in a process that began at `began`. -/
def waitsFrom (began : Instant) : Loop → Option Instant
  | .spawned _ => some began
  | .ticking _ next => some next
  | .panicked => none

/-- The loop is not kept waiting for longer than `slack`. -/
def Punctual (began : Instant) (slack : Duration) (d : Netop.Daemon) (e : Event) : Prop :=
  d.exited = false → ∀ t ∈ waitsFrom began d.loop, e.now ≤ t + slack

instance (began : Instant) (slack : Duration) (d : Netop.Daemon) (e : Event) :
    Decidable (Punctual began slack d e) := inferInstanceAs (Decidable (_ → _))

/-- A loop of this period whose next tick is not further off than a period from `t`. -/
structure Paced (period : Duration) (t : Instant) (d : Netop.Daemon) : Prop where
  first : ∀ p, d.loop = .spawned p → p = period
  next : ∀ p next, d.loop = .ticking p next → p = period ∧ next ≤ t + period
  alive : d.loop ≠ .panicked

theorem step_paced {period : Duration} {t : Instant} (hperiod : period ≠ 0) {d : Netop.Daemon}
    (h : Paced period t d) {e : Event} (he : e.now ≤ t) :
    Paced period t (Daemon.step refusal refused d e) := by
  rcases step_loop refusal refused d e with
    ⟨hl, _⟩ | ⟨hl, _, _⟩ | ⟨_, ⟨p, hp, hl, hl'⟩ | ⟨p, next, hn, hl, hl'⟩⟩
  · exact ⟨fun p hp => h.first p (hl ▸ hp), fun p next hp => h.next p next (hl ▸ hp), hl ▸ h.alive⟩
  · exact absurd (h.first 0 hl).symm hperiod
  · cases h.first p hl
    refine ⟨?_, ?_, ?_⟩
    · intro q hq
      rw [hl'] at hq
      cases hq
    · intro q next hq
      rw [hl'] at hq
      cases hq
      exact ⟨rfl, Nat.add_le_add_right he period⟩
    · rw [hl']
      simp
  · obtain ⟨rfl, hnext⟩ := h.next p next hl
    refine ⟨?_, ?_, ?_⟩
    · intro q hq
      rw [hl'] at hq
      cases hq
    · intro q next' hq
      rw [hl'] at hq
      cases hq
      exact ⟨rfl, Nat.add_le_add_right (Nat.le_trans hn he) p⟩
    · rw [hl']
      simp

theorem step_exited (refusal : String → List UInt8 → String) (refused : List UInt8 → String)
    {d : Netop.Daemon} (e : Event) (h : d.exited = true) :
    (Daemon.step refusal refused d e).exited = true := by
  simp [Daemon.step, h]

/-- From a state the loop is not late in, the next pass comes before a later event is too late. -/
theorem next_pass {began : Instant} {slack : Duration} (limit : Nat) {d : Netop.Daemon}
    {t : Instant} (hwaits : waitsFrom began d.loop = some t) (ht : t + slack ≤ limit)
    (hmakes : d.loop ≠ .spawned 0) (mid : List Event) (f : Event) (hlate : limit < f.now)
    (hpunctual : Run.Along (Daemon.step refusal refused) (Punctual began slack) d (mid ++ [f]))
    (hruns : (Run.exec (Daemon.step refusal refused) d mid).exited = false) :
    ∃ a g b, mid = a ++ g :: b ∧ g.now ≤ limit ∧
      (Run.exec (Daemon.step refusal refused) d (a ++ [g])).passes =
        (Run.exec (Daemon.step refusal refused) d a).passes ++
          [(g.now, (Run.exec (Daemon.step refusal refused) d a).state)] := by
  induction mid generalizing d with
  | nil =>
    have hf := (Run.along_cons.mp hpunctual).1 hruns t hwaits
    exact absurd (Nat.le_trans hf ht) (Nat.not_le.mpr hlate)
  | cons g mid ih =>
    obtain ⟨hg, hrest⟩ := Run.along_cons.mp hpunctual
    have hd : d.exited = false := by
      by_contra hx
      have hx : d.exited = true := by simpa using hx
      have hstays := Run.exec_invariant (I := fun d' : Netop.Daemon => d'.exited = true)
        (fun _ e h => step_exited refusal refused e h) hx (g :: mid)
      rw [hruns] at hstays
      cases hstays
    rcases step_loop refusal refused d g with ⟨hl, _⟩ | ⟨hl, _, _⟩ | ⟨hp, _⟩
    · -- the loop did not move, and waits as it did
      obtain ⟨a, g', b, hmid, hlim, hpass⟩ :=
        ih (hl ▸ hwaits) (hl ▸ hmakes) hrest hruns
      exact ⟨g :: a, g', b, by rw [hmid]; rfl, hlim, hpass⟩
    · exact absurd hl hmakes
    · exact ⟨[], g, mid, rfl, Nat.le_trans (hg hd t hwaits) ht, hp⟩

/-- How soon netop enforces a state, as long as its loop is not kept waiting: within a period
of any event, and the time the loop may be late, it makes a pass, for what was in force after
that event or for what has replaced it by then. -/
theorem enforced_in_time (refusal : String → List UInt8 → String) (refused : List UInt8 → String)
    (cfg : Config) (hcfg : cfg.reconcileSecs ≠ 0) (began : Instant) (slack : Duration)
    (es : List Event) (hclock : es.Pairwise (fun e f => e.now ≤ f.now))
    (hbegan : ∀ e ∈ es, began ≤ e.now)
    (hpunctual : Run.Along (Daemon.step refusal refused) (Punctual began slack)
      (Daemon.start cfg) es)
    (pre mid post : List Event) (e f : Event) (hes : es = pre ++ [e] ++ (mid ++ [f]) ++ post)
    (hruns : (Daemon.run refusal refused cfg (pre ++ [e] ++ mid)).exited = false)
    (hlate : e.now + periodOf cfg + slack < f.now) :
    ∃ a g b, mid = a ++ g :: b ∧ g.now ≤ e.now + periodOf cfg + slack ∧
      (Daemon.run refusal refused cfg (pre ++ [e] ++ a ++ [g])).passes =
        (Daemon.run refusal refused cfg (pre ++ [e] ++ a)).passes ++
          [(g.now, inForce (pre ++ [e] ++ a))] := by
  have hperiod : periodOf cfg ≠ 0 := fun h => hcfg (periodOf_eq_zero.mp h)
  have hmem : e ∈ es := by
    rw [hes]
    simp
  have hbefore : ∀ g ∈ pre ++ [e], g.now ≤ e.now := by
    intro g hg
    rcases List.mem_append.mp hg with hg | hg
    · rw [hes, List.append_assoc, List.append_assoc, List.pairwise_append] at hclock
      exact hclock.2.2 g hg e (by simp)
    · cases List.mem_singleton.mp hg
      exact Nat.le_refl _
  have hpaced : Paced (periodOf cfg) e.now (Daemon.run refusal refused cfg (pre ++ [e])) := by
    refine Run.exec_invariant_of_all (I := Paced (periodOf cfg) e.now)
      (C := fun g : Event => g.now ≤ e.now) (fun _ _ h hg => step_paced hperiod h hg) ?_ hbefore
    refine ⟨?_, ?_, ?_⟩
    · intro p hp
      cases hp
      rfl
    · intro p next hp
      cases hp
    · intro hp
      cases hp
  have hseg : Run.Along (Daemon.step refusal refused) (Punctual began slack)
      (Daemon.run refusal refused cfg (pre ++ [e])) (mid ++ [f]) :=
    Run.along_segment (hes ▸ hpunctual)
  have hexec : ∀ xs, Run.exec (Daemon.step refusal refused)
      (Daemon.run refusal refused cfg (pre ++ [e])) xs =
        Daemon.run refusal refused cfg (pre ++ [e] ++ xs) := by
    intro xs
    rw [Daemon.run, Daemon.run, Run.exec_append _ (pre ++ [e])]
  have hwaits : ∃ t, waitsFrom began (Daemon.run refusal refused cfg (pre ++ [e])).loop = some t ∧
      t + slack ≤ e.now + periodOf cfg + slack := by
    cases hl : (Daemon.run refusal refused cfg (pre ++ [e])).loop with
    | spawned p =>
      exact ⟨began, rfl, Nat.add_le_add_right (Nat.le_add_right_of_le (hbegan e hmem)) slack⟩
    | ticking p next => exact ⟨next, rfl, Nat.add_le_add_right (hpaced.next p next hl).2 slack⟩
    | panicked => exact absurd hl hpaced.alive
  obtain ⟨t, hwaits, ht⟩ := hwaits
  have hmakes : (Daemon.run refusal refused cfg (pre ++ [e])).loop ≠ .spawned 0 :=
    fun hl => hperiod (hpaced.first 0 hl).symm
  obtain ⟨a, g, b, hmid, hlim, hpass⟩ := next_pass (e.now + periodOf cfg + slack) hwaits ht hmakes
    mid f hlate hseg (by rw [hexec]; exact hruns)
  refine ⟨a, g, b, hmid, hlim, ?_⟩
  rw [hexec, hexec, run_state, ← List.append_assoc] at hpass
  exact hpass

def turnAt (now : Instant) : Event := ⟨now, .poll⟩

/-- A client sets a state with one rule. -/
def telling : Event :=
  ⟨5, .control (frame (ControlOp.codec.encode
    (.custom "state.set" (DesiredState.codec.encode ⟨[], [⟨"{}"⟩]⟩))))⟩

def told : List Event := [turnAt 0, telling, turnAt (10 ^ 9), turnAt (10 ^ 9 + 16)]

theorem told_punctual : Run.Along (Daemon.step (fun _ _ => "") (fun _ => "")) (Punctual 0 10)
    (Daemon.start ⟨1⟩) told := by
  simp only [told, Run.along_cons]
  refine ⟨?_, ?_, ?_, ?_, Run.along_nil _ _⟩
  all_goals decide +kernel

theorem told_enforced : ∃ a g b, [turnAt (10 ^ 9)] = a ++ g :: b ∧
    g.now ≤ 5 + periodOf ⟨1⟩ + 10 ∧
    (Daemon.run (fun _ _ => "") (fun _ => "") ⟨1⟩ ([turnAt 0] ++ [telling] ++ a ++ [g])).passes =
      (Daemon.run (fun _ _ => "") (fun _ => "") ⟨1⟩ ([turnAt 0] ++ [telling] ++ a)).passes ++
        [(g.now, inForce ([turnAt 0] ++ [telling] ++ a))] :=
  enforced_in_time (fun _ _ => "") (fun _ => "") ⟨1⟩ (by decide) 0 10 told (by decide)
    (fun _ _ => Nat.zero_le _) told_punctual [turnAt 0] [turnAt (10 ^ 9)] [] telling
    (turnAt (10 ^ 9 + 16)) rfl (by decide +kernel) (by decide)

end Hivebus.Proofs.Enforcement
