import Hivebus.Lib.Run
import Hivebus.Proto.Connection
import Hivebus.Proofs.Envelope

namespace Hivebus.Proofs.Services
open Lib Proto Envelope

/-- The request a client's bytes carry, if they carry one. -/
def requestOf (stream : List UInt8) : Option ControlOp :=
  match readEnvelope stream with
  | .error _ => none
  | .ok (payload, _) => decodeControl ControlOp.codec payload

/-- What a client sends for a request that has room is taken for that request. -/
theorem requestOf_frame {op : ControlOp} (h : ControlOp.codec.size op ≤ maxControlPayload) :
    requestOf (frame (ControlOp.codec.encode op)) = some op := by
  have hu : ControlOp.codec.size op < 2 ^ 16 := Nat.lt_of_le_of_lt h (by decide)
  have hr := read_frame (ControlOp.codec.encode op) [] (by rwa [Codec.length_encode])
  rw [List.append_nil, Codec.length_encode, if_neg (Nat.not_lt.mpr h)] at hr
  simp only [requestOf, hr]
  exact decode_encoded ControlOp.codec op (Nat.lt_trans hu (by decide))

section Obey

variable {σ : Type} (controlPlane : σ → ControlOp → Option (σ × ControlReply))

/-- What a request makes of the state. -/
def obey (s : σ) (op : ControlOp) : σ := ((controlPlane s op).map Prod.fst).getD s

/-- A process only ever exits for a request to shut down. -/
def ExitsOnShutdown : Prop := ∀ s op, controlPlane s op = none ↔ op = .shutdown

variable {controlPlane}

/-- What a connection does to a daemon, read off the request it carries. -/
theorem connection_request (hexit : ExitsOnShutdown controlPlane) (refusal : List UInt8 → String)
    (s : σ) (stream : List UInt8) :
    match requestOf stream with
    | none => (connection controlPlane refusal s stream).1 = s ∧
        (connection controlPlane refusal s stream).2 ≠ .exited
    | some .shutdown => connection controlPlane refusal s stream = (s, .exited)
    | some op => (connection controlPlane refusal s stream).1 = obey controlPlane s op ∧
        (connection controlPlane refusal s stream).2 ≠ .exited := by
  unfold connection requestOf
  cases readEnvelope stream with
  | error why => exact ⟨rfl, nofun⟩
  | ok p =>
    cases hd : decodeControl ControlOp.codec p.1 with
    | none =>
      simp only [hd]
      exact ⟨trivial, nofun⟩
    | some op =>
      cases hc : controlPlane s op with
      | none =>
        cases (hexit s op).mp hc
        simp only [hd, hc]
      | some q =>
        obtain ⟨s', reply⟩ := q
        have hop : op ≠ .shutdown := by
          intro he
          rw [(hexit s op).mpr he] at hc
          cases hc
        cases op with
        | shutdown => exact absurd rfl hop
        | _ =>
          simp only [hd, hc, obey, Option.map_some, Option.getD_some]
          exact ⟨trivial, nofun⟩

theorem dispatch_exits {custom : σ → String → List UInt8 → σ × ControlReply} :
    ExitsOnShutdown (dispatch custom) := by
  intro s op
  cases op <;> simp [dispatch]

end Obey

/-- The request of an event, where `stream` gives the bytes of the events that are connections. -/
def requestIn {ε : Type} (stream : ε → Option (List UInt8)) (e : ε) : Option ControlOp :=
  (stream e).bind requestOf

/-- The requests of a life, up to the one that ends it. -/
def commands {ε : Type} (stream : ε → Option (List UInt8)) (es : List ε) : List ControlOp :=
  (es.filterMap (requestIn stream)).takeWhile (fun op => op ≠ .shutdown)

/-- A daemon around a control plane: connections do to its state what the control plane
does, nothing else touches it, and when a connection ends the process nothing follows. -/
structure Serves {δ ε σ : Type} (controlPlane : σ → ControlOp → Option (σ × ControlReply))
    (refusal : List UInt8 → String) (step : δ → ε → δ) (state : δ → σ) (exited : δ → Bool)
    (stream : ε → Option (List UInt8)) : Prop where
  ended : ∀ d e, exited d = true → step d e = d
  idle : ∀ d e, exited d = false → stream e = none →
    state (step d e) = state d ∧ exited (step d e) = false
  told : ∀ d e bs, exited d = false → stream e = some bs →
    (connection controlPlane refusal (state d) bs).2 ≠ .exited →
    state (step d e) = (connection controlPlane refusal (state d) bs).1 ∧
      exited (step d e) = false
  ends : ∀ d e bs, exited d = false → stream e = some bs →
    (connection controlPlane refusal (state d) bs).2 = .exited →
    state (step d e) = state d ∧ exited (step d e) = true

section Serves

variable {δ ε σ : Type} {controlPlane : σ → ControlOp → Option (σ × ControlReply)}
  {refusal : List UInt8 → String} {step : δ → ε → δ} {state : δ → σ} {exited : δ → Bool}
  {stream : ε → Option (List UInt8)}

/-- What an event does to a daemon, read off the request in it. -/
theorem Serves.step_request (h : Serves controlPlane refusal step state exited stream)
    (hexit : ExitsOnShutdown controlPlane) {d : δ} (hd : exited d = false) (e : ε) :
    match requestIn stream e with
    | none => state (step d e) = state d ∧ exited (step d e) = false
    | some .shutdown => state (step d e) = state d ∧ exited (step d e) = true
    | some op => state (step d e) = obey controlPlane (state d) op ∧ exited (step d e) = false := by
  unfold requestIn
  cases hs : stream e with
  | none => exact h.idle d e hd hs
  | some bs =>
    have hc := connection_request hexit refusal (state d) bs
    simp only [Option.bind_some]
    cases hr : requestOf bs with
    | none =>
      rw [hr] at hc
      obtain ⟨hstate, hrun⟩ := h.told d e bs hd hs hc.2
      exact ⟨hstate.trans hc.1, hrun⟩
    | some op =>
      rw [hr] at hc
      cases op with
      | shutdown => exact h.ends d e bs hd hs (congrArg Prod.snd hc)
      | _ =>
        obtain ⟨hstate, hrun⟩ := h.told d e bs hd hs hc.2
        exact ⟨hstate.trans hc.1, hrun⟩

/-- The daemon refines the control plane run on the requests alone. -/
theorem Serves.exec_state (h : Serves controlPlane refusal step state exited stream)
    (hexit : ExitsOnShutdown controlPlane) {d : δ} (hd : exited d = false) (es : List ε) :
    state (Run.exec step d es) =
      Run.exec (obey controlPlane) (state d) (commands stream es) := by
  induction es generalizing d with
  | nil => rfl
  | cons e es ih =>
    have he := h.step_request hexit hd e
    rw [Run.exec_cons, commands]
    cases hr : requestIn stream e with
    | none =>
      rw [hr] at he
      rw [ih he.2, he.1, List.filterMap_cons_none hr]
      rfl
    | some op =>
      rw [hr] at he
      rw [List.filterMap_cons_some hr]
      by_cases hop : op = .shutdown
      · subst hop
        have hstays := Run.exec_invariant (I := fun d' => d' = step d e)
          (fun d' e' hd' => by rw [hd']; exact h.ended _ e' he.2) rfl es
        rw [hstays, he.1]
        rfl
      · have hgo : state (step d e) = obey controlPlane (state d) op ∧
            exited (step d e) = false := by
          cases op with
          | shutdown => exact absurd rfl hop
          | _ => exact he
        rw [ih hgo.2, hgo.1, List.takeWhile_cons_of_pos (by simp [hop])]
        rfl

end Serves

end Hivebus.Proofs.Services
