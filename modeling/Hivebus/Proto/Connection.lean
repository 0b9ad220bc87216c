import Hivebus.Proto.Control

namespace Hivebus.Proto
open Lib

/-- How a connection to a control socket ends for the client. -/
inductive Outcome where
  | dropped (why : ReadError)
  | exited
  | answered (reply : ControlReply)
deriving DecidableEq

/-- The frame is dropped, or the answer to it is an error. -/
def Outcome.failed : Outcome → Bool
  | .dropped _ => true
  | .answered (.error _) => true
  | .answered _ | .exited => false

/-- What the client is sent; a reply that does not fit an envelope is not sent. -/
def Outcome.written : Outcome → Option (List UInt8)
  | .dropped _ | .exited => none
  | .answered reply => (encodeControl ControlReply.codec reply).toOption

/-- One connection of a daemon whose state is `s`: the envelope, then the request in it,
then `controlPlane`, which gives the next state with the reply, or nothing when the process
exits. `refusal` is the text of the decoder's error. -/
def connection (controlPlane : σ → ControlOp → Option (σ × ControlReply))
    (refusal : List UInt8 → String) (s : σ) (stream : List UInt8) : σ × Outcome :=
  match readEnvelope stream with
  | .error why => (s, .dropped why)
  | .ok (payload, _) =>
    match decodeControl ControlOp.codec payload with
    | none => (s, .answered (.error (refusal payload)))
    | some op =>
      match controlPlane s op with
      | none => (s, .exited)
      | some (s', reply) => (s', .answered reply)

/-- What netop, netgate and imager do with a request: pings and requests to shut down are the
same everywhere, `custom` has the tags a daemon knows, and nothing else is supported. -/
def dispatch (custom : σ → String → List UInt8 → σ × ControlReply) (s : σ) :
    ControlOp → Option (σ × ControlReply)
  | .ping => some (s, .ok)
  | .custom tag payload => some (custom s tag payload)
  | .shutdown => none
  | .getNodes | .getMaster | .stepDown => some (s, .error "unsupported op")

/-- The bytes of a connection are those `serve` writes for its replies. -/
theorem connection_written (controlPlane : σ → ControlOp → Option (σ × ControlReply))
    (refusal : List UInt8 → String) (s : σ) (stream : List UInt8) :
    (connection controlPlane refusal s stream).2.written =
      serve (fun op => (controlPlane s op).map Prod.snd) refusal stream := by
  cases hr : readEnvelope stream with
  | error why => simp only [connection, serve, hr, Outcome.written]
  | ok p =>
    cases hd : decodeControl ControlOp.codec p.1 with
    | none => simp only [connection, serve, hr, hd, Outcome.written, Option.bind_some]
    | some op =>
      cases hc : controlPlane s op with
      | none => simp only [connection, serve, hr, hd, hc, Outcome.written, Option.map_none,
          Option.bind_none]
      | some q => simp only [connection, serve, hr, hd, hc, Outcome.written, Option.map_some,
          Option.bind_some]

/-- A request that is answered with an error leaves the state as it is. -/
def ErrorsChangeNothing (controlPlane : σ → ControlOp → Option (σ × ControlReply)) : Prop :=
  ∀ s op s' message, controlPlane s op = some (s', .error message) → s' = s

theorem dispatch_errors {custom : σ → String → List UInt8 → σ × ControlReply}
    (h : ∀ s tag payload s' message, custom s tag payload = (s', .error message) → s' = s) :
    ErrorsChangeNothing (dispatch custom) := by
  intro s op s' message hd
  cases op with
  | custom tag payload => exact h s tag payload s' message (Option.some.inj hd)
  | ping => cases hd
  | shutdown => cases hd
  | getNodes => cases hd; rfl
  | getMaster => cases hd; rfl
  | stepDown => cases hd; rfl

/-- Every connection that fails then leaves the state as it is, at whatever byte it fails. -/
theorem connection_failed {controlPlane : σ → ControlOp → Option (σ × ControlReply)}
    (h : ErrorsChangeNothing controlPlane) (refusal : List UInt8 → String) (s : σ)
    (stream : List UInt8) (hf : (connection controlPlane refusal s stream).2.failed = true) :
    (connection controlPlane refusal s stream).1 = s := by
  cases hr : readEnvelope stream with
  | error why => simp only [connection, hr]
  | ok p =>
    cases hd : decodeControl ControlOp.codec p.1 with
    | none => simp only [connection, hr, hd]
    | some op =>
      cases hc : controlPlane s op with
      | none => simp only [connection, hr, hd, hc]
      | some q =>
        obtain ⟨s', reply⟩ := q
        simp only [connection, hr, hd, hc] at hf ⊢
        cases reply with
        | error message => exact h s op s' message hc
        | ok => cases hf
        | nodes ns => cases hf
        | master n => cases hf
        | data tag payload => cases hf

section History

variable {ρ σ ε : Type} (controlPlane : ρ → σ → ControlOp → Option (σ × ControlReply))
  (refusal : List UInt8 → String) (step : σ → ε → σ)

/-- A life of a daemon: events of its own tasks and connections in the order they reach the
state, up to the request that makes it exit. A connection brings what its handler reads
besides the state. Gives the last state and how each connection ended. -/
def history : σ → List (ε ⊕ (ρ × List UInt8)) → σ × List Outcome
  | s, [] => (s, [])
  | s, .inl e :: es => history (step s e) es
  | s, .inr (env, stream) :: es =>
    match connection (controlPlane env) refusal s stream with
    | (s', .exited) => (s', [.exited])
    | (s', o) => ((history s' es).1, o :: (history s' es).2)

/-- The same life without the connections that failed in it. -/
def withoutFailures : σ → List (ε ⊕ (ρ × List UInt8)) → List (ε ⊕ (ρ × List UInt8))
  | _, [] => []
  | s, .inl e :: es => .inl e :: withoutFailures (step s e) es
  | s, .inr (env, stream) :: es =>
    let (s', o) := connection (controlPlane env) refusal s stream
    if o.failed then withoutFailures s' es else .inr (env, stream) :: withoutFailures s' es

/-- Nobody notices the failures: leaving them out gives the same last state, and every
other connection ends as it did. -/
theorem history_withoutFailures (h : ∀ env, ErrorsChangeNothing (controlPlane env)) (s : σ)
    (es : List (ε ⊕ (ρ × List UInt8))) :
    history controlPlane refusal step s (withoutFailures controlPlane refusal step s es) =
      ((history controlPlane refusal step s es).1,
        (history controlPlane refusal step s es).2.filter (fun o => !o.failed)) := by
  induction es generalizing s with
  | nil => rfl
  | cons e es ih =>
    cases e with
    | inl e => exact ih (step s e)
    | inr c =>
      obtain ⟨env, stream⟩ := c
      have hf := connection_failed (h env) refusal s stream
      cases hc : connection (controlPlane env) refusal s stream with
      | mk s' o =>
        rw [hc] at hf
        cases ho : o.failed with
        | true =>
          have hs : s' = s := hf ho
          have hx : o ≠ .exited := by
            intro he
            rw [he] at ho
            cases ho
          simp [withoutFailures, history, hc, ho, hs, ih s]
        | false =>
          cases o with
          | exited => simp [withoutFailures, history, hc, ho]
          | dropped why => cases ho
          | answered reply => simp [withoutFailures, history, hc, ho, ih s']

end History

end Hivebus.Proto
