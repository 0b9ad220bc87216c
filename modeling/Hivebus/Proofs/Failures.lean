import Hivebus.Bus.Control
import Hivebus.Netop.Control
import Hivebus.Netgate.Control
import Hivebus.Imager.Control
import Hivebus.Pxeboot.Control

namespace Hivebus.Proofs.Failures
open Lib Proto

theorem bus_errors (ord : Table.Order UInt16 NodeInfo) (d : Bus.Daemon) (now : SystemTime) :
    ErrorsChangeNothing (Bus.controlPlaneTask ord d now) := by
  intro m op m' message h
  obtain ⟨reply, _, hp⟩ := Option.map_eq_some_iff.mp h
  cases hp
  rfl

theorem netop_errors (refusal : String → List UInt8 → String) :
    ErrorsChangeNothing (Netop.controlPlane refusal) := by
  apply dispatch_errors
  intro s tag payload s' message h
  simp only [Netop.custom] at h
  split at h
  · split at h
    · cases h
    · cases h; rfl
  · cases h; rfl

theorem netgate_errors (refusal : String → List UInt8 → String) :
    ErrorsChangeNothing (Netgate.controlPlane refusal) := by
  apply dispatch_errors
  intro s tag payload s' message h
  simp only [Netgate.custom] at h
  split at h
  · split at h
    · cases h
    · cases h; rfl
  · split at h
    · split at h
      · cases h
      · cases h
    · split at h
      · split at h
        · cases h
        · cases h; rfl
      · cases h; rfl

theorem imager_errors (ord : Table.Order String Imager.ImageEntry) :
    ErrorsChangeNothing (Imager.controlPlane ord) := by
  apply dispatch_errors
  intro catalog tag payload catalog' message h
  exact (Prod.mk.inj h).1.symm

/-- The one request of pxeboot that changes something is answered with `Ok`. -/
theorem pxeboot_errors (cfg : Pxeboot.Config) (ord : Pxeboot.Orders)
    (refusal : List UInt8 → String) :
    ErrorsChangeNothing (Pxeboot.controlPlane cfg ord refusal) := by
  intro s op s' message h
  obtain ⟨reply, hr, hp⟩ := Option.map_eq_some_iff.mp h
  cases he : Pxeboot.controlEvent op with
  | some e =>
    rw [Pxeboot.controlReply_of_event ord refusal s.boot he] at hr
    cases hr
    simp only [he] at hp
    cases hp
  | none =>
    simp only [he] at hp
    cases hp
    rfl

/-- A failed connection leaves the state as it was, whatever the state and the bytes. So
the daemon with the failures of its life left out goes through that life with the same
last state and the same ends of all other connections. -/
def FailuresChangeNothing (controlPlane : ρ → σ → ControlOp → Option (σ × ControlReply)) : Prop :=
  ∀ refusal : List UInt8 → String,
    (∀ env s stream, (connection (controlPlane env) refusal s stream).2.failed = true →
      (connection (controlPlane env) refusal s stream).1 = s) ∧
    ∀ (ε : Type) (step : σ → ε → σ) s es,
      history controlPlane refusal step s (withoutFailures controlPlane refusal step s es) =
        ((history controlPlane refusal step s es).1,
          (history controlPlane refusal step s es).2.filter (fun o => !o.failed))

theorem failuresChangeNothing_of_errors
    {controlPlane : ρ → σ → ControlOp → Option (σ × ControlReply)}
    (h : ∀ env, ErrorsChangeNothing (controlPlane env)) : FailuresChangeNothing controlPlane := by
  intro refusal
  constructor
  · intro env
    exact connection_failed (h env) refusal
  · intro ε step s es
    exact history_withoutFailures controlPlane refusal step h s es

/-- In each of the five daemons, in every state and for all bytes a client can send, a
frame that is dropped or answered with an error has changed nothing. What a handler reads
besides the state is the clock and the order its hash maps are walked in. -/
theorem failures_change_nothing :
    (∀ d, FailuresChangeNothing (fun env : Table.Order UInt16 NodeInfo × SystemTime =>
      Bus.controlPlaneTask env.1 d env.2)) ∧
    (∀ inner, FailuresChangeNothing (fun _ : Unit => Netop.controlPlane inner)) ∧
    (∀ inner, FailuresChangeNothing (fun _ : Unit => Netgate.controlPlane inner)) ∧
    FailuresChangeNothing Imager.controlPlane ∧
    (∀ cfg inner, FailuresChangeNothing (fun ord => Pxeboot.controlPlane cfg ord inner)) := by
  refine ⟨?_, ?_, ?_, ?_, ?_⟩
  · intro d
    exact failuresChangeNothing_of_errors (fun env => bus_errors env.1 d env.2)
  · intro inner
    exact failuresChangeNothing_of_errors (fun _ => netop_errors inner)
  · intro inner
    exact failuresChangeNothing_of_errors (fun _ => netgate_errors inner)
  · exact failuresChangeNothing_of_errors imager_errors
  · intro cfg inner
    exact failuresChangeNothing_of_errors (fun ord => pxeboot_errors cfg ord inner)

end Hivebus.Proofs.Failures
