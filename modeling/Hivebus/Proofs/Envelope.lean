import Hivebus.Proto.Control

namespace Hivebus.Proofs.Envelope
open Lib Proto

/-- The frame of a payload whose length fits the two length bytes. -/
def frame (payload : List UInt8) : List UInt8 :=
  controlFrameMarker :: beBytes 2 payload.length ++ payload

theorem encode_ok_iff {c : Codec α} {v : α} {f : List UInt8} :
    encodeControl c v = .ok f ↔ c.size v < 2 ^ 16 ∧ f = frame (c.encode v) := by
  simp only [encodeControl, c.length_encode]
  split
  · next h =>
    simp only [Except.ok.injEq, frame, c.length_encode]
    exact ⟨fun he => ⟨h, he.symm⟩, fun he => he.2.symm⟩
  · next h =>
    constructor
    · intro he
      cases he
    · intro he
      exact absurd he.1 h

/-- The length bytes of a frame are read back as the length of its payload, and the
limit on that length is the only check that can fail. -/
theorem read_frame (payload rest : List UInt8) (hl : payload.length < 2 ^ 16) :
    readEnvelope (frame payload ++ rest) =
      if payload.length > maxControlPayload then .error (.tooLarge payload.length)
      else .ok (payload, rest) := by
  have hb : beBytes 2 payload.length =
      [UInt8.ofNat (payload.length / 256), UInt8.ofNat payload.length] := rfl
  have hn : ofBeBytes [UInt8.ofNat (payload.length / 256), UInt8.ofNat payload.length] =
      payload.length := by
    rw [← hb]
    exact ofBeBytes_beBytes hl
  simp only [frame, hb, List.cons_append, List.nil_append, readEnvelope, hn, ne_eq,
    not_true_eq_false, ↓reduceIte, takeBytes_append]

theorem decode_encoded (c : Codec α) (v : α) (h : c.size v < 2 ^ 64) :
    decodeControl c (c.encode v) = some v := by
  have he := c.decode_encode v [] h
  rw [List.append_nil] at he
  simp [decodeControl, he]

/-- What the encoder emits for `v` the reader takes off the stream exactly, and the
payload it returns decodes to `v`. -/
def RoundTrips (c : Codec α) (v : α) : Prop :=
  ∀ f, encodeControl c v = .ok f →
    ∀ rest, ∃ payload, readEnvelope (f ++ rest) = .ok (payload, rest) ∧
      decodeControl c payload = some v

theorem round_trips_of_size {c : Codec α} {v : α} (h : c.size v ≤ maxControlPayload) :
    RoundTrips c v := by
  intro f hf rest
  obtain ⟨hs, rfl⟩ := encode_ok_iff.mp hf
  refine ⟨c.encode v, ?_, decode_encoded c v (by omega)⟩
  rw [read_frame _ _ (by simpa using hs), c.length_encode, if_neg (by omega)]

theorem not_round_trips {c : Codec α} {v : α} (hl : maxControlPayload < c.size v)
    (hu : c.size v < 2 ^ 16) : ¬ RoundTrips c v := by
  intro h
  obtain ⟨payload, hr, _⟩ := h _ (encode_ok_iff.mpr ⟨hu, rfl⟩) []
  rw [read_frame _ _ (by simpa using hu), c.length_encode, if_pos hl] at hr
  cases hr

/-- A frame is lost between encoder and reader exactly for the payload lengths that
the two length bytes can carry and the reader refuses. -/
theorem round_trips_iff (c : Codec α) (v : α) :
    RoundTrips c v ↔ ¬ (maxControlPayload < c.size v ∧ c.size v < 2 ^ 16) := by
  constructor
  · intro h hs
    exact not_round_trips hs.1 hs.2 h
  · intro h
    by_cases hs : c.size v ≤ maxControlPayload
    · exact round_trips_of_size hs
    · intro f hf
      obtain ⟨hu, _⟩ := encode_ok_iff.mp hf
      exact absurd ⟨by omega, hu⟩ h

theorem control_round_trip (op : ControlOp) (reply : ControlReply) :
    (RoundTrips ControlOp.codec op ↔
      ¬ (maxControlPayload < ControlOp.codec.size op ∧ ControlOp.codec.size op < 2 ^ 16)) ∧
    (RoundTrips ControlReply.codec reply ↔
      ¬ (maxControlPayload < ControlReply.codec.size reply ∧
        ControlReply.codec.size reply < 2 ^ 16)) :=
  ⟨round_trips_iff ControlOp.codec op, round_trips_iff ControlReply.codec reply⟩

theorem custom_size (tag : String) (payload : List UInt8) :
    ControlOp.codec.size (.custom tag payload) =
      1 + (varintSize tag.utf8ByteSize + tag.utf8ByteSize +
        (varintSize payload.length + payload.length)) := by
  rw [← Codec.size_string, ← Codec.size_bytes]
  rfl

/-- A custom request with 60 KiB of data is encoded and then refused. -/
theorem large_custom_refused :
    ¬ RoundTrips ControlOp.codec (.custom "" (List.replicate (60 * 1024) 0)) := by
  have hs : ControlOp.codec.size (.custom "" (List.replicate (60 * 1024) 0)) = 61445 := by
    rw [custom_size, List.length_replicate]
    rfl
  apply not_round_trips
  · rw [hs]
    decide
  · rw [hs]
    decide

end Hivebus.Proofs.Envelope
