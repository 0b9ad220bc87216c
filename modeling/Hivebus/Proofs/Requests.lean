import Hivebus.Pxeboot.Checked
import Hivebus.Proofs.Datagrams

namespace Hivebus.Proofs.Requests
open Lib Codec Pxeboot Datagrams

/-- A read request as the protocol has it: the opcode, a name and a mode, each a text that
has no zero byte and is followed by one, and then whatever a client adds. -/
structure IsRrq (packet : List UInt8) (filename mode : String) : Prop where
  shape : ∃ rest, packet = [0, 1] ++ utf8 filename ++ [0] ++ utf8 mode ++ [0] ++ rest
  filename_zero : 0 ∉ utf8 filename
  mode_zero : 0 ∉ utf8 mode

/-- The first zero byte ends what is in front of it. -/
theorem findIdx_zero_iff {bs : List UInt8} {n : Nat} :
    bs.findIdx? (· == 0) = some n ↔ ∃ pre rest, bs = pre ++ 0 :: rest ∧ 0 ∉ pre ∧ pre.length = n := by
  constructor
  · intro h
    obtain ⟨hn, hz, hbefore⟩ := List.findIdx?_eq_some_iff_getElem.mp h
    refine ⟨bs.take n, bs.drop (n + 1), ?_, ?_, List.length_take_of_le (Nat.le_of_lt hn)⟩
    · have hz : bs[n] = 0 := by simpa using hz
      rw [← hz, ← List.drop_eq_getElem_cons hn, List.take_append_drop]
    · intro hm
      obtain ⟨j, hj, hjn⟩ := List.mem_iff_getElem.mp hm
      rw [List.length_take] at hj
      rw [List.getElem_take] at hjn
      have := hbefore j (by omega)
      simp [hjn] at this
  · intro h
    obtain ⟨pre, rest, rfl, hz, rfl⟩ := h
    have hpre : pre.findIdx? (· == 0) = none := by
      rw [List.findIdx?_eq_none_iff]
      intro b hb
      rw [beq_eq_false_iff_ne]
      rintro rfl
      exact hz hb
    rw [List.findIdx?_append, hpre, List.findIdx?_cons]
    simp

theorem drop_pre (pre rest : List UInt8) : (pre ++ 0 :: rest).drop (pre.length + 1) = rest := by
  rw [List.append_cons]
  exact List.drop_left' (by simp)

theorem isRrq_iff {packet : List UInt8} {filename mode : String} :
    IsRrq packet filename mode ↔ (∃ rest, packet = 0 :: 1 ::
      (utf8 filename ++ 0 :: (utf8 mode ++ 0 :: rest))) ∧ 0 ∉ utf8 filename ∧ 0 ∉ utf8 mode := by
  constructor
  · intro h
    obtain ⟨⟨rest, rfl⟩, hf, hm⟩ := h
    exact ⟨⟨rest, by simp⟩, hf, hm⟩
  · intro h
    obtain ⟨⟨rest, rfl⟩, hf, hm⟩ := h
    exact ⟨⟨rest, by simp⟩, hf, hm⟩

/-- A packet that is long enough and starts with the opcode starts with its two bytes. -/
theorem opcode_iff (packet : List UInt8) :
    ¬ (packet.length < 4 ∨ ofBeBytes (packet.take 2) ≠ tftpRrq) ↔
      ∃ payload, packet = 0 :: 1 :: payload ∧ 2 ≤ payload.length := by
  constructor
  · intro h
    rw [not_or, not_not] at h
    match packet with
    | [] => simp at h
    | [_] => simp at h
    | a :: b :: payload =>
      obtain ⟨hlen, hop⟩ := h
      have ha := a.toNat_lt
      have hb := b.toNat_lt
      have hn : b.toNat + 256 * a.toNat = 1 := by
        simpa [ofBeBytes, ofLeBytes, tftpRrq] using hop
      have ha : a = 0 := UInt8.toNat_inj.mp (by rw [UInt8.toNat_zero]; omega)
      have hb : b = 1 := UInt8.toNat_inj.mp (by rw [UInt8.toNat_one]; omega)
      refine ⟨payload, by rw [ha, hb], ?_⟩
      simp only [List.length_cons] at hlen
      omega
  · intro h
    obtain ⟨payload, rfl, hlen⟩ := h
    rw [not_or, not_not]
    refine ⟨?_, rfl⟩
    simp only [List.length_cons]
    omega

theorem parse_complete {packet : List UInt8} {filename mode : String}
    (h : IsRrq packet filename mode) :
    parseTftpRrq packet = some (filename, toAsciiLowercase mode) := by
  obtain ⟨⟨rest, rfl⟩, hf, hm⟩ := isRrq_iff.mp h
  have hlen : 2 ≤ (utf8 filename ++ 0 :: (utf8 mode ++ 0 :: rest)).length := by
    simp only [List.length_append, List.length_cons]
    omega
  have hop := (opcode_iff _).mpr ⟨_, rfl, hlen⟩
  have hfile := findIdx_zero_iff.mpr ⟨utf8 filename, utf8 mode ++ 0 :: rest, rfl, hf, rfl⟩
  have hmode := findIdx_zero_iff.mpr ⟨utf8 mode, rest, rfl, hm, rfl⟩
  rw [parseTftpRrq, if_neg hop]
  simp only [List.drop_succ_cons, List.drop_zero, hfile, Option.bind_some, drop_pre, hmode,
    List.take_left, ofUtf8_utf8, Option.map_some]

theorem parse_sound {packet : List UInt8} {filename lower : String}
    (h : parseTftpRrq packet = some (filename, lower)) :
    ∃ mode, IsRrq packet filename mode ∧ lower = toAsciiLowercase mode := by
  rw [parseTftpRrq] at h
  split at h
  · cases h
  · next hop =>
    obtain ⟨payload, rfl, _⟩ := (opcode_iff packet).mp hop
    simp only [List.drop_succ_cons, List.drop_zero] at h
    obtain ⟨fileEnd, hfile, hbehind⟩ := Option.bind_eq_some_iff.mp h
    obtain ⟨modeLen, hmode, htexts⟩ := Option.bind_eq_some_iff.mp hbehind
    obtain ⟨f, hf, hpair⟩ := Option.bind_eq_some_iff.mp htexts
    obtain ⟨mode, hm, hread⟩ := Option.map_eq_some_iff.mp hpair
    obtain ⟨name, behind, rfl, hname, rfl⟩ := findIdx_zero_iff.mp hfile
    rw [drop_pre] at hmode hm
    obtain ⟨modeBytes, rest, rfl, hmz, rfl⟩ := findIdx_zero_iff.mp hmode
    rw [List.take_left] at hf hm
    cases hread
    have hf := utf8_of_ofUtf8 hf
    have hm := utf8_of_ofUtf8 hm
    subst hf hm
    exact ⟨mode, isRrq_iff.mpr ⟨⟨rest, rfl⟩, hname, hmz⟩, rfl⟩

/-- There is one way to cut bytes at their first zero byte. -/
theorem zero_cut_inj {pre pre' rest rest' : List UInt8} (he : pre ++ 0 :: rest = pre' ++ 0 :: rest')
    (hz : 0 ∉ pre) (hz' : 0 ∉ pre') : pre = pre' ∧ rest = rest' := by
  have hlen := findIdx_zero_iff.mpr ⟨pre, rest, rfl, hz, rfl⟩
  rw [findIdx_zero_iff.mpr ⟨pre', rest', he, hz', rfl⟩] at hlen
  obtain ⟨hpre, hrest⟩ := List.append_inj he (Option.some.inj hlen).symm
  exact ⟨hpre, (List.cons.inj hrest).2⟩

theorem isRrq_unique {packet : List UInt8} {f f' m m' : String} (h : IsRrq packet f m)
    (h' : IsRrq packet f' m') : f = f' ∧ m = m' := by
  obtain ⟨⟨rest, he⟩, hf, hm⟩ := isRrq_iff.mp h
  obtain ⟨⟨rest', he'⟩, hf', hm'⟩ := isRrq_iff.mp h'
  rw [he] at he'
  obtain ⟨hname, hrest⟩ := zero_cut_inj (List.cons.inj (List.cons.inj he').2).2 hf hf'
  obtain ⟨hmode, _⟩ := zero_cut_inj hrest hm hm'
  exact ⟨utf8_inj hname, utf8_inj hmode⟩

/-- No slice of the parser is out of range. -/
theorem parse_checked (packet : List UInt8) :
    Checked.parseTftpRrq packet = .ok (parseTftpRrq packet) := by
  match packet with
  | [] => rfl
  | [_] => rfl
  | a :: b :: payload =>
    by_cases hshort : (a :: b :: payload).length < 4
    · rw [parseTftpRrq, if_pos (.inl hshort), Checked.parseTftpRrq, if_pos hshort]
      rfl
    · have htake : (a :: b :: payload).take 2 = [a, b] := rfl
      have hpayload : slice (a :: b :: payload) 2 (a :: b :: payload).length = .ok payload := by
        rw [slice_ok _ _ _ ⟨by simp, Nat.le_refl _⟩]
        simp
      have h0 : index (a :: b :: payload) 0 = .ok a := rfl
      have h1 : index (a :: b :: payload) 1 = .ok b := rfl
      by_cases hop : ofBeBytes [a, b] ≠ tftpRrq
      · rw [parseTftpRrq, htake, if_pos (.inr hop)]
        simp only [Checked.parseTftpRrq, hshort, ↓reduceIte, h0, h1, bind, Except.bind, if_pos hop]
        rfl
      · rw [parseTftpRrq, htake, if_neg (not_or.mpr ⟨hshort, hop⟩)]
        simp only [Checked.parseTftpRrq, hshort, ↓reduceIte, h0, h1, bind, Except.bind, if_neg hop,
          hpayload, List.drop_succ_cons, List.drop_zero]
        cases hfile : payload.findIdx? (· == 0) with
        | none => rfl
        | some fileEnd =>
          obtain ⟨name, behind, rfl, _, rfl⟩ := findIdx_zero_iff.mp hfile
          have hget : Checked.getFrom (name ++ 0 :: behind) (name.length + 1) = some behind := by
            rw [Checked.getFrom, if_pos (by simp), drop_pre]
          simp only [Option.bind, hget, drop_pre]
          cases hmode : behind.findIdx? (· == 0) with
          | none => rfl
          | some modeLen =>
            obtain ⟨mode, rest, rfl, _, rfl⟩ := findIdx_zero_iff.mp hmode
            have hname : slice (name ++ 0 :: (mode ++ 0 :: rest)) 0 name.length = .ok name := by
              rw [slice_ok _ _ _ ⟨Nat.zero_le _, by simp⟩]
              simp
            have hmodes : slice (name ++ 0 :: (mode ++ 0 :: rest)) (name.length + 1)
                (mode.length + (name.length + 1)) = .ok mode := by
              rw [slice_ok _ _ _ ⟨by omega, by simp; omega⟩, drop_pre]
              simp
            simp only [hname, hmodes, List.take_left]
            cases ofUtf8 name with
            | none => rfl
            | some filename =>
              cases ofUtf8 mode with
              | none => rfl
              | some mode => rfl

/-- The parser takes exactly the read requests there are, reads the one name and the one mode
that are in them, and never steps out of a packet. -/
theorem parse_iff (packet : List UInt8) :
    (∃ r, Checked.parseTftpRrq packet = .ok r) ∧
    (∀ filename lower, Checked.parseTftpRrq packet = .ok (some (filename, lower)) ↔
      ∃ mode, IsRrq packet filename mode ∧ lower = toAsciiLowercase mode) ∧
    ∀ f m f' m', IsRrq packet f m → IsRrq packet f' m' → f = f' ∧ m = m' := by
  refine ⟨⟨_, parse_checked packet⟩, ?_, ?_⟩
  · intro filename lower
    rw [parse_checked, Except.ok.injEq]
    constructor
    · exact parse_sound
    · intro hex
      obtain ⟨mode, h, rfl⟩ := hex
      exact parse_complete h
  · intro f m f' m' h h'
    exact isRrq_unique h h'

end Hivebus.Proofs.Requests
