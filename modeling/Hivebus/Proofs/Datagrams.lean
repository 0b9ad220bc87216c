import Hivebus.Pxeboot.Datagram

namespace Hivebus.Proofs.Datagrams
open Lib Proto Pxeboot

theorem index_of_drop {bs rest : List UInt8} {i : Nat} {b : UInt8} (h : bs.drop i = b :: rest) :
    index bs i = .ok b := by
  have hb : bs[i]? = some b := by
    rw [← List.head?_drop, h]
    rfl
  simp only [index, hb]

theorem drop_of_drop (xs : List UInt8) {bs ys : List UInt8} {i : Nat} (h : bs.drop i = xs ++ ys) :
    bs.drop (i + xs.length) = ys := by
  rw [← List.drop_drop, h, List.drop_left]

theorem lt_of_drop {bs rest : List UInt8} {i : Nat} {b : UInt8} (h : bs.drop i = b :: rest) :
    i < bs.length := by
  by_contra hi
  rw [List.drop_of_length_le (Nat.le_of_not_lt hi)] at h
  cases h

section Scan

variable {opts : List UInt8} {i : Nat} (msgType : UInt8)

theorem scan_nil (h : opts.drop i = []) : scanOptions opts i msgType = .ok msgType := by
  have hi : ¬ i < opts.length := Nat.not_lt.mpr (List.drop_eq_nil_iff.mp h)
  rw [scanOptions, dif_neg hi]
  rfl

theorem scan_end {xs : List UInt8} (h : opts.drop i = optEnd :: xs) :
    scanOptions opts i msgType = .ok msgType := by
  rw [scanOptions, dif_pos (lt_of_drop h), index_of_drop h]
  rfl

theorem scan_pad {xs : List UInt8} (h : opts.drop i = 0 :: xs) :
    scanOptions opts i msgType = scanOptions opts (i + 1) msgType := by
  rw [scanOptions, dif_pos (lt_of_drop h), index_of_drop h]
  rfl

variable {code len : UInt8} (hend : code ≠ optEnd) (hpad : code ≠ 0)

include hend hpad

theorem scan_last (h : opts.drop i = [code]) : scanOptions opts i msgType = .ok msgType := by
  have hl : i + 1 ≥ opts.length := by
    have := congrArg List.length h
    rw [List.length_drop, List.length_singleton] at this
    omega
  rw [scanOptions, dif_pos (lt_of_drop h), index_of_drop h]
  simp only [bind, Except.bind, if_neg hend, if_neg hpad, if_pos hl]
  rfl

/-- An option with its length byte: all that can go wrong is reading the message type. -/
theorem scan_option {rest : List UInt8} (h : opts.drop i = code :: len :: rest) :
    scanOptions opts i msgType =
      (if code = optMessageType ∧ len.toNat ≥ 1 then index opts (i + 2) else .ok msgType).bind
        (fun t => scanOptions opts (i + (2 + len.toNat)) t) := by
  have h1 : opts.drop (i + 1) = len :: rest := drop_of_drop [code] h
  have hl : ¬ i + 1 ≥ opts.length := Nat.not_le.mpr (lt_of_drop h1)
  rw [scanOptions, dif_pos (lt_of_drop h), index_of_drop h]
  simp only [bind, Except.bind, if_neg hend, if_neg hpad, if_neg hl, index_of_drop h1]
  split <;> rfl

end Scan

/-- Options that end inside the message type: pads and complete options, then the code of
the message type and a length that is not zero, then nothing. -/
inductive CutShort : List UInt8 → Prop where
  | here (len : UInt8) : len ≠ 0 → CutShort [optMessageType, len]
  | pad (xs : List UInt8) : CutShort xs → CutShort (0 :: xs)
  | option (code len : UInt8) (body xs : List UInt8) : code ≠ optEnd → code ≠ 0 →
      body.length = len.toNat → CutShort xs → CutShort (code :: len :: (body ++ xs))

/-- What is behind an option can only be cut short when all of the option is there. -/
theorem CutShort.behind {code len : UInt8} {rest : List UInt8} (h : CutShort (rest.drop len.toNat))
    (hend : code ≠ optEnd) (hpad : code ≠ 0) : CutShort (code :: len :: rest) := by
  have hlen : len.toNat ≤ rest.length := by
    by_contra hlt
    rw [List.drop_of_length_le (Nat.le_of_not_le hlt)] at h
    cases h
  have ho := CutShort.option code len (rest.take len.toNat) _ hend hpad
    (List.length_take_of_le hlen) h
  rwa [List.take_append_drop] at ho

theorem toNat_pos {b : UInt8} (h : b ≠ 0) : b.toNat ≥ 1 := by
  by_contra hz
  exact h (UInt8.toNat_inj.mp (Nat.lt_one_iff.mp (Nat.lt_of_not_le hz)))

theorem scan_cutShort {opts xs : List UInt8} (hc : CutShort xs) {i : Nat} (msgType : UInt8)
    (h : opts.drop i = xs) : ∃ e, scanOptions opts i msgType = .error e := by
  induction hc generalizing i msgType with
  | here len hlen =>
    have h2 : opts.drop (i + 2) = [] := drop_of_drop [optMessageType, len] h
    have hnone : opts[i + 2]? = none := by
      rw [← List.head?_drop, h2]
      rfl
    rw [scan_option msgType (by decide) (by decide) h, if_pos ⟨rfl, toNat_pos hlen⟩]
    simp only [index, hnone]
    exact ⟨_, rfl⟩
  | pad xs _ ih =>
    rw [scan_pad msgType h]
    exact ih msgType (drop_of_drop [0] h)
  | option code len body xs hend hpad hbody _ ih =>
    have hnext : opts.drop (i + (2 + len.toNat)) = xs := by
      have hd := drop_of_drop (code :: len :: body) h
      rw [List.length_cons, List.length_cons, hbody] at hd
      rw [← hd]
      congr 1
      omega
    rw [scan_option msgType hend hpad h]
    split
    · next hm =>
      cases body with
      | nil =>
        rw [List.length_nil] at hbody
        omega
      | cons b body =>
        have h2 : opts.drop (i + 2) = b :: (body ++ xs) := drop_of_drop [code, len] h
        rw [index_of_drop h2]
        exact ih b hnext
    · exact ih msgType hnext

/-- The scan fails nowhere else. -/
theorem cutShort_of_scan {opts : List UInt8} (n : Nat) {i : Nat} (hn : (opts.drop i).length ≤ n)
    {msgType : UInt8} {e : Panic} (h : scanOptions opts i msgType = .error e) :
    CutShort (opts.drop i) := by
  induction n generalizing i msgType with
  | zero =>
    rw [scan_nil msgType (List.length_eq_zero_iff.mp (Nat.le_zero.mp hn))] at h
    cases h
  | succ n ih =>
    match hd : opts.drop i with
    | [] =>
      rw [scan_nil msgType hd] at h
      cases h
    | code :: rest =>
      have h1 : opts.drop (i + 1) = rest := drop_of_drop [code] hd
      rw [hd, List.length_cons] at hn
      by_cases hend : code = optEnd
      · subst hend
        rw [scan_end msgType hd] at h
        cases h
      by_cases hpad : code = 0
      · subst hpad
        rw [scan_pad msgType hd] at h
        have hc := ih (by rw [h1]; omega) h
        rw [h1] at hc
        exact .pad rest hc
      match rest, hd, h1 with
      | [], hd, _ =>
        rw [scan_last msgType hend hpad hd] at h
        cases h
      | len :: rest, hd, _ =>
        have h2 : opts.drop (i + 2) = rest := drop_of_drop [code, len] hd
        have hnext : opts.drop (i + (2 + len.toNat)) = rest.drop len.toNat := by
          rw [← h2, List.drop_drop]
          congr 1
          omega
        have hbound : (rest.drop len.toNat).length ≤ n := by
          rw [List.length_drop]
          rw [List.length_cons] at hn
          omega
        have hlater : ∀ t, scanOptions opts (i + (2 + len.toNat)) t = .error e →
            CutShort (code :: len :: rest) := by
          intro t ht
          have hc := ih (by rw [hnext]; exact hbound) ht
          rw [hnext] at hc
          exact hc.behind hend hpad
        rw [scan_option msgType hend hpad hd] at h
        split at h
        · next hm =>
          match rest, h2 with
          | [], _ =>
            obtain ⟨rfl, hlen⟩ := hm
            refine .here len ?_
            rintro rfl
            exact absurd hlen (by decide)
          | b :: rest, h2 =>
            rw [index_of_drop h2] at h
            exact hlater b h
        · exact hlater msgType h

theorem scan_iff (opts : List UInt8) :
    (∃ e, scanOptions opts 0 0 = .error e) ↔ CutShort opts := by
  constructor
  · intro h
    obtain ⟨e, he⟩ := h
    have hc := cutShort_of_scan _ (Nat.le_refl _) he
    rwa [List.drop_zero] at hc
  · intro h
    exact scan_cutShort h 0 List.drop_zero

theorem index_ok (bs : List UInt8) (i : Nat) (h : i < bs.length) : ∃ b, index bs i = .ok b := by
  refine ⟨bs[i], ?_⟩
  simp only [index, List.getElem?_eq_getElem h]

theorem slice_ok (bs : List UInt8) (start stop : Nat) (h : start ≤ stop ∧ stop ≤ bs.length) :
    slice bs start stop = .ok ((bs.drop start).take (stop - start)) := if_pos h

/-- Bytes the server takes for a DHCP message: the fixed fields, then the cookie. -/
def Cookie (data : List UInt8) : Prop :=
  240 ≤ data.length ∧ (data.drop 236).take 4 = dhcpMagic

theorem readRequest_no_cookie {data : List UInt8} (h : ¬ Cookie data) :
    readRequest data = .ok none := by
  unfold readRequest
  by_cases hl : data.length < 240
  · rw [if_pos hl]
    rfl
  · have hm : (data.drop 236).take 4 ≠ dhcpMagic := by
      intro hm
      exact h ⟨Nat.le_of_not_lt hl, hm⟩
    rw [if_neg hl, slice_ok _ _ _ ⟨by decide, Nat.le_of_not_lt hl⟩]
    exact if_pos hm

/-- Every access to the fixed fields is in range, so only the options are left. A message of
any other type than the two of a client is no request. -/
theorem readRequest_cookie {data : List UInt8} (h : Cookie data) :
    ∃ f, (∀ t, t ≠ dhcpDiscover → t ≠ dhcpRequest → f t = none) ∧
      readRequest data = (scanOptions (data.drop 240) 0 0).map f := by
  obtain ⟨hl, hm⟩ := h
  obtain ⟨b4, h4⟩ := index_ok data 4 (by omega)
  obtain ⟨b5, h5⟩ := index_ok data 5 (by omega)
  obtain ⟨b6, h6⟩ := index_ok data 6 (by omega)
  obtain ⟨b7, h7⟩ := index_ok data 7 (by omega)
  obtain ⟨b10, h10⟩ := index_ok data 10 (by omega)
  obtain ⟨b11, h11⟩ := index_ok data 11 (by omega)
  have hmagic : slice data 236 240 = .ok dhcpMagic := by
    rw [slice_ok _ _ _ ⟨by decide, hl⟩, ← hm]
  have hchaddr := slice_ok data 28 44 ⟨by decide, by omega⟩
  have hmac := slice_ok (chaddrOf ((data.drop 28).take (44 - 28))).1 0 6
    ⟨by decide, by rw [(chaddrOf _).2]; decide⟩
  have hopts : slice data 240 data.length = .ok (data.drop 240) := by
    rw [slice_ok _ _ _ ⟨hl, Nat.le_refl _⟩, List.take_of_length_le (by rw [List.length_drop])]
  refine ⟨fun msgType =>
    if msgType = dhcpDiscover then some ⟨.discover, UInt32.ofNat (ofBeBytes [b4, b5, b6, b7]),
      UInt16.ofNat (ofBeBytes [b10, b11]), chaddrOf ((data.drop 28).take (44 - 28))⟩
    else if msgType = dhcpRequest then some ⟨.request, UInt32.ofNat (ofBeBytes [b4, b5, b6, b7]),
      UInt16.ofNat (ofBeBytes [b10, b11]), chaddrOf ((data.drop 28).take (44 - 28))⟩
    else none, fun t hd hr => (if_neg hd).trans (if_neg hr), ?_⟩
  have hlt : ¬ data.length < 240 := Nat.not_lt.mpr hl
  simp only [readRequest, hlt, hmagic, h4, h5, h6, h7, h10, h11, hchaddr, hmac, hopts, bind,
    Except.bind, ne_eq, not_true_eq_false, ↓reduceIte]
  cases scanOptions (data.drop 240) 0 0 with
  | error e => rfl
  | ok msgType =>
    simp only [Except.map]
    split
    · rfl
    · split
      · rfl
      · rfl

/-- Only the reading of the datagram can fail. -/
theorem receive_ok_iff (cfg : Config) (s : State) (datagram : List UInt8) :
    (∃ s', receive cfg s datagram = .ok s') ↔
      ∃ q, readRequest (datagram.take dhcpBufferSize) = .ok q := by
  unfold receive
  cases readRequest (datagram.take dhcpBufferSize) with
  | error e =>
    constructor
    · intro hex
      obtain ⟨s', hs⟩ := hex
      cases hs
    · intro hex
      obtain ⟨q, hq⟩ := hex
      cases hq
  | ok q =>
    constructor
    · intro _
      exact ⟨q, rfl⟩
    · intro _
      cases q with
      | none => exact ⟨s, rfl⟩
      | some q => exact ⟨step cfg s (.recv q), rfl⟩

theorem readRequest_ok_iff (data : List UInt8) :
    (∃ q, readRequest data = .ok q) ↔ ¬ (Cookie data ∧ CutShort (data.drop 240)) := by
  rw [← scan_iff]
  by_cases hc : Cookie data
  · obtain ⟨f, _, hf⟩ := readRequest_cookie hc
    rw [hf]
    cases scanOptions (data.drop 240) 0 0 with
    | error e => simp [Except.map, hc]
    | ok t => simp [Except.map]
  · rw [readRequest_no_cookie hc]
    simp [hc]

/-- The server gets through a datagram except one that it takes for a DHCP message and that
ends between the length and the value of a message type. -/
theorem receive_iff (cfg : Config) (s : State) (datagram : List UInt8) :
    (∃ s', receive cfg s datagram = .ok s') ↔
      ¬ (Cookie (datagram.take dhcpBufferSize) ∧
        CutShort ((datagram.take dhcpBufferSize).drop 240)) :=
  (receive_ok_iff cfg s datagram).trans (readRequest_ok_iff _)

/-- A message that stops after the code and the length of its message type. -/
def cutMessage : List UInt8 := List.replicate 236 0 ++ dhcpMagic ++ [optMessageType, 1]

/-- One such datagram of 242 bytes stops the task. -/
theorem cut_message_fatal :
    ¬ ∀ (cfg : Config) (s : State) (datagram : List UInt8),
      datagram.length ≤ dhcpBufferSize → ∃ s', receive cfg s datagram = .ok s' := by
  intro h
  have hlen : cutMessage.length = 242 := rfl
  have htake : cutMessage.take dhcpBufferSize = cutMessage :=
    List.take_of_length_le (by rw [hlen]; decide)
  have hok := h seedConfig start cutMessage (by rw [hlen]; decide)
  rw [receive_ok_iff, readRequest_ok_iff, htake] at hok
  exact hok ⟨⟨by rw [hlen]; decide, rfl⟩, .here 1 (by decide)⟩

end Hivebus.Proofs.Datagrams
