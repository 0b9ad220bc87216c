import Hivebus.Lib.Tlv
import Hivebus.Proofs.Datagrams

namespace Hivebus.Proofs.Options
open Lib Tlv Pxeboot Datagrams

/-- Options are tagged values: code 0 is padding and code 255 the end. -/
def marks : Marks := ⟨0, optEnd⟩

/-- A message type that says something. -/
def announces (x : Field marks) : Bool := x.code = optMessageType ∧ x.data ≠ []

/-- The message type after some more options, given the one before them: the first byte of
the last one that says something. -/
def messageTypeAfter (msgType : UInt8) (items : List (Item marks)) : UInt8 :=
  (((fields items).filter announces).getLast?.bind (fun x => x.data.head?)).getD msgType

/-- What the options of a message say its type is; 0 when they do not say it. -/
def messageType (items : List (Item marks)) : UInt8 := messageTypeAfter 0 items

theorem fields_field (x : Field marks) (items : List (Item marks)) :
    fields (.field x :: items) = x :: fields items := rfl

theorem messageTypeAfter_other {x : Field marks} (h : announces x = false) (msgType : UInt8)
    (items : List (Item marks)) :
    messageTypeAfter msgType (.field x :: items) = messageTypeAfter msgType items := by
  simp only [messageTypeAfter, fields_field, List.filter_cons, h, Bool.false_eq_true, ↓reduceIte]

theorem messageTypeAfter_announces {x : Field marks} {t : UInt8} {rest : List UInt8}
    (hcode : x.code = optMessageType) (hdata : x.data = t :: rest) (msgType : UInt8)
    (items : List (Item marks)) :
    messageTypeAfter msgType (.field x :: items) = messageTypeAfter t items := by
  have ha : announces x = true := by simp [announces, hcode, hdata]
  simp only [messageTypeAfter, fields_field, List.filter_cons, ha, ↓reduceIte]
  cases hl : ((fields items).filter announces).getLast? with
  | none =>
    rw [List.getLast?_eq_none_iff.mp hl]
    simp [hdata]
  | some y =>
    -- the last of them has data, so the type in front of it does not matter
    have hy := List.mem_of_getLast? hl
    have hne : y.data ≠ [] := by
      have := (List.mem_filter.mp hy).2
      simp only [announces, decide_eq_true_eq] at this
      exact this.2
    obtain ⟨u, us, hu⟩ := List.exists_cons_of_ne_nil hne
    rw [List.getLast?_cons, hl]
    simp [hu]

section Step

variable {opts : List UInt8} {i : Nat} (msgType : UInt8) {items : List (Item marks)} {tail : Tail}

/-- One turn of the loop takes one option, whatever is in it. -/
theorem scan_field (x : Field marks) (h : opts.drop i = x.bytes ++ area items tail) :
    scanOptions opts i msgType =
      scanOptions opts (i + x.bytes.length) (messageTypeAfter msgType [.field x]) := by
  have hlen : i + (2 + (UInt8.ofNat x.data.length).toNat) = i + x.bytes.length := by
    rw [x.length_byte, Field.bytes, List.length_cons, List.length_cons]
    omega
  rw [scan_option msgType x.not_stop x.not_pad h, hlen, x.length_byte]
  split
  · next hm =>
    obtain ⟨t, rest, hdata⟩ := List.exists_cons_of_length_pos hm.2
    have h2 : opts.drop (i + 2) = t :: (rest ++ area items tail) := by
      have hd := drop_of_drop [x.code, UInt8.ofNat x.data.length] h
      rwa [hdata] at hd
    rw [index_of_drop h2, messageTypeAfter_announces hm.1 hdata]
    rfl
  · next hm =>
    have ha : announces x = false := by
      simp only [announces, decide_eq_false_iff_not]
      intro h
      exact hm ⟨h.1, List.length_pos_iff.mpr h.2⟩
    rw [messageTypeAfter_other ha]
    rfl

theorem scan_item (item : Item marks) (h : opts.drop i = item.bytes ++ area items tail) :
    scanOptions opts i msgType =
      scanOptions opts (i + item.bytes.length) (messageTypeAfter msgType [item]) := by
  cases item with
  | pad => exact scan_pad msgType h
  | field x => exact scan_field msgType x h

theorem scan_tail (h : opts.drop i = tail.bytes marks) :
    scanOptions opts i msgType = .ok msgType := by
  cases tail with
  | buffer => exact scan_nil msgType h
  | stop rest => exact scan_end msgType h

end Step

theorem messageTypeAfter_cons (msgType : UInt8) (item : Item marks) (items : List (Item marks)) :
    messageTypeAfter msgType (item :: items) =
      messageTypeAfter (messageTypeAfter msgType [item]) items := by
  cases item with
  | pad => rfl
  | field x =>
    cases hx : announces x with
    | false => rw [messageTypeAfter_other hx, messageTypeAfter_other hx]; rfl
    | true =>
      simp only [announces, decide_eq_true_eq] at hx
      obtain ⟨t, rest, hdata⟩ := List.exists_cons_of_ne_nil hx.2
      rw [messageTypeAfter_announces hx.1 hdata, messageTypeAfter_announces hx.1 hdata]
      rfl

/-- The loop comes from any point between two options to any later one. -/
theorem scan_items {opts : List UInt8} {i : Nat} (msgType : UInt8) (pre items : List (Item marks))
    {tail : Tail} (h : opts.drop i = area (pre ++ items) tail) :
    scanOptions opts i msgType =
      scanOptions opts (i + (pre.flatMap Item.bytes).length) (messageTypeAfter msgType pre) := by
  induction pre generalizing i msgType with
  | nil => rfl
  | cons item pre ih =>
    rw [List.cons_append, area_cons] at h
    rw [scan_item msgType item h, ih _ (drop_of_drop item.bytes h), ← messageTypeAfter_cons,
      List.flatMap_cons, List.length_append, Nat.add_assoc]

theorem scan_area (items : List (Item marks)) (tail : Tail) :
    scanOptions (area items tail) 0 0 = .ok (messageType items) := by
  have h : (area items tail).drop 0 = area (items ++ []) tail := by
    rw [List.append_nil, List.drop_zero]
  rw [scan_items 0 items [] h, Nat.zero_add]
  exact scan_tail _ List.drop_left

def saysType : Item marks → Bool
  | .pad => false
  | .field x => announces x

/-- The options that say the message type, alone. -/
def onlyMessageTypes (items : List (Item marks)) : List (Item marks) := items.filter saysType

theorem fields_onlyMessageTypes (items : List (Item marks)) :
    fields (onlyMessageTypes items) = (fields items).filter announces := by
  induction items with
  | nil => rfl
  | cons item items ih =>
    cases item with
    | pad => exact ih
    | field x =>
      have hx : saysType (.field x) = announces x := rfl
      rw [fields_field, List.filter_cons, ← ih, onlyMessageTypes, List.filter_cons, hx]
      split
      · rfl
      · rfl

theorem messageType_onlyMessageTypes (items : List (Item marks)) :
    messageType (onlyMessageTypes items) = messageType items := by
  rw [messageType, messageType, messageTypeAfter, fields_onlyMessageTypes, List.filter_filter]
  simp only [Bool.and_self]
  rfl

/-- For every well-formed option area the scan finds the message type. It stops over between
any two options, with the type of those behind it, so it never looks for a code inside the
data of one; and all other options, with all their data, may as well not be there. -/
theorem scan_finds_type (items : List (Item marks)) (tail : Tail) :
    scanOptions (area items tail) 0 0 = .ok (messageType items) ∧
    (∀ pre post, items = pre ++ post → scanOptions (area items tail) 0 0 =
      scanOptions (area items tail) (pre.flatMap Item.bytes).length (messageType pre)) ∧
    ∀ tail', scanOptions (area (onlyMessageTypes items) tail') 0 0 = .ok (messageType items) := by
  refine ⟨scan_area items tail, ?_, ?_⟩
  · rintro pre post rfl
    have h := scan_items 0 pre post (i := 0) (List.drop_zero (l := area (pre ++ post) tail))
    rwa [Nat.zero_add] at h
  · intro tail'
    rw [scan_area, messageType_onlyMessageTypes]

end Hivebus.Proofs.Options
