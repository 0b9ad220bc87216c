import Hivebus.Bus.NodeId
import Hivebus.Lib.Split
import Hivebus.Pxeboot.Boot
import Hivebus.Vagrant.Agent

namespace Hivebus.Proofs.NodeIds
open Lib Proto Bus Pxeboot Vagrant

/-- The two digits of an octet. -/
def digits (b : UInt8) : List Char := [hexDigit (b.toNat / 16), hexDigit (b.toNat % 16)]

/-- A character that none of the readers takes for anything but a part of its word. -/
structure Plain (c : Char) : Prop where
  visible : isWhitespace c = false
  newline : c ≠ '\n'
  nul : c ≠ '\x00'

theorem hexDigit_plain : ∀ d < 16, isWhitespace (hexDigit d) = false ∧ hexDigit d ≠ '\n' ∧
    hexDigit d ≠ '\x00' ∧ hexDigit d ≠ ':' ∧ hexDigit d ≠ '+' := by decide

theorem mem_digits {b : UInt8} {c : Char} (h : c ∈ digits b) : ∃ d < 16, c = hexDigit d := by
  have hb := b.toNat_lt
  rcases List.mem_cons.mp h with rfl | h
  · exact ⟨b.toNat / 16, by omega, rfl⟩
  · exact ⟨b.toNat % 16, by omega, List.mem_singleton.mp h⟩

theorem colon_digits (b : UInt8) : ':' ∉ digits b := by
  intro h
  obtain ⟨d, hd, hc⟩ := mem_digits h
  obtain ⟨_, _, _, hcolon, _⟩ := hexDigit_plain d hd
  exact hcolon hc.symm

theorem plain_digits {b : UInt8} {c : Char} (h : c ∈ digits b) : Plain c := by
  obtain ⟨d, hd, rfl⟩ := mem_digits h
  obtain ⟨hw, hn, hz, _⟩ := hexDigit_plain d hd
  exact ⟨hw, hn, hz⟩

theorem plain_text (octets : List UInt8) {c : Char} (h : c ∈ [':'].intercalate (octets.map digits)) :
    Plain c := by
  rcases Split.mem_intercalate h with h | ⟨word, hw, h⟩
  · rw [List.mem_singleton.mp h]
    exact ⟨by decide, by decide, by decide⟩
  · obtain ⟨b, _, rfl⟩ := List.mem_map.mp hw
    exact plain_digits h

theorem words_text {octets : List UInt8} (h : octets ≠ []) :
    ([':'].intercalate (octets.map digits)).splitOn ':' = octets.map digits := by
  apply List.splitOn_intercalate
  · intro word hw
    obtain ⟨b, _, rfl⟩ := List.mem_map.mp hw
    exact colon_digits b
  · simpa using h

/-- What is appended goes, and nothing else. -/
theorem rdropWhile_append {p : Char → Bool} {s t : List Char} (hs : ∀ c ∈ s, p c = false)
    (ht : ∀ c ∈ t, p c = true) : (s ++ t).rdropWhile p = s := by
  have ht' : ∀ c ∈ t.reverse, p c = true := by simpa using ht
  have hs' : s.reverse.dropWhile p = s.reverse := by
    cases hr : s.reverse with
    | nil => rfl
    | cons c cs =>
      have hc : c ∈ s := List.mem_reverse.mp (hr ▸ List.mem_cons_self)
      rw [List.dropWhile_cons_of_neg (by simp [hs c hc])]
  rw [List.rdropWhile, List.reverse_append, List.dropWhile_append_of_pos ht', hs',
    List.reverse_reverse]

section Text

variable {s : List Char} (hs : ∀ c ∈ s, Plain c) (n : Nat)

include hs

theorem trim_text : trim (s ++ List.replicate n '\n') = s := by
  have hws : ∀ c ∈ List.replicate n '\n', isWhitespace c = true := by
    intro c hc
    rw [(List.mem_replicate.mp hc).2]
    decide
  cases s with
  | nil =>
    rw [trim, List.nil_append, List.dropWhile_eq_nil_iff.mpr hws]
    rfl
  | cons c cs =>
    have hc := (hs c List.mem_cons_self).visible
    rw [trim, List.cons_append, List.dropWhile_cons_of_neg (by simp [hc]), ← List.cons_append]
    exact rdropWhile_append (fun c hc => (hs c hc).visible) hws

theorem commandSubstitution_text : commandSubstitution (s ++ List.replicate n '\n') = s := by
  have hfilter : (s ++ List.replicate n '\n').filter (· ≠ '\x00') = s ++ List.replicate n '\n' := by
    rw [List.filter_eq_self]
    intro c hc
    rcases List.mem_append.mp hc with hc | hc
    · simpa using (hs c hc).nul
    · rw [(List.mem_replicate.mp hc).2]
      decide
  rw [commandSubstitution, hfilter]
  apply rdropWhile_append
  · intro c hc
    simpa using (hs c hc).newline
  · intro c hc
    simpa using (List.mem_replicate.mp hc).2

theorem takeWhile_text : s.takeWhile (· ≠ '\n') = s := by
  rw [List.takeWhile_eq_self_iff]
  intro c hc
  simpa using (hs c hc).newline

end Text

/-- The parser of the standard library reads an octet back. -/
theorem u8FromStrRadix_digits (b : UInt8) : u8FromStrRadix (digits b) = some b := by
  have hb := b.toNat_lt
  have hb' : b.toNat < 256 := hb
  have hplus : hexDigit (b.toNat / 16) ≠ '+' := (hexDigit_plain _ (by omega)).2.2.2.2
  have hhi := hexValue_hexDigit (b.toNat / 16) (by omega)
  have hlo := hexValue_hexDigit (b.toNat % 16) (by omega)
  have hfirst : 0 * 16 + b.toNat / 16 < 256 := by omega
  have hn : (0 * 16 + b.toNat / 16) * 16 + b.toNat % 16 = b.toNat := by omega
  simp only [u8FromStrRadix, digits, List.head?_cons, Option.some.injEq, hplus, ↓reduceIte,
    reduceCtorEq, List.foldlM_cons, List.foldlM_nil, hhi, hlo, Option.bind_some, hfirst, hn, hb',
    Option.bind_eq_bind, Option.pure_def, Option.map_some, UInt8.ofNat_toNat]

/-- So does the arithmetic of the shell. -/
theorem arithmetic16_digits (b : UInt8) : arithmetic16 (digits b) = some b.toUInt64 := by
  have hb := b.toNat_lt
  have hhi := hexValue_hexDigit (b.toNat / 16) (by omega)
  have hlo := hexValue_hexDigit (b.toNat % 16) (by omega)
  have hn : (0 * 16 + UInt64.ofNat (b.toNat / 16)) * 16 + UInt64.ofNat (b.toNat % 16) =
      b.toUInt64 := by
    apply UInt64.toNat_inj.mp
    simp only [UInt64.toNat_add, UInt64.toNat_mul, UInt64.toNat_ofNat', UInt8.toNat_toUInt64]
    have h16 : UInt64.toNat 16 = 16 := rfl
    have h0 : UInt64.toNat 0 = 0 := rfl
    rw [h16, h0]
    omega
  simp only [arithmetic16, digits, reduceCtorEq, ↓reduceIte, List.foldlM_cons, List.foldlM_nil, hhi,
    hlo, Option.map_some, Option.bind_eq_bind, Option.bind_some, hn, Option.pure_def]

theorem mapM_digits (octets : List UInt8) :
    (octets.map digits).mapM u8FromStrRadix = some octets := by
  induction octets with
  | nil => rfl
  | cons b octets ih =>
    rw [List.map_cons, List.mapM_cons, u8FromStrRadix_digits, ih]
    rfl

/-- The address file of an interface: the address, and newlines behind it. -/
def addressFile (mac : Mac) (n : Nat) : String := fmtMac mac ++ String.ofList (List.replicate n '\n')

theorem addressFile_toList (mac : Mac) (n : Nat) :
    (addressFile mac n).toList =
      [':'].intercalate (mac.octets.map digits) ++ List.replicate n '\n' := by
  rw [addressFile, String.toList_append, String.toList_ofList, fmtMac_toList]
  rfl

theorem octets_ne_nil (mac : Mac) : mac.octets ≠ [] := by
  intro h
  have := mac.size
  rw [h] at this
  cases this

/-- The id of a node, from the bytes of its address. -/
def nodeId (mac : Mac) : UInt16 := nodeIdFromMac ⟨mac.octets, mac.size⟩

theorem deriveNodeId_address (mac : Mac) (n : Nat) {readToString : String → Option String}
    {iface : String}
    (h : readToString ("/sys/class/net/" ++ iface ++ "/address") = some (addressFile mac n)) :
    deriveNodeId readToString iface = .ok (nodeId mac) := by
  have htrim := trim_text (fun c => plain_text mac.octets (c := c)) n
  simp only [deriveNodeId, h, addressFile_toList, htrim, words_text (octets_ne_nil mac), mapM_digits,
    mac.size, ↓reduceDIte]
  rfl

theorem readOctets_text (mac : Mac) :
    readOctets ([':'].intercalate (mac.octets.map digits)) = mac.octets.map digits := by
  have hlast : (mac.octets.map digits).getLast? ≠ some [] := by
    intro hl
    obtain ⟨b, _, hb⟩ := List.mem_map.mp (List.mem_of_getLast? hl)
    cases hb
  rw [readOctets, takeWhile_text (fun c => plain_text mac.octets (c := c)),
    words_text (octets_ne_nil mac)]
  exact if_neg hlast

/-- The fold of the shell, on 64-bit numbers, is that of the library. -/
theorem shell_fold (hi lo : UInt8) :
    ((hi.toUInt64 &&& (0xFF : UInt64)) <<< (8 : UInt64)) ||| (lo.toUInt64 &&& (0xFF : UInt64)) =
      ((hi.toUInt16 <<< 8) ||| lo.toUInt16).toUInt64 := by
  apply UInt64.toNat_inj.mp
  have hhi := hi.toNat_lt
  have hlo : lo.toNat < 2 ^ 8 := lo.toNat_lt
  have h8 : UInt64.toNat 8 % 64 = 8 := rfl
  have hmask : UInt64.toNat 0xFF = 2 ^ 8 - 1 := rfl
  have hshift : hi.toNat <<< 8 % 2 ^ 64 = hi.toNat <<< 8 := by
    rw [Nat.shiftLeft_eq]
    omega
  rw [UInt16.toNat_toUInt64, bytePair_toNat]
  simp only [UInt64.toNat_or, UInt64.toNat_shiftLeft, UInt64.toNat_and, UInt8.toNat_toUInt64, hmask,
    Nat.and_two_pow_sub_one_eq_mod, h8, Nat.mod_eq_of_lt hhi, Nat.mod_eq_of_lt hlo, hshift]
  rw [← Nat.shiftLeft_add_eq_or_of_lt hlo, Nat.shiftLeft_eq]
  omega

theorem nodeIdRaw_address (mac : Mac) (n : Nat) :
    nodeIdRaw (addressFile mac n) = some (nodeId mac).toUInt64 := by
  have hsub := commandSubstitution_text (fun c => plain_text mac.octets (c := c)) n
  have hread := readOctets_text mac
  have hne : ¬ [':'].intercalate (mac.octets.map digits) = [] := by
    intro hnil
    have hwords := words_text (octets_ne_nil mac)
    rw [hnil] at hwords
    have := congrArg List.length hwords
    rw [List.length_map, mac.size] at this
    cases this
  simp only [nodeIdRaw, addressFile_toList, hsub, hne, ↓reduceIte, hread]
  obtain ⟨octets, hsize⟩ := mac
  match octets, hsize with
  | [a, b, c, d, e, f], hsize =>
    simp only [List.map_cons, List.map_nil, List.getElem?_cons_zero, List.getElem?_cons_succ,
      Option.bind_some, arithmetic16_digits, Option.bind_eq_bind, Option.pure_def]
    exact congrArg some (shell_fold (a ^^^ c ^^^ e) (b ^^^ d ^^^ f))

/-- Two addresses that differ in the last two octets at most have one id only if they are
one. -/
theorem nodeId_neighbours {mac mac' : Mac} (hfront : mac.octets.take 4 = mac'.octets.take 4)
    (hid : nodeId mac = nodeId mac') : mac = mac' := by
  obtain ⟨octets, hsize⟩ := mac
  obtain ⟨octets', hsize'⟩ := mac'
  match octets, hsize, octets', hsize' with
  | [a, b, c, d, e, f], hsize, [a', b', c', d', e', f'], hsize' =>
    simp only [List.take_succ_cons, List.take_zero, List.cons.injEq, and_true] at hfront
    obtain ⟨rfl, rfl, rfl, rfl⟩ := hfront
    have hn : 256 * (a ^^^ c ^^^ e).toNat + (b ^^^ d ^^^ f).toNat =
        256 * (a ^^^ c ^^^ e').toNat + (b ^^^ d ^^^ f').toNat := by
      rw [← bytePair_toNat, ← bytePair_toNat]
      exact congrArg UInt16.toNat hid
    have hlo := (b ^^^ d ^^^ f).toNat_lt
    have hlo' := (b ^^^ d ^^^ f').toNat_lt
    have he : a ^^^ c ^^^ e = a ^^^ c ^^^ e' := UInt8.toNat_inj.mp (by omega)
    have hf : b ^^^ d ^^^ f = b ^^^ d ^^^ f' := UInt8.toNat_inj.mp (by omega)
    rw [UInt8.xor_right_inj] at he hf
    subst he hf
    rfl

/-- The daemon and the provisioning script read out of the address file of an interface the
id that the bytes of the address give, and neighbours have different ids. -/
theorem node_ids_agree :
    (∀ (mac : Mac) (n : Nat),
      (∀ readToString iface,
        readToString ("/sys/class/net/" ++ iface ++ "/address") = some (addressFile mac n) →
        deriveNodeId readToString iface = .ok (nodeId mac)) ∧
      nodeIdRaw (addressFile mac n) = some (nodeId mac).toUInt64) ∧
    ∀ mac mac' : Mac, mac.octets.take 4 = mac'.octets.take 4 → nodeId mac = nodeId mac' →
      mac = mac' := by
  constructor
  · intro mac n
    constructor
    · intro readToString iface h
      exact deriveNodeId_address mac n h
    · exact nodeIdRaw_address mac n
  · intro mac mac' hfront hid
    exact nodeId_neighbours hfront hid

end Hivebus.Proofs.NodeIds
