import Hivebus.Pxeboot.Checked
import Hivebus.Proofs.Options

namespace Hivebus.Proofs.ReplyBytes
open Lib Tlv Proto Codec Pxeboot Datagrams Options

/-- A message of the protocol, its options in the order they stand in. -/
structure Message where
  op : UInt8
  htype : UInt8
  hlen : UInt8
  hops : UInt8
  xid : UInt32
  secs : UInt16
  flags : UInt16
  ciaddr : Ipv4Addr
  yiaddr : Ipv4Addr
  siaddr : Ipv4Addr
  giaddr : Ipv4Addr
  chaddr : List UInt8
  sname : List UInt8
  file : List UInt8
  options : List (UInt8 × List UInt8)

/-- Reads a message field by field, in the order and with the widths of RFC 2131. The options
have to end with the end mark. -/
def decodeMessage : List UInt8 → Option Message
  | op :: htype :: hlen :: hops :: bs => do
    let (xid, bs) ← takeBytes 4 bs
    let (secs, bs) ← takeBytes 2 bs
    let (flags, bs) ← takeBytes 2 bs
    let (ciaddr, bs) ← takeBytes 4 bs
    let (yiaddr, bs) ← takeBytes 4 bs
    let (siaddr, bs) ← takeBytes 4 bs
    let (giaddr, bs) ← takeBytes 4 bs
    let (chaddr, bs) ← takeBytes 16 bs
    let (sname, bs) ← takeBytes 64 bs
    let (file, bs) ← takeBytes 128 bs
    let (cookie, bs) ← takeBytes 4 bs
    if cookie = dhcpMagic then
      let options ← decode marks bs
      return {
        op, htype, hlen, hops, chaddr, sname, file, options
        xid := UInt32.ofNat (ofBeBytes xid)
        secs := UInt16.ofNat (ofBeBytes secs)
        flags := UInt16.ofNat (ofBeBytes flags)
        ciaddr := .ofOctets ciaddr
        yiaddr := .ofOctets yiaddr
        siaddr := .ofOctets siaddr
        giaddr := .ofOctets giaddr }
    else none
  | _ => none

theorem takeBytes_bind {α : Type} {k : Nat} {f : List UInt8 × List UInt8 → Option α}
    (rest xs : List UInt8) (h : xs.length = k) : (takeBytes k (xs ++ rest) >>= f) = f (xs, rest) := by
  rw [takeBytes_append rest h]
  rfl

/-- Bytes filled up with zeros to a width. -/
def padded (n : Nat) (bs : List UInt8) : List UInt8 := bs ++ List.replicate (n - bs.length) 0

theorem length_padded {n : Nat} {bs : List UInt8} (h : bs.length ≤ n) : (padded n bs).length = n := by
  rw [padded, List.length_append, List.length_replicate]
  omega

theorem length_copyAt {i n : Nat} {bs pkt : List UInt8} (hn : pkt.length = n)
    (h : i + bs.length ≤ n) : (copyAt i bs pkt).length = n := by
  simp only [copyAt, List.length_append, List.length_take, List.length_drop]
  omega

@[simp] theorem length_octets (a : Ipv4Addr) : a.octets.length = 4 := length_beBytes _ _

/-- Writing behind all that has been written so far, with a gap of zeros or without. -/
theorem copyAt_zeros (gap rest : Nat) {i n : Nat} {pre bs : List UInt8} (hi : pre.length + gap = i)
    (hn : gap + (bs.length + rest) = n) :
    copyAt i bs (pre ++ List.replicate n 0) =
      pre ++ (List.replicate gap 0 ++ bs) ++ List.replicate rest 0 := by
  have htake : (pre ++ List.replicate n 0).take i = pre ++ List.replicate gap 0 := by
    rw [List.take_append, List.take_of_length_le (by omega), List.take_replicate]
    congr 2
    omega
  have hdrop : (pre ++ List.replicate n 0).drop (i + bs.length) = List.replicate rest 0 := by
    rw [List.drop_append, List.drop_of_length_le (by omega), List.nil_append, List.drop_replicate]
    congr 1
    omega
  rw [copyAt, htake, hdrop, List.append_assoc pre]

/-- A copy of as many bytes as its place has, inside the packet. -/
theorem copy_fits {pkt : List UInt8} (bs : List UInt8) (start stop : Nat) (hp : pkt.length = 236)
    (hb : start + bs.length = stop) (hs : stop ≤ 236) :
    Checked.copyFromSlice pkt start stop bs = .ok (copyAt start bs pkt) ∧
      (copyAt start bs pkt).length = 236 := by
  refine ⟨?_, length_copyAt hp (by omega)⟩
  rw [Checked.copyFromSlice, if_pos (by omega), if_pos (by omega)]

theorem slice_front (bs : List UInt8) (n : Nat) :
    slice bs 0 (min bs.length n) = .ok (bs.take (min bs.length n)) := by
  rw [slice_ok _ _ _ ⟨Nat.zero_le _, Nat.min_le_left _ _⟩, List.drop_zero, Nat.sub_zero]

section Reply

variable (op : UInt8) (xid : UInt32) (chaddr : List UInt8) (yiaddr siaddr subnet : Ipv4Addr)
  (gateway : Option Ipv4Addr) (leaseSecs : UInt32) (bootFile : String)

/-- The part of a boot file name that fits its field with a zero byte behind it. -/
def bootName : List UInt8 := (utf8 bootFile).take 127

theorem length_bootName : (bootName bootFile).length ≤ 127 := List.length_take_le _ _

/-- The message a reply is meant to be. -/
def replyMessage : Message where
  op := 2
  htype := 1
  hlen := 6
  hops := 0
  xid := xid
  secs := 0
  flags := 0
  ciaddr := ⟨0⟩
  yiaddr := yiaddr
  siaddr := siaddr
  giaddr := ⟨0⟩
  chaddr := padded 16 (chaddr.take 16)
  sname := List.replicate 64 0
  file := padded 128 (bootName bootFile)
  options := [(53, [op]), (54, siaddr.octets), (1, subnet.octets)] ++
    (gateway.map (fun gw => (3, gw.octets))).toList ++
    [(51, beBytes 4 leaseSecs.toNat), (66, siaddr.octets), (67, bootName bootFile)]

/-- The fixed fields of a reply, one behind the other. -/
def fixedFields : List UInt8 :=
  2 :: 1 :: 6 :: 0 :: (beBytes 4 xid.toNat ++ (List.replicate 2 0 ++ (List.replicate 2 0 ++
    (List.replicate 4 0 ++ (yiaddr.octets ++ (siaddr.octets ++ (List.replicate 4 0 ++
      (padded 16 (chaddr.take 16) ++ (List.replicate 64 0 ++ padded 128 (bootName bootFile))))))))))

/-- The copies of the source write them into their places. -/
theorem copied_fields :
    copyAt 108 (bootName bootFile) (copyAt 28 (chaddr.take 16) (copyAt 20 siaddr.octets
      (copyAt 16 yiaddr.octets (copyAt 4 (beBytes 4 xid.toNat)
        (copyAt 0 [2, 1, 6, 0] (List.replicate 236 0)))))) =
      fixedFields xid chaddr yiaddr siaddr bootFile := by
  have hch : (chaddr.take 16).length ≤ 16 := List.length_take_le _ _
  have hname := length_bootName bootFile
  have hstart : copyAt 0 [2, 1, 6, 0] (List.replicate 236 0) =
      [2, 1, 6, 0] ++ List.replicate 232 0 := rfl
  have hgap : List.replicate (80 - (chaddr.take 16).length) (0 : UInt8) =
      List.replicate (16 - (chaddr.take 16).length) 0 ++ List.replicate 64 0 := by
    rw [List.replicate_append_replicate]
    congr 1
    omega
  have height : List.replicate 8 (0 : UInt8) =
      List.replicate 2 0 ++ (List.replicate 2 0 ++ List.replicate 4 0) := rfl
  rw [hstart, copyAt_zeros 0 228, copyAt_zeros 8 216, copyAt_zeros 0 212,
    copyAt_zeros 4 (208 - (chaddr.take 16).length),
    copyAt_zeros (80 - (chaddr.take 16).length) (128 - (bootName bootFile).length), hgap, height]
  · simp only [fixedFields, padded, List.append_assoc, List.cons_append, List.replicate_zero,
      List.nil_append]
  -- what is left are the widths of the fields
  all_goals try simp only [List.length_append, List.length_replicate, length_octets, length_beBytes,
    List.length_cons, List.length_nil]
  all_goals omega

/-- An option that is an address. -/
def addressOption (code : UInt8) (hpad : code ≠ marks.pad) (hstop : code ≠ marks.stop)
    (a : Ipv4Addr) : Item marks :=
  .field ⟨code, a.octets, hpad, hstop, by rw [length_octets]; decide⟩

/-- The options of a reply. -/
def replyItems : List (Item marks) :=
  [.field ⟨53, [op], by decide, by decide, by rw [List.length_singleton]; decide⟩,
    addressOption 54 (by decide) (by decide) siaddr,
    addressOption 1 (by decide) (by decide) subnet] ++
  (gateway.map (addressOption 3 (by decide) (by decide))).toList ++
  [.field ⟨51, beBytes 4 leaseSecs.toNat, by decide, by decide, by rw [length_beBytes]; decide⟩,
    addressOption 66 (by decide) (by decide) siaddr,
    .field ⟨67, bootName bootFile, by decide, by decide,
      Nat.lt_of_le_of_lt (length_bootName bootFile) (by decide)⟩]

theorem length_replyItems :
    (replyItems op siaddr subnet gateway leaseSecs bootFile).length ≤ 7 := by
  cases gateway with
  | none => exact Nat.le_succ 6
  | some gw => exact Nat.le_refl 7

theorem fields_replyItems :
    (fields (replyItems op siaddr subnet gateway leaseSecs bootFile)).map (fun x => (x.code, x.data)) =
      (replyMessage op xid chaddr yiaddr siaddr subnet gateway leaseSecs bootFile).options := by
  cases gateway with
  | none => rfl
  | some gw => rfl

/-- A reply is the fixed fields, the cookie and the area of its options. -/
theorem buildDhcpReply_eq :
    buildDhcpReply op xid chaddr yiaddr siaddr subnet gateway leaseSecs bootFile =
      fixedFields xid chaddr yiaddr siaddr bootFile ++ (dhcpMagic ++
        area (replyItems op siaddr subnet gateway leaseSecs bootFile) (.stop [])) := by
  have hch : chaddr.take (min chaddr.length 16) = chaddr.take 16 := by
    rw [Nat.min_comm]
    exact List.take_eq_take_min.symm
  have hname : (utf8 bootFile).take (min (utf8 bootFile).length 127) = bootName bootFile := by
    rw [Nat.min_comm]
    exact List.take_eq_take_min.symm
  have hlen : min (utf8 bootFile).length 127 = (bootName bootFile).length := by
    rw [bootName, List.length_take, Nat.min_comm]
  simp only [buildDhcpReply, hch, hname]
  rw [copied_fields, hlen, List.append_assoc]
  have hone : UInt8.ofNat [op].length = 1 := rfl
  have hfour : UInt8.ofNat 4 = 4 := rfl
  cases gateway with
  | none =>
    simp only [replyItems, addressOption, Option.map_none, Option.toList_none, List.append_assoc,
      List.cons_append, List.nil_append, area_field, area_nil, length_octets, length_beBytes, hone,
      hfour]
    rfl
  | some gw =>
    simp only [replyItems, addressOption, Option.map_some, Option.toList_some, List.append_assoc,
      List.cons_append, List.nil_append, area_field, area_nil, length_octets, length_beBytes, hone,
      hfour]
    rfl

theorem length_fixedFields : (fixedFields xid chaddr yiaddr siaddr bootFile).length = 236 := by
  have hch : (padded 16 (chaddr.take 16)).length = 16 := length_padded (List.length_take_le _ _)
  have hfile : (padded 128 (bootName bootFile)).length = 128 :=
    length_padded (Nat.le_trans (length_bootName bootFile) (by decide))
  simp only [fixedFields, List.length_append, List.length_cons, List.length_replicate,
    length_octets, length_beBytes, hch, hfile]

/-- The reader gives back what a reply was made of. -/
theorem decode_reply :
    decodeMessage (buildDhcpReply op xid chaddr yiaddr siaddr subnet gateway leaseSecs bootFile) =
      some (replyMessage op xid chaddr yiaddr siaddr subnet gateway leaseSecs bootFile) := by
  have hch : (padded 16 (chaddr.take 16)).length = 16 := length_padded (List.length_take_le _ _)
  have hfile : (padded 128 (bootName bootFile)).length = 128 :=
    length_padded (Nat.le_trans (length_bootName bootFile) (by decide))
  have hxid : UInt32.ofNat (ofBeBytes (beBytes 4 xid.toNat)) = xid := by
    rw [ofBeBytes_beBytes xid.toNat_lt, UInt32.ofNat_toNat]
  have hoptions := decode_area (f := marks) (by decide)
    (replyItems op siaddr subnet gateway leaseSecs bootFile) []
  rw [fields_replyItems op xid chaddr yiaddr siaddr subnet gateway leaseSecs bootFile] at hoptions
  rw [buildDhcpReply_eq]
  simp only [fixedFields, List.append_assoc, List.cons_append]
  -- one step of the reader for each field
  refine (takeBytes_bind _ _ (length_beBytes 4 _)).trans ?_
  refine (takeBytes_bind _ _ List.length_replicate).trans ?_
  refine (takeBytes_bind _ _ List.length_replicate).trans ?_
  refine (takeBytes_bind _ _ List.length_replicate).trans ?_
  refine (takeBytes_bind _ _ (length_octets yiaddr)).trans ?_
  refine (takeBytes_bind _ _ (length_octets siaddr)).trans ?_
  refine (takeBytes_bind _ _ List.length_replicate).trans ?_
  refine (takeBytes_bind _ _ hch).trans ?_
  refine (takeBytes_bind _ _ List.length_replicate).trans ?_
  refine (takeBytes_bind _ _ hfile).trans ?_
  refine (takeBytes_bind _ dhcpMagic rfl).trans ?_
  refine (if_pos rfl).trans ?_
  rw [hoptions, hxid, Ipv4Addr.ofOctets_octets, Ipv4Addr.ofOctets_octets]
  rfl

/-- No write of the builder is out of range. -/
theorem build_checked :
    Checked.buildDhcpReply op xid chaddr yiaddr siaddr subnet gateway leaseSecs bootFile =
      .ok (buildDhcpReply op xid chaddr yiaddr siaddr subnet gateway leaseSecs bootFile) := by
  have hch : (chaddr.take (min chaddr.length 16)).length = min chaddr.length 16 :=
    List.length_take_of_le (Nat.min_le_left _ _)
  have hname : ((utf8 bootFile).take (min (utf8 bootFile).length 127)).length =
      min (utf8 bootFile).length 127 := List.length_take_of_le (Nat.min_le_left _ _)
  have hassign : ∀ (pkt : List UInt8) (i : Nat) (b : UInt8), pkt.length = 236 → i < 236 →
      Checked.assign pkt i b = .ok (pkt.set i b) := by
    intro pkt i b hp hi
    rw [Checked.assign, if_pos (by omega)]
  have hstart : (((((List.replicate 236 (0 : UInt8)).set 0 2).set 1 1).set 2 6).set 3 0) =
      copyAt 0 [2, 1, 6, 0] (List.replicate 236 0) := rfl
  have l0 : (copyAt 0 [2, 1, 6, 0] (List.replicate 236 (0 : UInt8))).length = 236 := rfl
  obtain ⟨c4, l4⟩ := copy_fits (beBytes 4 xid.toNat) 4 8 l0 (by rw [length_beBytes]) (by decide)
  obtain ⟨c16, l16⟩ := copy_fits yiaddr.octets 16 20 l4 (by rw [length_octets]) (by decide)
  obtain ⟨c20, l20⟩ := copy_fits siaddr.octets 20 24 l16 (by rw [length_octets]) (by decide)
  obtain ⟨c28, l28⟩ := copy_fits (chaddr.take (min chaddr.length 16)) 28
    (28 + min chaddr.length 16) l20 (by rw [hch]) (by omega)
  obtain ⟨c108, _⟩ := copy_fits ((utf8 bootFile).take (min (utf8 bootFile).length 127)) 108
    (108 + min (utf8 bootFile).length 127) l28 (by rw [hname]) (by omega)
  simp only [Checked.buildDhcpReply, bind, Except.bind, hassign, List.length_replicate,
    List.length_set, Nat.reduceLT, hstart, c4, c16, c20, slice_front, c28, c108]
  cases gateway with
  | none =>
    simp only [buildDhcpReply, pure, Except.pure, List.append_assoc, List.cons_append,
      List.nil_append]
  | some gw =>
    simp only [buildDhcpReply, pure, Except.pure, List.append_assoc, List.cons_append,
      List.nil_append]

/-- No reply is longer than what the server itself could receive. -/
theorem length_reply :
    (buildDhcpReply op xid chaddr yiaddr siaddr subnet gateway leaseSecs bootFile).length ≤
      dhcpBufferSize := by
  have hname := length_bootName bootFile
  rw [buildDhcpReply_eq, List.length_append, length_fixedFields, List.length_append]
  cases gateway with
  | none =>
    simp only [replyItems, addressOption, Option.map_none, Option.toList_none, List.cons_append,
      List.nil_append, area_field, area_nil, List.length_cons, List.length_append, length_octets,
      length_beBytes, Tail.bytes, List.length_nil, dhcpMagic, dhcpBufferSize]
    omega
  | some gw =>
    simp only [replyItems, addressOption, Option.map_some, Option.toList_some, List.cons_append,
      List.nil_append, area_field, area_nil, List.length_cons, List.length_append, length_octets,
      length_beBytes, Tail.bytes, List.length_nil, dhcpMagic, dhcpBufferSize]
    omega

theorem reply_cookie :
    Cookie (buildDhcpReply op xid chaddr yiaddr siaddr subnet gateway leaseSecs bootFile) := by
  have hlen := length_fixedFields xid chaddr yiaddr siaddr bootFile
  have hmagic : dhcpMagic.length = 4 := rfl
  rw [buildDhcpReply_eq]
  constructor
  · simp only [List.length_append, hlen, hmagic]
    omega
  · rw [List.drop_left' hlen]
    exact List.take_left' hmagic

theorem reply_options :
    (buildDhcpReply op xid chaddr yiaddr siaddr subnet gateway leaseSecs bootFile).drop 240 =
      area (replyItems op siaddr subnet gateway leaseSecs bootFile) (.stop []) := by
  have hlen := length_fixedFields xid chaddr yiaddr siaddr bootFile
  have hmagic : dhcpMagic.length = 4 := rfl
  rw [buildDhcpReply_eq, ← List.append_assoc]
  exact List.drop_left' (by rw [List.length_append, hlen, hmagic])

/-- The server's own scan takes a reply for what it is. -/
theorem scan_reply :
    scanOptions ((buildDhcpReply op xid chaddr yiaddr siaddr subnet gateway leaseSecs bootFile).drop
      240) 0 0 = .ok op := by
  rw [reply_options, scan_area]
  cases gateway with
  | none => rfl
  | some gw => rfl

/-- A reply that comes back to the server is no request. -/
theorem reflected_ignored (hd : op ≠ dhcpDiscover) (hr : op ≠ dhcpRequest) (cfg : Config)
    (s : State) :
    receive cfg s (buildDhcpReply op xid chaddr yiaddr siaddr subnet gateway leaseSecs bootFile) =
      .ok s := by
  obtain ⟨f, hnone, hread⟩ := readRequest_cookie
    (reply_cookie op xid chaddr yiaddr siaddr subnet gateway leaseSecs bootFile)
  rw [scan_reply] at hread
  rw [receive, List.take_of_length_le (length_reply ..), hread]
  simp only [Except.map, hnone op hd hr, bind, Except.bind, pure, Except.pure]

theorem padded_zero (name : List UInt8) (h : name.length ≤ 127) :
    (padded 128 name).getLast? = some 0 := by
  have hpos : 128 - name.length = (127 - name.length) + 1 := by omega
  rw [padded, hpos, List.replicate_succ', ← List.append_assoc, List.getLast?_append]
  rfl

/-- Whatever a reply is made of, it is built without a slip, fits the buffer of a client and
is read back as what it was made of; its file field ends with a zero byte. The server's own
scan finds in it the type it has, so an offer or an acknowledgement that comes back is not
answered. -/
theorem reply_round_trip :
    ∃ pkt, Checked.buildDhcpReply op xid chaddr yiaddr siaddr subnet gateway leaseSecs bootFile =
        .ok pkt ∧ pkt.length ≤ 576 ∧
      decodeMessage pkt =
        some (replyMessage op xid chaddr yiaddr siaddr subnet gateway leaseSecs bootFile) ∧
      (padded 128 (bootName bootFile)).getLast? = some 0 ∧
      scanOptions (pkt.drop 240) 0 0 = .ok op ∧
      ((op = dhcpOffer ∨ op = dhcpAck) → ∀ cfg s, receive cfg s pkt = .ok s) := by
  refine ⟨_, build_checked .., length_reply .., decode_reply .., ?_, scan_reply .., ?_⟩
  · exact padded_zero _ (length_bootName bootFile)
  · intro hop cfg s
    apply reflected_ignored
    · rcases hop with rfl | rfl <;> decide
    · rcases hop with rfl | rfl <;> decide

end Reply

end Hivebus.Proofs.ReplyBytes
