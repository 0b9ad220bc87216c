import Hivebus.Lib.Split
import Hivebus.Pxeboot.Packet
import Hivebus.Proofs.Leases
import Hivebus.Proofs.Paths
import Hivebus.Proofs.ReplyBytes
import Hivebus.Proofs.Requests
import Hivebus.Proofs.Scripts

namespace Hivebus.Proofs.BootFile
open Lib Tlv Proto Codec Pxeboot Leases Datagrams Options Paths ReplyBytes Requests Scripts

/-- An option with another code is passed over. -/
theorem findOption_skip {code opt len : UInt8} (body rest : List UInt8) {fuel : Nat}
    (hlen : body.length = len.toNat) (hend : opt ≠ optEnd) (hpad : opt ≠ 0) (hne : opt ≠ code) :
    findOption code (fuel + 1) (opt :: len :: (body ++ rest)) = findOption code fuel rest := by
  simp [findOption, hend, hpad, hne, ← hlen]

theorem findOption_here {code len : UInt8} (body rest : List UInt8) {fuel : Nat}
    (hlen : body.length = len.toNat) (hend : code ≠ optEnd) (hpad : code ≠ 0) :
    findOption code (fuel + 1) (code :: len :: (body ++ rest)) = some body := by
  simp [findOption, hend, hpad, ← hlen]

/-- The walk finds the first option of an area that has the code. -/
theorem findOption_area (code : UInt8) (items : List (Item marks)) {fuel : Nat}
    (h : items.length ≤ fuel) :
    findOption code (fuel + 1) (area items (.stop [])) =
      ((fields items).find? (fun x => x.code = code)).map Field.data := by
  induction items generalizing fuel with
  | nil => rfl
  | cons item items ih =>
    obtain ⟨fuel, rfl⟩ := Nat.exists_eq_add_of_lt (Nat.lt_of_lt_of_le items.length.succ_pos h)
    rw [Nat.zero_add] at h ⊢
    have hlen : items.length ≤ fuel := Nat.le_of_succ_le_succ h
    cases item with
    | pad =>
      rw [area_cons]
      exact ih hlen
    | field x =>
      rw [area_field, fields_field, List.find?_cons]
      by_cases hx : x.code = code
      · subst hx
        rw [findOption_here _ _ x.length_byte.symm x.not_stop x.not_pad, decide_eq_true rfl]
        rfl
      · rw [findOption_skip _ _ x.length_byte.symm x.not_stop x.not_pad hx, ih hlen,
          decide_eq_false hx]

/-- Option 67 of a reply has the first 127 bytes of the boot file name. -/
theorem bootFileOption_reply (r : Reply) :
    bootFileOption r.packet = some ((utf8 r.bootFile).take 127) := by
  obtain ⟨hlong, _⟩ : Cookie r.packet := reply_cookie ..
  obtain ⟨fuel, hfuel⟩ := Nat.exists_eq_add_of_le hlong
  have hsucc : 240 + fuel = (239 + fuel) + 1 := by omega
  rw [bootFileOption, hfuel, hsucc, Reply.packet, reply_options, findOption_area]
  · cases r.gateway with
    | none => rfl
    | some gw => rfl
  · exact Nat.le_trans (length_replyItems ..) (by omega)

/-- The components of a path that count: what stands between slashes, but for nothing
and a lone dot. -/
def names (p : String) : List (List Char) :=
  (p.toList.splitOn '/').filter (fun s => s ≠ [] ∧ s ≠ ['.'])

theorem components_names (p : String) : components p = front p ++ (names p).map component := by
  have hn : (segments p.toList).filter (fun s => s ≠ ['.']) = names p := by
    rw [segments, List.filter_filter, names]
    apply List.filter_congr
    intro s _
    cases s <;> simp
  rw [components_eq, hn]

theorem parentDir_mem_components (p : String) : .parentDir ∈ components p ↔ ['.', '.'] ∈ names p := by
  have hfront : .parentDir ∉ front p := by
    intro hm
    rcases front_cases p with h | h | h <;> simp [h] at hm
  rw [components_names, List.mem_append, or_iff_right hfront, List.mem_map]
  constructor
  · intro hex
    obtain ⟨s, hs, hup⟩ := hex
    unfold component at hup
    split at hup
    · next he => exact he ▸ hs
    · cases hup
  · intro hm
    exact ⟨['.', '.'], hm, if_pos rfl⟩

theorem normal_components {p : String} (h : ['.', '.'] ∉ names p) :
    (components p).filter isNormal = (names p).map .normal := by
  have hfront : (front p).filter isNormal = [] := by
    rcases front_cases p with h | h | h <;> rw [h] <;> rfl
  have hnames : (names p).map component = (names p).map .normal := by
    apply List.map_congr_left
    intro s hs
    apply if_neg
    rintro rfl
    exact h hs
  rw [components_names, List.filter_append, hfront, List.nil_append, hnames,
    List.filter_eq_self.mpr]
  intro c hc
  obtain ⟨s, _, rfl⟩ := List.mem_map.mp hc
  rfl

/-- A path is accepted if it starts at the root it is given and never goes up, and its
components are then appended. -/
theorem sanitizeTftpPath_eq (root : List Component) (p : String) :
    sanitizeTftpPath root p =
      if p.toList.head? = some '/' ∨ ['.', '.'] ∈ names p then none
      else some (root ++ (names p).map .normal) := by
  have hloop : sanitizeTftpPath root p = appendAll root (components p) := rfl
  simp only [hloop, appendAll_eq, rootDir_mem_components, parentDir_mem_components]
  split
  · rfl
  · next h => rw [normal_components (not_or.mp h).2]

theorem utf8_eq_flatMap (s : String) : utf8 s = s.toList.flatMap String.utf8EncodeChar := by
  have h : s.toByteArray = (s.toList.flatMap String.utf8EncodeChar).toByteArray := by
    rw [← String.utf8Encode_toList]
    rfl
  rw [utf8, h]
  simp

theorem zero_eq_ofNat {n : Nat} (hn : n < 256) : (0 : UInt8) = UInt8.ofNat n ↔ n = 0 := by
  rw [← UInt8.toNat_inj, UInt8.toNat_ofNat', UInt8.toNat_zero]
  omega

/-- Only the NUL character has a zero byte. -/
theorem zero_mem_utf8EncodeChar (c : Char) : 0 ∈ String.utf8EncodeChar c ↔ c = '\x00' := by
  constructor
  · intro h
    unfold String.utf8EncodeChar at h
    simp only at h
    split at h
    · next hc =>
      rw [List.mem_singleton, zero_eq_ofNat (by omega)] at h
      exact Char.ext (UInt32.toNat_inj.mp h)
    · split at h
      · simp only [List.mem_cons, List.not_mem_nil, or_false] at h
        rcases h with h | h <;> rw [zero_eq_ofNat (by omega)] at h <;> omega
      · split at h
        · simp only [List.mem_cons, List.not_mem_nil, or_false] at h
          rcases h with h | h | h <;> rw [zero_eq_ofNat (by omega)] at h <;> omega
        · simp only [List.mem_cons, List.not_mem_nil, or_false] at h
          rcases h with h | h | h | h <;> rw [zero_eq_ofNat (by omega)] at h <;> omega
  · intro h
    rw [h]
    decide

theorem zero_mem_utf8 {s : String} : 0 ∈ utf8 s ↔ '\x00' ∈ s.toList := by
  rw [utf8_eq_flatMap, List.mem_flatMap]
  simp only [zero_mem_utf8EncodeChar]
  simp

/-- What the bytes of a text begin with, the text begins with. -/
theorem prefix_of_utf8 {f p : String} {n : Nat} (h : utf8 f = (utf8 p).take n) :
    f.toList <+: p.toList := by
  have hb : f.toList.utf8Encode ++ ((utf8 p).drop n).toByteArray = p.toList.utf8Encode := by
    rw [String.utf8Encode_toList, String.utf8Encode_toList]
    apply ByteArray.ext
    apply Array.ext'
    rw [ByteArray.data_append, Array.toList_append, List.data_toByteArray]
    change utf8 f ++ (utf8 p).drop n = utf8 p
    rw [h, List.take_append_drop]
  exact List.isPrefix_of_utf8Encode_append_eq_utf8Encode _ hb

theorem octetRrq_eq (name : List UInt8) :
    octetRrq name = 0 :: 1 :: (name ++ 0 :: (utf8 "octet" ++ [0])) := by
  have hop : beBytes 2 tftpRrq = [0, 1] := rfl
  simp [octetRrq, hop]

/-- What is read from a request has no zero byte, and is the name that was asked for unless
that one has. -/
theorem parse_octetRrq {name : List UInt8} {f mode : String}
    (h : parseTftpRrq (octetRrq name) = some (f, mode)) :
    0 ∉ utf8 f ∧ (0 ∉ name → utf8 f = name) := by
  obtain ⟨_, hrrq, _⟩ := parse_sound h
  obtain ⟨⟨rest, he⟩, hf, _⟩ := isRrq_iff.mp hrrq
  rw [octetRrq_eq] at he
  refine ⟨hf, ?_⟩
  intro hname
  exact (zero_cut_inj (List.cons.inj (List.cons.inj he).2).2 hname hf).1.symm

/-- A name without a zero byte comes through whole. -/
theorem parse_octetRrq_name {f : String} (h : 0 ∉ utf8 f) :
    parseTftpRrq (octetRrq (utf8 f)) = some (f, "octet") := by
  have hlower : toAsciiLowercase "octet" = "octet" := by decide
  have hrrq : IsRrq (octetRrq (utf8 f)) f "octet" :=
    isRrq_iff.mpr ⟨⟨[], octetRrq_eq _⟩, h, by decide⟩
  rw [parse_complete hrrq, hlower]

/-- A NUL in a path is in one of its names, and the other way round. -/
theorem nul_mem_names (p : String) : (∃ n ∈ names p, '\x00' ∈ n) ↔ '\x00' ∈ p.toList := by
  rw [← Split.exists_piece_iff (p := (· == '/')) (by decide)]
  constructor
  · intro hex
    obtain ⟨n, hn, hc⟩ := hex
    exact ⟨n, (List.mem_filter.mp hn).1, hc⟩
  · intro hex
    obtain ⟨seg, hseg, hc⟩ := hex
    refine ⟨seg, List.mem_filter.mpr ⟨hseg, ?_⟩, hc⟩
    rw [decide_eq_true_eq]
    constructor
    · intro he
      rw [he] at hc
      cases hc
    · intro he
      rw [he] at hc
      exact absurd hc (by decide)

/-- A script name that a client gets whole, or cut where it makes no difference: no NUL,
no way out of the root, and the first 127 bytes name what all of it names. -/
def Servable (p : String) : Prop :=
  '\x00' ∉ p.toList ∧ p.toList.head? ≠ some '/' ∧ ['.', '.'] ∉ names p ∧
    ∃ f, utf8 f = (utf8 p).take 127 ∧ names f = names p

theorem sanitize_some {root path : List Component} {p : String}
    (h : sanitizeTftpPath root p = some path) :
    p.toList.head? ≠ some '/' ∧ ['.', '.'] ∉ names p ∧ path = root ++ (names p).map .normal := by
  rw [sanitizeTftpPath_eq] at h
  split at h
  · cases h
  · next hn =>
    rw [not_or] at hn
    exact ⟨hn.1, hn.2, (Option.some.inj h).symm⟩

theorem names_inj {root : List Component} {ns ns' : List (List Char)}
    (h : root ++ ns.map Component.normal = root ++ ns'.map .normal) : ns = ns' := by
  apply List.map_injective_iff.mpr _ (List.append_cancel_left h)
  intro a b hab
  exact Component.normal.inj hab

/-- What a client asks for by the name it was given is the script of that name exactly
when the name is servable. -/
theorem requested_iff (cfg : Config) (p : String) (path : List Component) :
    (sanitizeTftpPath (components cfg.tftpRoot) p = some path ∧
      requestedPath cfg (octetRrq ((utf8 p).take 127)) = some path) ↔
    Servable p ∧ path = components cfg.tftpRoot ++ (names p).map .normal := by
  constructor
  · intro both
    obtain ⟨hp, hr⟩ := both
    obtain ⟨hhead, hup, rfl⟩ := sanitize_some hp
    obtain ⟨⟨f, mode⟩, hparse, hf⟩ := Option.bind_eq_some_iff.mp hr
    obtain ⟨_, _, hnames⟩ := sanitize_some hf
    have hnames : names f = names p := (names_inj hnames).symm
    obtain ⟨hfz, hbytes⟩ := parse_octetRrq hparse
    have hpz : '\x00' ∉ p.toList := by
      rw [← nul_mem_names, ← hnames, nul_mem_names, ← zero_mem_utf8]
      exact hfz
    have hcut : 0 ∉ (utf8 p).take 127 := by
      intro hz
      exact hpz (zero_mem_utf8.mp (List.mem_of_mem_take hz))
    exact ⟨⟨hpz, hhead, hup, f, hbytes hcut, hnames⟩, rfl⟩
  · intro both
    obtain ⟨⟨hpz, hhead, hup, f, hf, hnames⟩, rfl⟩ := both
    have hfz : 0 ∉ utf8 f := by
      rw [hf]
      intro hz
      exact hpz (zero_mem_utf8.mp (List.mem_of_mem_take hz))
    have hfhead : f.toList.head? ≠ some '/' := by
      intro he
      obtain ⟨rest, hrest⟩ := prefix_of_utf8 hf
      apply hhead
      rw [← hrest, List.head?_append, he]
      rfl
    constructor
    · rw [sanitizeTftpPath_eq, if_neg (not_or.mpr ⟨hhead, hup⟩)]
    · rw [requestedPath, ← hf, parse_octetRrq_name hfz, Option.bind_some, sanitizeTftpPath_eq,
        if_neg (not_or.mpr ⟨hfhead, hnames ▸ hup⟩), hnames]

theorem hexDigit_mem (n : Nat) : hexDigit n ∈ "0123456789abcdef".toList := by
  unfold hexDigit
  rw [List.getD_eq_getElem?_getD]
  cases h : "0123456789abcdef".toList[n]? with
  | none => decide
  | some c => exact List.mem_of_getElem? h

theorem octets_eq (mac : Mac) : ∃ a b c d e f, mac.octets = [a, b, c, d, e, f] := by
  obtain ⟨octets, hsize⟩ := mac
  match octets, hsize with
  | [a, b, c, d, e, f], _ => exact ⟨a, b, c, d, e, f, rfl⟩

/-- The text of a hardware address is of hexadecimal digits and colons. -/
theorem fmtMac_chars (mac : Mac) (alphabet : List Char) (hcolon : ':' ∈ alphabet)
    (hhex : ∀ n, hexDigit n ∈ alphabet) :
    (fmtMac mac).toList.length = 17 ∧ ∀ c ∈ (fmtMac mac).toList, c ∈ alphabet := by
  obtain ⟨a, b, c, d, e, f, hoctets⟩ := octets_eq mac
  rw [fmtMac_toList, hoctets]
  simp only [List.map_cons, List.map_nil, List.intercalate, List.intersperse, List.flatten_cons,
    List.flatten_nil, List.cons_append, List.nil_append, List.append_nil, List.forall_mem_cons,
    hhex, hcolon, true_and, List.length_cons, List.length_nil]
  simp

theorem length_utf8_le (s : String) : (utf8 s).length ≤ 4 * s.toList.length := by
  rw [utf8_eq_flatMap]
  generalize s.toList = cs
  induction cs with
  | nil => simp
  | cons c cs ih =>
    have hc := c.utf8Size_le_four
    simp only [List.flatMap_cons, List.length_append, String.length_utf8EncodeChar,
      List.length_cons]
    omega

/-- The name the server makes up for a client is servable, whatever the client. -/
theorem defaultScriptPath_servable (mac : Mac) : Servable (defaultScriptPath mac) := by
  obtain ⟨hlen, hmac⟩ := fmtMac_chars mac (':' :: "0123456789abcdef".toList)
    List.mem_cons_self (fun n => List.mem_cons_of_mem _ (hexDigit_mem n))
  have hchars : (defaultScriptPath mac).toList =
      "scripts".toList ++ '/' :: ((fmtMac mac).toList ++ ".ipxe".toList) := by
    simp [defaultScriptPath]
  generalize htail : (fmtMac mac).toList ++ ".ipxe".toList = tail at hchars
  have hlen : tail.length = 22 := by
    rw [← htail, List.length_append, hlen]
    rfl
  have halpha : ∀ c ∈ tail, c ≠ '/' ∧ c ≠ '\x00' := by
    have h1 : (':' :: "0123456789abcdef".toList).all (fun c => c != '/' && c != '\x00') = true := by
      decide
    have h2 : ".ipxe".toList.all (fun c => c != '/' && c != '\x00') = true := by decide
    intro c hc
    rw [← htail] at hc
    rcases List.mem_append.mp hc with hc | hc
    · simpa using List.all_eq_true.mp h1 c (hmac c hc)
    · simpa using List.all_eq_true.mp h2 c hc
  have hnames : names (defaultScriptPath mac) = ["scripts".toList, tail] := by
    have hsplit : ("scripts".toList ++ '/' :: tail).splitOn '/' = ["scripts".toList, tail] := by
      have hdir : "scripts".toList.all (fun c => c != '/') = true := by decide
      rw [List.splitOn, List.splitOnP_append_cons_of_forall_mem
          (fun c hc => by simpa using List.all_eq_true.mp hdir c hc) '/' rfl,
        List.splitOnP_eq_singleton]
      intro c hc
      simpa using (halpha c hc).1
    have hnil : tail ≠ [] := by
      intro he
      simp [he] at hlen
    have hdot : tail ≠ ['.'] := by
      intro he
      simp [he] at hlen
    rw [names, hchars, hsplit]
    simp [hnil, hdot]
  refine ⟨?_, by simp [hchars], ?_, defaultScriptPath mac, ?_, rfl⟩
  · rw [hchars]
    intro h
    rcases List.mem_append.mp h with h | h
    · exact absurd h (by decide)
    · rcases List.mem_cons.mp h with h | h
      · exact absurd h (by decide)
      · exact (halpha _ h).2 rfl
  · rw [hnames]
    intro h
    rcases List.mem_cons.mp h with h | h
    · exact absurd h (by decide)
    · rw [← List.mem_singleton.mp h] at hlen
      exact absurd hlen (by decide)
  · apply (List.take_of_length_le _).symm
    have hle := length_utf8_le (defaultScriptPath mac)
    rw [hchars, List.length_append, List.length_cons, hlen] at hle
    exact Nat.le_trans hle (by decide)

/-- Whether the disk takes what an event writes. -/
def taken : Event → Bool
  | .advance _ stored | .write _ stored => stored
  | _ => false

theorem write_files (cfg : Config) {s : State} {e : Event} {x : Mac × BootEntry}
    {others : List (Mac × BootEntry)} (h : writes s e = some (x, others)) :
    (step cfg s e).files = writeIpxeScript cfg x.1 x.2 (taken e) s.files := by
  cases e with
  | recv q => cases h
  | register mac entry => cases h
  | advance now stored =>
    cases hph : s.phase with
    | scripting q entry =>
      simp only [writes, hph, Option.some.injEq, Prod.mk.injEq] at h
      obtain ⟨rfl, rfl⟩ := h
      simp only [step, advance, hph, taken]
    | _ => simp only [writes, hph, reduceCtorEq] at h
  | write i stored =>
    obtain ⟨y, hy, he⟩ := Option.map_eq_some_iff.mp h
    obtain ⟨rfl, rfl⟩ := Prod.mk.inj he
    simp only [step, hy, taken]

/-- The event stores a script of the client at the path: the script is there afterwards, and
would be if the disk had been empty. -/
def Stores (cfg : Config) (s : State) (e : Event) (mac : Mac) (path : List Component) : Prop :=
  ∃ entry others, writes s e = some ((mac, entry), others) ∧
    (step cfg s e).files.lookup path = some (renderIpxeScript cfg mac entry) ∧
    (step cfg { s with files := ∅ } e).files.lookup path = some (renderIpxeScript cfg mac entry)

/-- What is on disk after a write that is taken, and after one that is not. -/
theorem lookup_writeIpxeScript (cfg : Config) (mac : Mac) (entry : BootEntry) (stored : Bool)
    (files : Files) (path : List Component) :
    (writeIpxeScript cfg mac entry stored files).lookup path =
      if stored = true ∧ scriptPath cfg entry = some path then
        some (renderIpxeScript cfg mac entry)
      else files.lookup path := by
  cases stored with
  | false =>
    rw [if_neg (fun h => Bool.false_ne_true h.1), writeIpxeScript]
    cases entry.ipxeScript with
    | none => rfl
    | some relPath =>
      simp only
      cases sanitizeTftpPath (components cfg.tftpRoot) relPath <;> rfl
  | true =>
    rw [writeIpxeScript_eq]
    cases hs : scriptPath cfg entry with
    | none => simp
    | some path' =>
      rw [Table.lookup_insert_if]
      simp [eq_comm]

theorem stores_iff {cfg : Config} {s : State} {e : Event} {mac : Mac} {path : List Component} :
    Stores cfg s e mac path ↔ ∃ entry others, writes s e = some ((mac, entry), others) ∧
      taken e = true ∧ scriptPath cfg entry = some path := by
  have hempty : writes { s with files := ∅ } e = writes s e := by cases e <;> rfl
  constructor
  · intro h
    obtain ⟨entry, others, hw, _, hthere⟩ := h
    rw [write_files cfg (hempty.trans hw), lookup_writeIpxeScript] at hthere
    split at hthere
    · next hboth => exact ⟨entry, others, hw, hboth⟩
    · cases hthere
  · intro h
    obtain ⟨entry, others, hw, hboth⟩ := h
    refine ⟨entry, others, hw, ?_, ?_⟩
    · rw [write_files cfg hw, lookup_writeIpxeScript, if_pos hboth]
    · rw [write_files cfg (hempty.trans hw), lookup_writeIpxeScript, if_pos hboth]

/-- No file is ever removed. -/
theorem step_files (cfg : Config) {s : State} (e : Event) {path : List Component}
    (h : path ∈ s.files) : path ∈ (step cfg s e).files := by
  cases hst : starts s e with
  | some x => rw [(start_step cfg hst).1]; exact h
  | none =>
    cases hw : writes s e with
    | none => rw [(quiet_step cfg hst hw).1]; exact h
    | some y =>
      rw [write_files cfg hw, ← AList.lookup_isSome, lookup_writeIpxeScript]
      split
      · rfl
      · exact AList.lookup_isSome.mpr h

/-- The name in option 67 of a reply, asked for over TFTP, leads to the path of the client's
script, at which a script of that client has been stored. -/
def ServesScript (cfg : Config) (es : List Event) (e : Event) : Prop :=
  ∀ r entry p, answer cfg (run cfg es) e = some r → (run cfg es).boot.lookup r.mac = some entry →
    entry.ipxeScript = some p →
    ∃ name path, bootFileOption r.packet = some name ∧
      requestedPath cfg (octetRrq name) = some path ∧ path ∈ (run cfg es).files ∧
      sanitizeTftpPath (components cfg.tftpRoot) p = some path ∧
      ∃ pre f post, es = pre ++ f :: post ∧ Stores cfg (run cfg pre) f r.mac path

/-- The disk has taken a script of the client under a name that says the same as this one. -/
def TookScript (cfg : Config) (es : List Event) (mac : Mac) (p : String) : Prop :=
  ∃ pre f post entry others p', es = pre ++ f :: post ∧
    writes (run cfg pre) f = some ((mac, entry), others) ∧ taken f = true ∧
    entry.ipxeScript = some p' ∧ p'.toList.head? ≠ some '/' ∧ names p' = names p

/-- The script name of the client's entry is servable, and the disk has taken a script of the
client under it by the time the server answers. -/
def ScriptReady (cfg : Config) (es : List Event) (e : Event) : Prop :=
  ∀ r entry p, answer cfg (run cfg es) e = some r → (run cfg es).boot.lookup r.mac = some entry →
    entry.ipxeScript = some p → Servable p ∧ TookScript cfg es r.mac p

/-- A reply names the script of its client's entry. -/
theorem answer_bootFile {cfg : Config} {s : State} {e : Event} {r : Reply} {entry : BootEntry}
    {p : String} (hr : answer cfg s e = some r) (hb : s.boot.lookup r.mac = some entry)
    (hp : entry.ipxeScript = some p) : r.bootFile = p := by
  obtain ⟨_, _, _, hfile⟩ := answer_replying hr
  rw [hfile, hb, Option.bind_some, hp, Option.getD_some]

theorem stored_stays {cfg : Config} {pre post : List Event} {f : Event} {mac : Mac}
    {path : List Component} (h : Stores cfg (run cfg pre) f mac path) :
    path ∈ (run cfg (pre ++ f :: post)).files := by
  obtain ⟨entry, others, _, hthere, _⟩ := h
  rw [run, Run.exec_append, Run.exec_cons]
  have hstep : ∀ (s : State) e, path ∈ s.files → path ∈ (step cfg s e).files :=
    fun s e hs => step_files cfg e hs
  refine Run.exec_invariant hstep ?_ post
  exact AList.lookup_isSome.mp (by rw [run] at hthere; rw [hthere]; rfl)

/-- Under the same servable name, what the disk took for a client is at the path of the name. -/
theorem took_iff {cfg : Config} {es : List Event} {mac : Mac} {p : String} (hp : Servable p) :
    TookScript cfg es mac p ↔ ∃ pre f post, es = pre ++ f :: post ∧
      Stores cfg (run cfg pre) f mac (components cfg.tftpRoot ++ (names p).map .normal) := by
  constructor
  · intro h
    obtain ⟨pre, f, post, entry, others, p', hes, hw, htaken, hp', hhead, hnames⟩ := h
    refine ⟨pre, f, post, hes, stores_iff.mpr ⟨entry, others, hw, htaken, ?_⟩⟩
    have hup : ['.', '.'] ∉ names p' := hnames ▸ hp.2.2.1
    rw [scriptPath, hp', Option.bind_some, sanitizeTftpPath_eq, if_neg (not_or.mpr ⟨hhead, hup⟩),
      hnames]
  · intro h
    obtain ⟨pre, f, post, hes, hstores⟩ := h
    obtain ⟨entry, others, hw, htaken, hpath⟩ := stores_iff.mp hstores
    obtain ⟨p', hp', hsome⟩ := Option.bind_eq_some_iff.mp hpath
    obtain ⟨hhead, _, hnames⟩ := sanitize_some hsome
    exact ⟨pre, f, post, entry, others, p', hes, hw, htaken, hp', hhead,
      (names_inj hnames).symm⟩

theorem servesScript_iff (cfg : Config) (es : List Event) (e : Event) :
    ServesScript cfg es e ↔ ScriptReady cfg es e := by
  constructor
  · intro h r entry p hr hb hp
    obtain ⟨name, path, hname, hreq, _, hpath, hstored⟩ := h r entry p hr hb hp
    rw [bootFileOption_reply, answer_bootFile hr hb hp] at hname
    cases hname
    obtain ⟨hserv, rfl⟩ := (requested_iff cfg p path).mp ⟨hpath, hreq⟩
    exact ⟨hserv, (took_iff hserv).mpr hstored⟩
  · intro h r entry p hr hb hp
    obtain ⟨hserv, htook⟩ := h r entry p hr hb hp
    obtain ⟨hpath, hreq⟩ := (requested_iff cfg p _).mpr ⟨hserv, rfl⟩
    have hstored := (took_iff hserv).mp htook
    refine ⟨(utf8 p).take 127, _, ?_, hreq, ?_, hpath, hstored⟩
    · rw [bootFileOption_reply, answer_bootFile hr hb hp]
    · obtain ⟨pre, f, post, rfl, hstores⟩ := hstored
      exact stored_stays hstores

/-- Over every run, advertised, written and served script are the same file exactly when
each script name advertised is servable and the disk has taken the client's script under it;
the names the server makes up are servable for every client. -/
theorem serves_script_iff (cfg : Config) (es : List Event) :
    ((∀ pre e post, es = pre ++ e :: post → ServesScript cfg pre e) ↔
      ∀ pre e post, es = pre ++ e :: post → ScriptReady cfg pre e) ∧
    ∀ mac, Servable (defaultScriptPath mac) := by
  refine ⟨?_, defaultScriptPath_servable⟩
  constructor
  · intro h pre e post hes
    exact (servesScript_iff cfg pre e).mp (h pre e post hes)
  · intro h pre e post hes
    exact (servesScript_iff cfg pre e).mpr (h pre e post hes)

/-- A name of 127 bytes, and one that goes on behind it. -/
def shortName : String := String.ofList ("scripts/".toList ++ List.replicate 119 'a')

def longName : String := shortName ++ "a.ipxe"

theorem longName_not_servable : ¬ Servable longName := by
  intro h
  obtain ⟨_, _, _, f, hf, hnames⟩ := h
  have hlen : (utf8 shortName).length = 127 := by decide +kernel
  have happ : utf8 longName = utf8 shortName ++ utf8 "a.ipxe" := by
    simp only [longName, utf8, String.toByteArray_append, ByteArray.data_append,
      Array.toList_append]
  rw [happ, List.take_left' hlen] at hf
  have hfs : f = shortName := by
    have := congrArg ofUtf8 hf
    rw [ofUtf8_utf8, ofUtf8_utf8] at this
    exact Option.some.inj this
  have hshort : shortName.toList = "scripts/".toList ++ List.replicate 119 'a' :=
    String.toList_ofList
  rw [hfs, names, names, longName, String.toList_append, hshort] at hnames
  revert hnames
  decide +kernel

/-- A client is registered with the long name, its script is written, and it asks. -/
def longScript : List Event :=
  [.register (discover 1).mac ⟨"node2", none, some longName, ∅⟩, .write 0 true,
    .recv (discover 1), .advance 0 true, .advance 0 true, .advance 0 true, .advance 0 true,
    .advance 0 true]

theorem long_script_not_served :
    ¬ ∀ pre e post, longScript = pre ++ e :: post → ServesScript seedConfig pre e := by
  intro h
  have hs := (servesScript_iff seedConfig _ _).mp (h (longScript.take 7) (.advance 0 true) [] rfl)
  exact longName_not_servable (hs _ _ longName rfl rfl rfl).1

end Hivebus.Proofs.BootFile
