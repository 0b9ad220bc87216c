import Hivebus.Proofs.Conversation
import Hivebus.Proofs.NodeIds
import Hivebus.Proofs.Replies

namespace Hivebus.Proofs.BootTable
open Lib Proto Pxeboot Conversation Envelope NodeIds Replies
open Bus (u8FromStrRadix)

/-- The text of a hardware address says which it is. -/
theorem fmtMac_inj {mac mac' : Mac} (h : fmtMac mac = fmtMac mac') : mac = mac' := by
  have hwords : mac.octets.map digits = mac'.octets.map digits := by
    rw [← words_text (octets_ne_nil mac), ← words_text (octets_ne_nil mac')]
    have htext := congrArg String.toList h
    rw [fmtMac_toList, fmtMac_toList] at htext
    exact congrArg _ htext
  have hoctets := congrArg (List.mapM u8FromStrRadix) hwords
  rw [mapM_digits, mapM_digits] at hoctets
  obtain ⟨octets, hsize⟩ := mac
  obtain ⟨octets', hsize'⟩ := mac'
  simpa using hoctets

/-- What an event registers for a client. -/
def registration (m : Mac) : DhcpEvent → Option BootEntry
  | .register mac entry => if mac = m then some entry else none
  | _ => none

/-- The first request of a client that the server has taken. -/
def firstRequest (m : Mac) (w : DhcpServer) : Option Request :=
  (w.taken.filterMap requestOf).find? (fun q => q.mac = m)

/-- What there is to know of a client: what was registered for it last, else what the server
makes up when it asks. -/
def known (m : Mac) (es : List DhcpEvent) (w : DhcpServer) : Option BootEntry :=
  (es.filterMap (registration m)).getLast?.or ((firstRequest m w).map (fun _ => discovered m))

theorem advance_boot (cfg : Config) (now : Instant) (stored : Bool) (s : State) :
    (advance cfg now stored s).boot = s.boot := by
  have hcases := advance_cases cfg now stored s
  generalize advance cfg now stored s = s' at hcases ⊢
  cases hcases <;> rfl

theorem recv_boot {cfg : Config} {s : State} (q : Request) (m : Mac) (h : s.phase = .idle) :
    (Pxeboot.step cfg s (.recv q)).boot.lookup m =
      (s.boot.lookup m).or (if q.mac = m then some (discovered m) else none) := by
  cases hb : s.boot.lookup q.mac with
  | some entry =>
    simp only [Pxeboot.step, h, hb]
    by_cases hm : q.mac = m
    · rw [if_pos hm, ← hm, hb, Option.some_or]
    · rw [if_neg hm, Option.or_none]
  | none =>
    simp only [Pxeboot.step, h, hb, Table.lookup_insert_if]
    by_cases hm : q.mac = m
    · rw [if_pos hm.symm, if_pos hm, ← hm, hb, Option.none_or]
    · rw [if_neg (fun h => hm h.symm), if_neg hm, Option.or_none]

theorem known_keep {m : Mac} {es : List DhcpEvent} {w w' : DhcpServer} {e : DhcpEvent}
    (hreg : registration m e = none) (hasked : firstRequest m w' = firstRequest m w) :
    known m (es ++ [e]) w' = known m es w := by
  simp only [known, List.filterMap_append, List.filterMap_cons_none hreg, List.filterMap_nil,
    List.append_nil, hasked]

theorem firstRequest_append {m : Mac} {w w' : DhcpServer} {d : List UInt8} {q : Option Request}
    (ht : w'.taken = w.taken ++ [d]) (hd : requestOf d = q) :
    firstRequest m w' = (firstRequest m w).or (q.filter (fun q => q.mac = m)) := by
  rw [firstRequest, ht, List.filterMap_append, List.find?_append]
  cases q with
  | none => rw [List.filterMap_cons_none hd]; rfl
  | some q =>
    rw [List.filterMap_cons_some hd, List.filterMap_nil, List.find?_cons]
    by_cases hm : q.mac = m
    · simp only [hm, decide_true, Option.filter_some, ↓reduceIte, firstRequest]
    · simp only [hm, decide_false, Option.filter_some, Bool.false_eq_true, ↓reduceIte, List.find?_nil,
        firstRequest]

/-- What the table has of a client is what there is to know of it. -/
theorem lookup_known (cfg : Config) (m : Mac) (es : List DhcpEvent) :
    (DhcpServer.run cfg es).state.boot.lookup m = known m es (DhcpServer.run cfg es) := by
  refine Run.exec_history (I := fun es w => w.state.boot.lookup m = known m es w)
    (s := DhcpServer.start) rfl ?_ es
  intro es e h
  generalize Run.exec (DhcpServer.step cfg) .start es = w at h ⊢
  cases e with
  | arrive datagram => rw [known_keep rfl rfl]; exact h
  | write i stored =>
    have hboot : (w.step cfg (.write i stored)).state.boot = w.state.boot := by
      simp only [DhcpServer.step, Pxeboot.step]
      cases w.state.writers[i]? <;> rfl
    rw [known_keep rfl rfl, hboot]
    exact h
  | register mac entry =>
    have hboot : (w.step cfg (.register mac entry)).state.boot = w.state.boot.insert mac entry := rfl
    rw [hboot, Table.lookup_insert_if]
    by_cases hm : mac = m
    · have hreg : registration m (.register mac entry) = some entry := if_pos hm
      rw [if_pos hm.symm, known, List.filterMap_append, List.filterMap_cons_some hreg]
      simp
    · have hreg : registration m (.register mac entry) = none := if_neg hm
      rw [if_neg (fun h => hm h.symm), known_keep hreg rfl]
      exact h
  | turn now stored =>
    simp only [DhcpServer.step]
    rcases turn_cases cfg now stored w with
      ⟨_, ht⟩ | ⟨d, rest, ⟨_, hidle, _⟩, ⟨q, hq, ht⟩ | ⟨panic, hp, ht⟩⟩ | ⟨_, q, _, ht⟩
    · rw [ht, known_keep rfl rfl]
      exact h
    · have hasked := firstRequest_append (m := m) (congrArg DhcpServer.taken ht)
        (requestOf_ok hq).1
      have hreg : registration m (.turn now stored) = none := rfl
      rw [known, hasked, List.filterMap_append, List.filterMap_cons_none hreg, List.filterMap_nil,
        List.append_nil, ht]
      cases q with
      | none => simpa [known] using h
      | some q =>
        simp only [Option.elim_some]
        rw [recv_boot q m hidle, h, known, Option.map_or, Option.or_assoc]
        by_cases hm : q.mac = m <;> simp [hm, Option.filter_some]
    · have hasked := firstRequest_append (m := m) (congrArg DhcpServer.taken ht)
        (requestOf_error hp).1
      have hkeep : known m (es ++ [.turn now stored]) (w.turn cfg now stored) = known m es w :=
        known_keep rfl (hasked.trans Option.or_none)
      rw [hkeep, ht]
      exact h
    · have hboot : (w.turn cfg now stored).state.boot = w.state.boot := by
        rw [ht]
        exact advance_boot cfg now stored w.state
      have hkeep : known m (es ++ [.turn now stored]) (w.turn cfg now stored) = known m es w :=
        known_keep rfl (by rw [ht]; rfl)
      rw [hboot, hkeep]
      exact h

/-- Two entries that say the same, whatever the order of their tags. -/
structure Same (x y : BootEntry) : Prop where
  hostname : x.hostname = y.hostname
  ip : x.ip = y.ip
  ipxeScript : x.ipxeScript = y.ipxeScript
  tags : ∀ k, x.tags.lookup k = y.tags.lookup k

/-- An entry that went over the wire says what it said before. -/
theorem ofWire_toWire (ord : Table.Order String String) (entry : BootEntry) :
    Same (.ofWire (entry.toWire ord)) entry where
  hostname := rfl
  ip := rfl
  ipxeScript := rfl
  tags := by
    intro k
    apply Option.ext
    intro v
    have h := Table.lookup_foldl_insert (ord.keys_nodup entry.tags) ∅ (k := k) (v := v)
    rw [AList.lookup_empty, ord.mem_list] at h
    exact h.trans (by simp)

/-- A list of the boot table: one row for each client there is something to know of. -/
structure Lists (es : List DhcpEvent) (w : DhcpServer) (rows : List (String × BootEntry.Wire)) :
    Prop where
  once : (rows.map Prod.fst).Nodup
  row : ∀ x ∈ rows, ∃ m entry, x.1 = fmtMac m ∧ known m es w = some entry ∧
    Same (.ofWire x.2) entry
  all : ∀ m entry, known m es w = some entry → ∃ x ∈ rows, x.1 = fmtMac m

theorem listEntries_lists (cfg : Config) (es : List DhcpEvent) (ord : Orders) :
    Lists es (DhcpServer.run cfg es) (listEntries ord (DhcpServer.run cfg es).state.boot) where
  once := by
    have hkeys := ord.boot.keys_nodup (DhcpServer.run cfg es).state.boot
    rw [listEntries, List.map_map]
    have hmap := hkeys.map (fun _ _ h => fmtMac_inj h)
    rwa [List.map_map] at hmap
  row := by
    intro x hx
    obtain ⟨⟨m, entry⟩, hm, rfl⟩ := List.mem_map.mp hx
    refine ⟨m, entry, rfl, ?_, ofWire_toWire _ entry⟩
    rw [← lookup_known]
    exact ord.boot.mem_list.mp hm
  all := by
    intro m entry h
    rw [← lookup_known] at h
    exact ⟨_, List.mem_map.mpr ⟨(m, entry), ord.boot.mem_list.mpr h, rfl⟩, rfl⟩

/-- What the client reads in what comes back is what the daemon said, and it had room. -/
theorem read_back {reply : ControlOp → Option ControlReply} {refusal : List UInt8 → String}
    {r : RequestFrame} {f : List UInt8} {u v : ControlReply} (hu : reply r.op = some u)
    (hf : serve reply refusal r.stream = some f) (hv : readReply f = some v) :
    v = u ∧ ControlReply.codec.size u ≤ maxControlPayload := by
  rw [serve_eq, hu, Option.bind_some] at hf
  obtain ⟨hs, rfl⟩ := encode_ok_iff.mp (toOption_eq_some.mp hf)
  have hread := read_frame (ControlReply.codec.encode u) [] (by simpa using hs)
  rw [List.append_nil, ControlReply.codec.length_encode] at hread
  split at hread
  · simp only [readReply, hread, reduceCtorEq] at hv
  · next hmax =>
    rw [readReply, hread] at hv
    have hdec := decode_encoded ControlReply.codec u (by omega)
    exact ⟨Option.some.inj (hv.symm.trans hdec), Nat.le_of_not_lt hmax⟩

/-- What an operator reads when `boot.list` comes back, after any datagrams, registrations and
turns: one row for each machine that was registered or has asked for an address, with the entry
registered for it last, or the one the server made up when there is none, and no other row. -/
theorem boot_list_tells (cfg : Config) (es : List DhcpEvent) (ord : Orders)
    (refusal : List UInt8 → String) (r : RequestFrame) (body : List UInt8) (f : List UInt8)
    (v : ControlReply) (hop : r.op = .custom "boot.list" body)
    (hf : serve (controlReply ord refusal (DhcpServer.run cfg es).state.boot) refusal r.stream =
      some f) (hv : readReply f = some v) :
    ∃ payload rows, v = .data "boot.list" payload ∧ listCodec.decode payload = some (rows, []) ∧
      Lists es (DhcpServer.run cfg es) rows := by
  have hreply : controlReply ord refusal (DhcpServer.run cfg es).state.boot r.op =
      some (.data "boot.list"
        (listCodec.encode (listEntries ord (DhcpServer.run cfg es).state.boot))) := by
    rw [hop]
    rfl
  obtain ⟨hdata, hsize⟩ := read_back hreply hf hv
  have hmax : maxControlPayload = 61440 := rfl
  rw [size_data, listCodec.length_encode, hmax] at hsize
  have hdec := listCodec.decode_encode (listEntries ord (DhcpServer.run cfg es).state.boot) []
    (by omega)
  rw [List.append_nil] at hdec
  exact ⟨_, _, hdata, hdec, listEntries_lists cfg es ord⟩

/-- The listing that keeps the order of insertion. -/
def plainOrders : Orders := ⟨.newest, fun _ => .newest⟩

/-- One machine is registered, with a tag; another one, which nobody knows, asks for an
address. -/
def twoMachines : List DhcpEvent :=
  [.register (Leases.discover 1).mac ⟨"node2", none, none, (∅ : Table String String).insert
      "role" "worker"⟩,
    .arrive plainDiscover, .turn 0 true]

theorem two_machines_listed : ∃ f payload rows,
    serve (controlReply plainOrders (fun _ => "") (DhcpServer.run seedConfig twoMachines).state.boot)
      (fun _ => "") listRequest.stream = some f ∧
    readReply f = some (.data "boot.list" payload) ∧ listCodec.decode payload = some (rows, []) ∧
    Lists twoMachines (DhcpServer.run seedConfig twoMachines) rows ∧
    (∃ x ∈ rows, x.1 = fmtMac (Leases.discover 1).mac ∧
      (BootEntry.ofWire x.2).tags.lookup "role" = some "worker") ∧
    ∃ x ∈ rows, x.1 = "00:00:00:00:00:00" := by
  have hroom : Answered (controlReply plainOrders (fun _ => "")
      (DhcpServer.run seedConfig twoMachines).state.boot) (fun _ => "") listRequest := by
    rw [pxeboot_answered_iff]
    decide +kernel
  obtain ⟨v, f, _, hf, hv⟩ := hroom
  obtain ⟨payload, rows, rfl, hdec, hlists⟩ :=
    boot_list_tells seedConfig twoMachines plainOrders (fun _ => "") listRequest [] f v rfl hf hv
  refine ⟨f, payload, rows, hf, hv, hdec, hlists, ?_, ?_⟩
  · obtain ⟨x, hx, hname⟩ := hlists.all (Leases.discover 1).mac _ rfl
    obtain ⟨m, entry, hmac, hentry, hsame⟩ := hlists.row x hx
    have hm : m = (Leases.discover 1).mac := fmtMac_inj (hmac.symm.trans hname)
    subst hm
    cases hentry
    exact ⟨x, hx, hname, (hsame.tags "role").trans rfl⟩
  · have hasked : (known ⟨List.replicate 6 0, rfl⟩ twoMachines
        (DhcpServer.run seedConfig twoMachines)).isSome = true := by decide +kernel
    obtain ⟨entry, hentry⟩ := Option.isSome_iff_exists.mp hasked
    obtain ⟨x, hx, hname⟩ := hlists.all ⟨List.replicate 6 0, rfl⟩ entry hentry
    exact ⟨x, hx, hname.trans (by decide)⟩

end Hivebus.Proofs.BootTable
