import Mathlib.Order.Bounds.Defs
import Hivebus.Proofs.Convergence

namespace Hivebus.Proofs.Merge
open Lib Proto Bus Convergence

/-- The incarnations at hand for a node: the one its record has, if it has a record, and
those of the entries about it. -/
def atHand (entries : List GossipEntry) (m : Members) (k : UInt16) : Set UInt32 :=
  { i | (∃ r, m.lookup k = some r ∧ r.incarnation = i) ∨
    ∃ entry ∈ entries, entry.nodeId = k ∧ entry.incarnation = i }

/-- The table after a list of entries, told from the one before it. -/
structure Merged (selfId : UInt16) (entries : List GossipEntry) (m m' : Members) : Prop where
  stored : ∀ k, k ≠ selfId → (k ∈ m' ↔ k ∈ m ∨ ∃ entry ∈ entries, entry.nodeId = k)
  newest : ∀ k r', k ≠ selfId → m'.lookup k = some r' →
    IsGreatest (atHand entries m k) r'.incarnation
  last : ∀ k r' entry, k ≠ selfId → m'.lookup k = some r' →
    (entries.filter (fun e => e.nodeId = k ∧ e.incarnation = r'.incarnation)).getLast? = some entry →
    r'.state = entry.state
  unreached : ∀ k r', k ≠ selfId → m'.lookup k = some r' →
    (∀ entry ∈ entries, entry.nodeId = k → entry.incarnation ≠ r'.incarnation) →
    ∃ r, m.lookup k = some r ∧ r'.state = r.state
  kept : ∀ k r, m.lookup k = some r → ∃ r', m'.lookup k = some r' ∧ SameNode r r'
  skipped : m'.lookup selfId = m.lookup selfId

section Known

variable {selfId k : UInt16} (now : SystemTime) (source : SocketAddr) {entries : List GossipEntry}
  {m : Members} {r' : NodeInfo}

/-- What is known of a node is the entries about it joined to what was known before. -/
theorem view_entries (hk : k ≠ selfId) :
    view ((onGossip selfId now source ⟨entries⟩ m).lookup k) =
      ((entries.filter (fun e => e.nodeId = k)).map said).foldl Stamped.join (view (m.lookup k)) := by
  rw [view_gossip selfId now source ⟨entries⟩ m k hk, Stamped.foldl_join]
  rfl

theorem said_mem {i : UInt32} {st : NodeState} :
    some (i, st) ∈ (entries.filter (fun e => e.nodeId = k)).map said ↔
      ∃ entry ∈ entries, entry.nodeId = k ∧ entry.incarnation = i ∧ entry.state = st := by
  simp [said, and_assoc]

theorem view_known {o : Option NodeInfo} {i : UInt32} {st : NodeState} :
    view o = some (i, st) ↔ ∃ r, o = some r ∧ r.incarnation = i ∧ r.state = st := by
  simp [view]

variable (hk : k ≠ selfId) (hr : (onGossip selfId now source ⟨entries⟩ m).lookup k = some r')

include hk hr

theorem folded : ((entries.filter (fun e => e.nodeId = k)).map said).foldl Stamped.join
    (view (m.lookup k)) = some (r'.incarnation, r'.state) := by
  rw [← view_entries now source hk, hr]
  rfl

theorem newest_incarnation : IsGreatest (atHand entries m k) r'.incarnation := by
  obtain ⟨hsome, hbelow, hall⟩ := Stamped.foldl_join_newest (folded now source hk hr)
  constructor
  · rcases hsome with h | h
    · obtain ⟨r, hr, hi, _⟩ := view_known.mp h
      exact .inl ⟨r, hr, hi⟩
    · obtain ⟨entry, he, hn, hi, _⟩ := said_mem.mp h
      exact .inr ⟨entry, he, hn, hi⟩
  · intro i hi
    rcases hi with ⟨r, hr, rfl⟩ | ⟨entry, he, hn, rfl⟩
    · exact hbelow (r.incarnation, r.state) (view_known.mpr ⟨r, hr, rfl, rfl⟩)
    · exact hall (said entry) (said_mem.mpr ⟨entry, he, hn, rfl, rfl⟩) _ rfl

/-- The state of a record is the one its incarnation came with last. -/
theorem last_state :
    (((entries.filter (fun e => e.nodeId = k ∧ e.incarnation = r'.incarnation)).getLast?.map said
      ).getD (view (m.lookup k))) = some (r'.incarnation, r'.state) := by
  have hlast := Stamped.foldl_join_last (folded now source hk hr)
  have hfilter : ((entries.filter (fun e => e.nodeId = k)).map said).filter
      (fun p => p.map Prod.fst = some r'.incarnation) =
      (entries.filter (fun e => e.nodeId = k ∧ e.incarnation = r'.incarnation)).map said := by
    rw [List.filter_map, List.filter_filter]
    refine congrArg (List.map said) (List.filter_congr ?_)
    intro e _
    simp [said, Bool.and_comm]
  rw [hfilter, List.getLast?_map] at hlast
  exact hlast

end Known

theorem stored_iff {selfId k : UInt16} (hk : k ≠ selfId) (now : SystemTime) (source : SocketAddr)
    (entries : List GossipEntry) (m : Members) :
    k ∈ onGossip selfId now source ⟨entries⟩ m ↔
      k ∈ m ∨ ∃ entry ∈ entries, entry.nodeId = k := by
  cases hm : m.lookup k with
  | some r =>
    obtain ⟨r', hr', _⟩ := gossip_known selfId now source entries m hm
    have hin : k ∈ m := AList.lookup_isSome.mp (by rw [hm]; rfl)
    have hin' : k ∈ onGossip selfId now source ⟨entries⟩ m :=
      AList.lookup_isSome.mp (by rw [onGossip, hr']; rfl)
    exact iff_of_true hin' (.inl hin)
  | none =>
    have hout : k ∉ m := AList.lookup_eq_none.mp hm
    have hs := gossip_stranger now source hk entries m hm
    rw [or_iff_right hout]
    split at hs
    · next hex =>
      obtain ⟨r', hr', _⟩ := hs
      exact iff_of_true (AList.lookup_isSome.mp (by rw [onGossip, hr']; rfl)) hex
    · next hex => exact iff_of_false (AList.lookup_eq_none.mp hs) hex

theorem gossip_merged (selfId : UInt16) (now : SystemTime) (source : SocketAddr)
    (entries : List GossipEntry) (m : Members) :
    Merged selfId entries m (onGossip selfId now source ⟨entries⟩ m) where
  stored k hk := stored_iff hk now source entries m
  newest k r' hk hr := newest_incarnation now source hk hr
  last k r' entry hk hr he := by
    have hlast := last_state now source hk hr
    rw [he] at hlast
    exact (Prod.mk.inj (Option.some.inj hlast)).2.symm
  unreached k r' hk hr hno := by
    have hnil : entries.filter (fun e => e.nodeId = k ∧ e.incarnation = r'.incarnation) = [] := by
      rw [List.filter_eq_nil_iff]
      intro e he hd
      rw [decide_eq_true_eq] at hd
      exact hno e he hd.1 hd.2
    have hlast := last_state now source hk hr
    rw [hnil] at hlast
    obtain ⟨r, hr, _, hst⟩ := view_known.mp hlast
    exact ⟨r, hr, hst.symm⟩
  kept k r hr := gossip_known selfId now source entries m hr
  skipped := gossip_unnamed selfId now source entries m

/-- A record is what is known of its node and what gossip does not speak of. -/
theorem eq_of_view {r r' : NodeInfo} (same : SameNode r r')
    (h : view (some r') = view (some r)) : r' = r := by
  obtain ⟨hid, hname, haddr, hseen, hmaster⟩ := same
  obtain ⟨hi, hst⟩ := Prod.mk.inj (Option.some.inj h)
  cases r
  cases r'
  simp_all

/-- A payload that has been taken in has nothing to say any more, whoever brings it again
and when. -/
theorem gossip_again (selfId : UInt16) (now now' : SystemTime) (source source' : SocketAddr)
    (pl : GossipPayload) (m : Members) (k : UInt16) :
    (onGossip selfId now' source' pl (onGossip selfId now source pl m)).lookup k =
      (onGossip selfId now source pl m).lookup k := by
  by_cases hk : k = selfId
  · rw [hk]
    exact gossip_unnamed selfId now' source' pl.entries _
  have hview : view ((onGossip selfId now' source' pl (onGossip selfId now source pl m)).lookup k) =
      view ((onGossip selfId now source pl m).lookup k) := by
    rw [view_gossip _ _ _ _ _ _ hk, view_gossip _ _ _ _ _ _ hk, Stamped.join_join_self]
  cases hm : (onGossip selfId now source pl m).lookup k with
  | none =>
    rw [hm] at hview
    exact Option.map_eq_none_iff.mp hview
  | some r =>
    obtain ⟨r', hr', same⟩ := gossip_known selfId now' source' pl.entries _ hm
    rw [hm, onGossip, hr'] at hview
    rw [onGossip, hr', eq_of_view same hview]

/-- What a payload makes of a table, for every table and every list of entries; taking the
payload in a second time makes nothing of it. -/
theorem gossip_merge (selfId : UInt16) (now : SystemTime) (source : SocketAddr)
    (pl : GossipPayload) (m : Members) :
    Merged selfId pl.entries m (onGossip selfId now source pl m) ∧
      ∀ now' source' k, (onGossip selfId now' source' pl
        (onGossip selfId now source pl m)).lookup k = (onGossip selfId now source pl m).lookup k := by
  constructor
  · exact gossip_merged selfId now source pl.entries m
  · intro now' source' k
    exact gossip_again selfId now now' source source' pl m k

end Hivebus.Proofs.Merge
