import Hivebus.Bus.News
import Hivebus.Lib.Stamped

namespace Hivebus.Proofs.Convergence
open Lib Proto Bus

/-- What gossip can learn and pass on about a node. -/
def view (r : Option NodeInfo) : Stamped UInt32 NodeState :=
  r.map (fun n => (n.incarnation, n.state))

/-- What an entry says about its node. -/
def said (e : GossipEntry) : Stamped UInt32 NodeState := some (e.incarnation, e.state)

/-- What a payload as a whole says about a node: the highest incarnation it carries for
it, with the last state it gives at that incarnation. -/
def verdict (pl : GossipPayload) (k : UInt16) : Stamped UInt32 NodeState :=
  ((pl.entries.filter (fun e => e.nodeId = k)).map said).foldl Stamped.join none

/-- One entry joins what is known with what it says, new record or not. -/
theorem view_absorb (now : SystemTime) (source : SocketAddr) (e : GossipEntry)
    (r : Option NodeInfo) :
    view (some (absorb e (r.getD (gossipRecord now source e)))) = Stamped.join (view r) (said e) := by
  cases r with
  | none =>
    have hge : e.incarnation ≥ (gossipRecord now source e).incarnation := UInt32.le_refl _
    simp only [Option.getD_none, absorb, if_pos hge]
    rfl
  | some n =>
    simp only [Option.getD_some, absorb, view, said, Option.map_some, Stamped.join_some]
    split <;> rfl

theorem view_gossipEntry (selfId : UInt16) (now : SystemTime) (source : SocketAddr) (m : Members)
    (e : GossipEntry) (k : UInt16) (hk : k ≠ selfId) :
    view ((onGossipEntry selfId now source m e).lookup k) =
      if e.nodeId = k then Stamped.join (view (m.lookup k)) (said e) else view (m.lookup k) := by
  by_cases hek : e.nodeId = k
  · subst hek
    rw [onGossipEntry, if_neg hk, Table.lookup_upsert, if_pos rfl, if_pos rfl]
    exact view_absorb now source e (m.lookup e.nodeId)
  · rw [if_neg hek, onGossipEntry]
    split
    · rfl
    · rw [Table.lookup_upsert, if_neg (Ne.symm hek)]

/-- A payload changes what is known of a node to its join with the payload's verdict. -/
theorem view_gossip (selfId : UInt16) (now : SystemTime) (source : SocketAddr)
    (pl : GossipPayload) (m : Members) (k : UInt16) (hk : k ≠ selfId) :
    view ((onGossip selfId now source pl m).lookup k) =
      Stamped.join (view (m.lookup k)) (verdict pl k) := by
  obtain ⟨es⟩ := pl
  have fold : ∀ m : Members,
      view ((es.foldl (onGossipEntry selfId now source) m).lookup k) =
        ((es.filter (fun e => e.nodeId = k)).map said).foldl Stamped.join (view (m.lookup k)) := by
    induction es with
    | nil => exact fun m => rfl
    | cons e es ih =>
      intro m
      rw [List.foldl_cons, ih, view_gossipEntry selfId now source m e k hk, List.filter_cons]
      by_cases hek : e.nodeId = k
      · simp only [hek, ↓reduceIte, decide_true, List.map_cons, List.foldl_cons]
      · simp only [hek, ↓reduceIte, decide_false, Bool.false_eq_true]
  exact (fold m).trans (Stamped.foldl_join _ _)

/-- A gossip payload as it arrives somewhere. -/
structure Delivery where
  now : SystemTime
  source : SocketAddr
  payload : GossipPayload

def receive (selfId : UInt16) (m : Members) (ds : List Delivery) : Members :=
  ds.foldl (fun m x => onGossip selfId x.now x.source x.payload m) m

theorem view_receive (selfId : UInt16) (ds : List Delivery) (m : Members) (k : UInt16)
    (hk : k ≠ selfId) :
    view ((receive selfId m ds).lookup k) =
      (ds.map (fun x => verdict x.payload k)).foldl Stamped.join (view (m.lookup k)) := by
  induction ds generalizing m with
  | nil => rfl
  | cons x ds ih =>
    rw [receive, List.foldl_cons, ← receive, ih, view_gossip selfId _ _ _ m k hk, List.map_cons,
      List.foldl_cons]

/-- Two payloads commute if and only if they do not tie with different states. -/
theorem two_payloads_iff (selfId : UInt16) (m : Members) (P Q : GossipPayload)
    (t₁ t₂ t₃ t₄ : SystemTime) (s₁ s₂ s₃ s₄ : SocketAddr) :
    (∀ k, view ((receive selfId m [⟨t₁, s₁, P⟩, ⟨t₂, s₂, Q⟩]).lookup k) =
      view ((receive selfId m [⟨t₃, s₃, Q⟩, ⟨t₄, s₄, P⟩]).lookup k)) ↔
    ∀ k, k ≠ selfId → Stamped.Agree (view (m.lookup k)) (verdict P k) (verdict Q k) := by
  constructor
  · intro h k hk
    have he := h k
    rw [view_receive selfId _ m k hk, view_receive selfId _ m k hk] at he
    exact (Stamped.join_comm_iff _ _ _).mp he
  · intro h k
    by_cases hk : k = selfId
    · subst hk
      simp only [receive, List.foldl_cons, List.foldl_nil, onGossip, gossip_unnamed]
    · rw [view_receive selfId _ m k hk, view_receive selfId _ m k hk]
      exact (Stamped.join_comm_iff _ _ _).mpr (h k hk)

/-- Two daemons that know the same end up knowing the same of every third node,
whatever the order they get the payloads in, if and only if the newest verdicts agree. -/
theorem any_order_iff (a b : UInt16) (m m' : Members) (ds : List Delivery)
    (hm : ∀ k, view (m.lookup k) = view (m'.lookup k)) :
    (∀ ds' : List Delivery, (ds'.map Delivery.payload).Perm (ds.map Delivery.payload) →
      ∀ k, k ≠ a → k ≠ b →
        view ((receive a m ds).lookup k) = view ((receive b m' ds').lookup k)) ↔
    ∀ k, k ≠ a → k ≠ b →
      Stamped.NewestAgree (view (m.lookup k)) (ds.map (fun x => verdict x.payload k)) := by
  constructor
  · intro h k ha hb
    apply (Stamped.foldl_join_perm_iff _ _).mp
    intro qs hq
    have hc := List.eq_map_comp_perm (fun x : Delivery => verdict x.payload k)
    obtain ⟨ds', hqs, hds⟩ := (congrFun (congrFun hc qs) ds).mpr hq
    have he := h ds' (hds.map Delivery.payload) k ha hb
    rw [view_receive a ds m k ha, view_receive b ds' m' k hb, ← hm k] at he
    rw [hqs]
    exact he.symm
  · intro h ds' hp k ha hb
    rw [view_receive a ds m k ha, view_receive b ds' m' k hb, ← hm k]
    have hq : (ds'.map (fun x => verdict x.payload k)).Perm
        (ds.map (fun x => verdict x.payload k)) := by
      have := hp.map (fun pl => verdict pl k)
      simpa only [List.map_map, Function.comp_def] using this
    exact ((Stamped.foldl_join_perm_iff _ _).mpr (h k ha hb) _ hq).symm

/-- When gossip converges: at one daemon for two payloads, and between two daemons `a`
and `b` that know the same for any number of them. -/
theorem gossip_converges_iff (a b : UInt16) (m m' : Members) (P Q : GossipPayload)
    (t₁ t₂ t₃ t₄ : SystemTime) (s₁ s₂ s₃ s₄ : SocketAddr) (ds : List Delivery) :
    ((∀ k, view ((receive a m [⟨t₁, s₁, P⟩, ⟨t₂, s₂, Q⟩]).lookup k) =
        view ((receive a m [⟨t₃, s₃, Q⟩, ⟨t₄, s₄, P⟩]).lookup k)) ↔
      ∀ k, k ≠ a → Stamped.Agree (view (m.lookup k)) (verdict P k) (verdict Q k)) ∧
    ((∀ k, view (m.lookup k) = view (m'.lookup k)) →
      ((∀ ds' : List Delivery, (ds'.map Delivery.payload).Perm (ds.map Delivery.payload) →
        ∀ k, k ≠ a → k ≠ b →
          view ((receive a m ds).lookup k) = view ((receive b m' ds').lookup k)) ↔
      ∀ k, k ≠ a → k ≠ b →
        Stamped.NewestAgree (view (m.lookup k)) (ds.map (fun x => verdict x.payload k)))) :=
  ⟨two_payloads_iff a m P Q t₁ t₂ t₃ t₄ s₁ s₂ s₃ s₄, any_order_iff a b m m' ds⟩

/-- Node 7 at incarnation 1, as one entry of gossip. -/
def seven (st : NodeState) : GossipPayload := ⟨[⟨7, 1, st, 0⟩]⟩

/-- Node 7 is known alive when one payload repeats that and another calls it dead at the
same incarnation: the last payload wins. -/
theorem tied_payloads_diverge :
    ¬ ∀ k,
      view ((receive 2 (onGossip 2 (.early 0) (peer 1) (seven .alive) ∅)
        [⟨.early 1, peer 1, seven .alive⟩, ⟨.early 2, peer 3, seven .dead⟩]).lookup k) =
      view ((receive 2 (onGossip 2 (.early 0) (peer 1) (seven .alive) ∅)
        [⟨.early 1, peer 3, seven .dead⟩, ⟨.early 2, peer 1, seven .alive⟩]).lookup k) := by
  intro h
  exact absurd (h 7) (by decide)

end Hivebus.Proofs.Convergence
