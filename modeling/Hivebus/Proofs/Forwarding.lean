import Hivebus.Netgate.Gateway
import Hivebus.Proofs.Services

namespace Hivebus.Proofs.Forwarding
open Lib Proto Netgate Envelope Services

/-- What a request writes under a name: a record, or none in its place. -/
def dnsWrite (name : String) : ControlOp → Option (Option DnsRecord)
  | .custom tag payload =>
    if tag = "dns.upsert" then
      (DnsRecord.codec.decode payload).bind
        (fun p => if p.1.name = name then some (some p.1) else none)
    else if tag = "dns.delete" then
      if Codec.ofUtf8 payload = some name then some none else none
    else none
  | _ => none

/-- The rule a request adds. -/
def ruleOf : ControlOp → Option ProxyRule
  | .custom tag payload =>
    if tag = "proxy.add" then (ProxyRule.codec.decode payload).map Prod.fst else none
  | _ => none

/-- The bytes an event brings to the control socket. -/
def streamOf : Event → Option (List UInt8)
  | .control stream => some stream
  | .bind _ _ | .accept _ _ => none

variable {refusal : String → List UInt8 → String} {refused : List UInt8 → String}

theorem obey_rules (s : Netgate.State) (op : ControlOp) :
    (obey (controlPlane refusal) s op).proxyRules = s.proxyRules ++ (ruleOf op).toList ∧
      (obey (controlPlane refusal) s op).spawned = s.spawned ++ (ruleOf op).toList := by
  cases op with
  | custom tag payload =>
    simp only [obey, controlPlane, dispatch, custom, ruleOf, Option.map_some, Option.getD_some]
    by_cases h1 : tag = "dns.upsert"
    · have h3 : tag ≠ "proxy.add" := by rw [h1]; decide
      simp only [if_pos h1, if_neg h3]
      cases DnsRecord.codec.decode payload <;> simp
    · by_cases h2 : tag = "dns.delete"
      · have h3 : tag ≠ "proxy.add" := by rw [h2]; decide
        simp only [if_neg h1, if_pos h2, if_neg h3]
        cases Codec.ofUtf8 payload <;> simp
      · by_cases h3 : tag = "proxy.add"
        · simp only [if_neg h1, if_neg h2, if_pos h3]
          cases ProxyRule.codec.decode payload <;> simp
        · simp [if_neg h1, if_neg h2, if_neg h3]
  | _ => simp [obey, controlPlane, dispatch, ruleOf]

/-- Whatever a connection brings, it adds one rule at most. -/
theorem connection_rules (refusal : String → List UInt8 → String) (refused : List UInt8 → String)
    (s : Netgate.State) (stream : List UInt8) : ∃ rule : Option ProxyRule,
      (connection (controlPlane refusal) refused s stream).1.spawned =
        s.spawned ++ rule.toList := by
  have hexit : ExitsOnShutdown (controlPlane refusal) := dispatch_exits
  have hr := connection_request hexit refused s stream
  split at hr
  · rw [hr.1]
    exact ⟨none, (List.append_nil _).symm⟩
  · rw [hr]
    exact ⟨none, (List.append_nil _).symm⟩
  · next op _ _ =>
    rw [hr.1]
    exact ⟨ruleOf op, (obey_rules s op).2⟩

theorem obey_dns (s : Netgate.State) (op : ControlOp) (name : String) :
    (obey (controlPlane refusal) s op).dnsTable.lookup name =
      (dnsWrite name op).getD (s.dnsTable.lookup name) := by
  cases op with
  | custom tag payload =>
    simp only [obey, controlPlane, dispatch, custom, dnsWrite, Option.map_some, Option.getD_some]
    by_cases h1 : tag = "dns.upsert"
    · simp only [if_pos h1]
      cases DnsRecord.codec.decode payload with
      | none => rfl
      | some p =>
        obtain ⟨rec, rest⟩ := p
        simp only [Option.bind_some, Table.lookup_insert_if]
        by_cases hn : name = rec.name
        · rw [if_pos hn, if_pos hn.symm, Option.getD_some]
        · rw [if_neg hn, if_neg (fun h => hn h.symm), Option.getD_none]
    · simp only [if_neg h1]
      by_cases h2 : tag = "dns.delete"
      · simp only [if_pos h2]
        cases Codec.ofUtf8 payload with
        | none => rfl
        | some other =>
          by_cases hn : other = name
          · rw [hn, if_pos rfl, Option.getD_some, AList.lookup_erase]
          · rw [if_neg (by simpa using hn), Option.getD_none,
              AList.lookup_erase_ne (fun h => hn h.symm)]
      · simp only [if_neg h2]
        by_cases h3 : tag = "proxy.add"
        · simp only [if_pos h3]
          cases ProxyRule.codec.decode payload <;> rfl
        · rw [if_neg h3]
          rfl
  | _ => rfl

theorem serve_ends {g : Gateway} {stream : List UInt8}
    (h : (connection (controlPlane refusal) refused g.state stream).2 = .exited) :
    g.serve refusal refused stream = { g with exited := true } := by
  unfold Gateway.serve
  split
  · rfl
  · next hlives hc =>
    rw [hc] at h
    exact (hlives h).elim

theorem serve_told {g : Gateway} {stream : List UInt8}
    (h : (connection (controlPlane refusal) refused g.state stream).2 ≠ .exited) :
    g.serve refusal refused stream =
      { g with
        state := (connection (controlPlane refusal) refused g.state stream).1
        tasks := g.tasks ++
          ((connection (controlPlane refusal) refused g.state stream).1.spawned.drop
            g.state.spawned.length).map (ProxyTask.mk · .spawned) } := by
  unfold Gateway.serve
  split
  · next hc => exact absurd (by rw [hc]) h
  · next hc => rw [hc]

theorem gateway_serves : Serves (controlPlane refusal) refused (Gateway.step refusal refused)
    Gateway.state Gateway.exited streamOf where
  ended := by
    intro g e hg
    simp [Gateway.step, hg]
  idle := by
    intro g e hg hs
    unfold Gateway.step
    rw [if_neg (by simp [hg])]
    cases e with
    | control stream => cases hs
    | bind ix bound => exact ⟨rfl, hg⟩
    | accept ix connected =>
      simp only
      split <;> exact ⟨rfl, hg⟩
  told := by
    intro g e bs hg hs hx
    unfold Gateway.step
    rw [if_neg (by simp [hg])]
    cases e with
    | control stream =>
      cases hs
      simp only [serve_told hx]
      exact ⟨trivial, hg⟩
    | bind ix bound => cases hs
    | accept ix connected => cases hs
  ends := by
    intro g e bs hg hs hx
    unfold Gateway.step
    rw [if_neg (by simp [hg])]
    cases e with
    | control stream =>
      cases hs
      simp only [serve_ends hx]
      exact ⟨trivial, trivial⟩
    | bind ix bound => cases hs
    | accept ix connected => cases hs

/-- What happens to the tasks in a step: a request adds one, or one of them has a turn. -/
theorem step_tasks (refusal : String → List UInt8 → String) (refused : List UInt8 → String)
    (g : Gateway) (e : Event) :
    (∃ rule : Option ProxyRule,
      (Gateway.step refusal refused g e).tasks =
        g.tasks ++ rule.toList.map (ProxyTask.mk · .spawned) ∧
      (Gateway.step refusal refused g e).state.spawned = g.state.spawned ++ rule.toList) ∨
    ∃ ix bound, e = .bind ix bound ∧ g.exited = false ∧
      (Gateway.step refusal refused g e).tasks = g.tasks.modify ix (ProxyTask.bind bound) ∧
      (Gateway.step refusal refused g e).state = g.state := by
  unfold Gateway.step
  by_cases hg : g.exited = true
  · rw [if_pos hg]
    exact .inl ⟨none, by simp, by simp⟩
  · rw [if_neg hg]
    cases e with
    | control stream =>
      left
      by_cases hx : (connection (controlPlane refusal) refused g.state stream).2 = .exited
      · simp only [serve_ends hx]
        exact ⟨none, by simp, by simp⟩
      · obtain ⟨rule, hrule⟩ := connection_rules refusal refused g.state stream
        simp only [serve_told hx, hrule, List.drop_left]
        exact ⟨rule, rfl, rfl⟩
    | bind ix bound => exact .inr ⟨ix, bound, rfl, by simpa using hg, rfl, rfl⟩
    | accept ix connected =>
      left
      refine ⟨none, ?_, ?_⟩
      · simp only
        split <;> simp
      · simp only
        split <;> simp

@[simp] theorem bind_rule (bound : Bool) (t : ProxyTask) : (t.bind bound).rule = t.rule := by
  unfold ProxyTask.bind
  split <;> rfl

theorem bind_listening {bound : Bool} {t : ProxyTask} (h : (t.bind bound).phase = .listening) :
    t.phase = .listening ∨ t.phase = .spawned ∧ bound = true := by
  unfold ProxyTask.bind at h
  split at h
  · next hp =>
    cases bound with
    | true => exact .inr ⟨hp, rfl⟩
    | false => cases h
  · exact .inl h
  · exact .inl h

theorem bind_keeps {bound : Bool} {t : ProxyTask} (h : t.phase = .listening) :
    t.bind bound = t := by
  unfold ProxyTask.bind
  rw [h]

/-- Every rule that was added has its task. -/
def Staffed (g : Gateway) : Prop := g.tasks.map ProxyTask.rule = g.state.spawned

theorem step_staffed {g : Gateway} (h : Staffed g) (e : Event) :
    Staffed (Gateway.step refusal refused g e) := by
  unfold Staffed at h ⊢
  rcases step_tasks refusal refused g e with
    ⟨rule, ht, hs⟩ | ⟨ix, bound, _, _, ht, hs⟩
  · rw [ht, hs, List.map_append, h, List.map_map]
    exact congrArg (g.state.spawned ++ ·) (List.map_id _)
  · rw [ht, hs, ← h]
    apply List.ext_getElem?
    intro j
    simp only [List.getElem?_map, List.getElem?_modify, Option.map_eq_map, Option.map_map]
    congr 1
    funext t
    simp only [Function.comp_apply]
    split <;> simp

theorem run_state (refusal : String → List UInt8 → String) (refused : List UInt8 → String)
    (es : List Event) : (Gateway.run refusal refused es).state =
      Run.exec (obey (controlPlane refusal)) Gateway.start.state (commands streamOf es) :=
  gateway_serves.exec_state dispatch_exits rfl es

theorem run_staffed (refusal : String → List UInt8 → String) (refused : List UInt8 → String)
    (es : List Event) : Staffed (Gateway.run refusal refused es) := by
  have hstart : Staffed Gateway.start := rfl
  exact Run.exec_invariant (I := Staffed) (fun _ e h => step_staffed h e) hstart es

theorem run_spawned (refusal : String → List UInt8 → String) (refused : List UInt8 → String)
    (es : List Event) : (Gateway.run refusal refused es).state.spawned =
      (commands streamOf es).filterMap ruleOf := by
  rw [run_state, Run.exec_log Netgate.State.spawned (fun s op => (obey_rules s op).2)]
  rfl

/-- The name under which a record is written is its own. -/
theorem dnsWrite_name {name : String} {op : ControlOp} {r : DnsRecord}
    (h : dnsWrite name op = some (some r)) : r.name = name := by
  unfold dnsWrite at h
  split at h
  · split at h
    · obtain ⟨p, _, hp⟩ := Option.bind_eq_some_iff.mp h
      split at hp
      · next hn =>
        cases hp
        exact hn
      · cases hp
    · split at h
      · split at h
        · cases h
        · cases h
      · cases h
  · cases h

/-- What the tables of netgate say after any connections, however many of them carry no
request at all: under each name the record that was last written there, and its own name in
it, unless the last thing was to delete it; and each rule that was ever added, in order, with
a task that was started for it once. -/
theorem tables_tell (refusal : String → List UInt8 → String) (refused : List UInt8 → String)
    (es : List Event) :
    (∀ name, (Gateway.run refusal refused es).state.dnsTable.lookup name =
      (((commands streamOf es).filterMap (dnsWrite name)).getLast?).getD none) ∧
    (∀ name r, (Gateway.run refusal refused es).state.dnsTable.lookup name = some r →
      r.name = name) ∧
    (Gateway.run refusal refused es).state.proxyRules = (commands streamOf es).filterMap ruleOf ∧
    (Gateway.run refusal refused es).tasks.map ProxyTask.rule =
      (commands streamOf es).filterMap ruleOf := by
  have hdns : ∀ name, (Gateway.run refusal refused es).state.dnsTable.lookup name =
      (((commands streamOf es).filterMap (dnsWrite name)).getLast?).getD none := by
    intro name
    rw [run_state, Run.exec_last_write (fun s : Netgate.State => s.dnsTable.lookup name)
      (fun s op => obey_dns s op name)]
    rfl
  refine ⟨hdns, ?_, ?_, ?_⟩
  · intro name r hr
    rw [hdns] at hr
    cases hl : ((commands streamOf es).filterMap (dnsWrite name)).getLast? with
    | none =>
      rw [hl] at hr
      cases hr
    | some w =>
      rw [hl, Option.getD_some] at hr
      subst hr
      obtain ⟨op, _, hop⟩ := List.mem_filterMap.mp (List.mem_of_getLast? hl)
      exact dnsWrite_name hop
  · rw [run_state, Run.exec_log Netgate.State.proxyRules (fun s op => (obey_rules s op).1)]
    rfl
  · rw [run_staffed, run_spawned]

/-- The system gives a task no address, with a port of its own, that another task has. -/
def Exclusive (g : Gateway) (e : Event) : Prop :=
  ∀ ix t, e = .bind ix true → g.tasks[ix]? = some t → t.phase = .spawned → port t.rule.listen ≠ 0 →
    ∀ u ∈ g.tasks, u.phase = .listening → u.rule.listen ≠ t.rule.listen

/-- An address is held by one task, and what was forwarded was forwarded by a task that still
listens. -/
structure Held (g : Gateway) : Prop where
  one : ∀ (i j : Nat) (t u : ProxyTask), g.tasks[i]? = some t → g.tasks[j]? = some u →
    t.phase = .listening → u.phase = .listening → t.rule.listen = u.rule.listen →
    port t.rule.listen ≠ 0 → i = j
  flows : ∀ f ∈ g.flows, ∃ t ∈ g.tasks, t.phase = .listening ∧ t.rule.listen = f.listen ∧
    t.rule.target = f.target

/-- A task that listens after a step did so before, or has just been given its address. -/
theorem step_listening {g : Gateway} {e : Event} {j : Nat} {t : ProxyTask}
    (ht : (Gateway.step refusal refused g e).tasks[j]? = some t) (hl : t.phase = .listening) :
    g.tasks[j]? = some t ∨
      ∃ u, e = .bind j true ∧ g.tasks[j]? = some u ∧ u.phase = .spawned ∧ t.rule = u.rule := by
  rcases step_tasks refusal refused g e with
    ⟨rule, hts, _⟩ | ⟨ix, bound, rfl, _, hts, _⟩
  · rw [hts, List.getElem?_append] at ht
    split at ht
    · exact .inl ht
    · obtain ⟨r, _, rfl⟩ := List.mem_map.mp (List.mem_of_getElem? ht)
      cases hl
  · rw [hts, List.getElem?_modify] at ht
    obtain ⟨u, hu, he⟩ := Option.map_eq_some_iff.mp ht
    split at he
    · next hix =>
      subst hix he
      rcases bind_listening hl with hp | ⟨hp, rfl⟩
      · rw [bind_keeps hp]
        exact .inl hu
      · exact .inr ⟨u, rfl, hu, hp, bind_rule true u⟩
    · subst he
      exact .inl hu

/-- A task that listens goes on listening. -/
theorem listening_stays {g : Gateway} {t : ProxyTask} (e : Event) (ht : t ∈ g.tasks)
    (hl : t.phase = .listening) : t ∈ (Gateway.step refusal refused g e).tasks := by
  rcases step_tasks refusal refused g e with
    ⟨rule, hts, _⟩ | ⟨ix, bound, _, _, hts, _⟩
  · rw [hts]
    exact List.mem_append_left _ ht
  · obtain ⟨j, hj⟩ := List.mem_iff_getElem?.mp ht
    rw [hts]
    refine List.mem_iff_getElem?.mpr ⟨j, ?_⟩
    rw [List.getElem?_modify, hj]
    simp [bind_keeps hl]

/-- What is forwarded in a step is forwarded by a task that listens. -/
theorem step_flows (g : Gateway) (e : Event) :
    ∀ f ∈ (Gateway.step refusal refused g e).flows, f ∈ g.flows ∨
      ∃ t ∈ g.tasks,
        t.phase = .listening ∧ t.rule.listen = f.listen ∧ t.rule.target = f.target := by
  intro f hf
  unfold Gateway.step at hf
  split at hf
  · exact .inl hf
  · cases e with
    | control stream =>
      simp only [Gateway.serve] at hf
      split at hf <;> exact .inl hf
    | bind ix bound => exact .inl hf
    | accept ix connected =>
      simp only at hf
      split at hf
      · next rule hix =>
        rcases List.mem_cons.mp hf with rfl | hf
        · exact .inr ⟨_, List.mem_of_getElem? hix, rfl, rfl, rfl⟩
        · exact .inl hf
      · exact .inl hf

theorem step_held {g : Gateway} {e : Event} (h : Held g) (he : Exclusive g e) :
    Held (Gateway.step refusal refused g e) where
  one := by
    intro i j t u ht hu hlt hlu hsame hport
    rcases step_listening ht hlt with ht | ⟨t', hd, ht', hp', hr'⟩
    · rcases step_listening hu hlu with hu | ⟨u', hd, hu', hp', hr'⟩
      · exact h.one i j t u ht hu hlt hlu hsame hport
      · have hfree := he j u' hd hu' hp' (by rw [← hr', ← hsame]; exact hport)
        exact absurd (hsame.trans (congrArg ProxyRule.listen hr'))
          (hfree t (List.mem_of_getElem? ht) hlt)
    · rcases step_listening hu hlu with hu | ⟨u', hd', _, _, _⟩
      · have hfree := he i t' hd ht' hp' (by rw [← hr']; exact hport)
        exact absurd (hsame.symm.trans (congrArg ProxyRule.listen hr'))
          (hfree u (List.mem_of_getElem? hu) hlu)
      · rw [hd] at hd'
        cases hd'
        rfl
  flows := by
    intro f hf
    rcases step_flows g e f hf with hold | ⟨t, ht, hl, hrule⟩
    · obtain ⟨t, ht, hl, hrule⟩ := h.flows f hold
      exact ⟨t, listening_stays e ht hl, hl, hrule⟩
    · exact ⟨t, listening_stays e ht hl, hl, hrule⟩

/-- Where the traffic of netgate goes: only where a rule for its address says that was added
before, and for one address with a port of its own to one target for good, however many other
rules are added for it and answered with `Ok`. -/
theorem traffic_stays (refusal : String → List UInt8 → String) (refused : List UInt8 → String)
    (es : List Event)
    (h : Run.Along (Gateway.step refusal refused) Exclusive Gateway.start es) :
    (∀ f ∈ (Gateway.run refusal refused es).flows,
      ∃ rule ∈ (commands streamOf es).filterMap ruleOf,
        rule.listen = f.listen ∧ rule.target = f.target) ∧
    ∀ f ∈ (Gateway.run refusal refused es).flows, ∀ f' ∈ (Gateway.run refusal refused es).flows,
      f.listen = f'.listen → port f.listen ≠ 0 → f.target = f'.target := by
  have hstart : Held Gateway.start := by
    refine ⟨?_, ?_⟩
    · intro i j t u ht
      cases ht
    · intro f hf
      cases hf
  have hheld := Run.throughout_of_along (I := Held) (fun _ _ hg he => step_held hg he) hstart h
    es [] (List.append_nil es).symm
  refine ⟨?_, ?_⟩
  · intro f hf
    obtain ⟨t, ht, _, hrule⟩ := hheld.flows f hf
    refine ⟨t.rule, ?_, hrule⟩
    rw [← run_spawned refusal refused, ← run_staffed refusal refused]
    exact List.mem_map_of_mem ht
  · intro f hf f' hf' hsame hport
    obtain ⟨t, ht, hlt, htl, htt⟩ := hheld.flows f hf
    obtain ⟨u, hu, hlu, hul, hut⟩ := hheld.flows f' hf'
    obtain ⟨i, hi⟩ := List.mem_iff_getElem?.mp ht
    obtain ⟨j, hj⟩ := List.mem_iff_getElem?.mp hu
    have hij := hheld.one i j t u hi hj hlt hlu (by rw [htl, hul, hsame]) (by rw [htl]; exact hport)
    subst hij
    rw [hi] at hj
    cases hj
    rw [← htt, ← hut]

def addRule (rule : ProxyRule) : Event :=
  .control (frame (ControlOp.codec.encode (.custom "proxy.add" (ProxyRule.codec.encode rule))))

def local80 (host : UInt32) : ProxyRule :=
  ⟨"web", .v4 ⟨0x7F000001⟩ 80, .v4 ⟨0x0A2A000A + host⟩ 80⟩

/-- Two rules for one address; the second does not get it. -/
def doubled : List Event :=
  [addRule (local80 1), addRule (local80 2), .bind 0 true, .bind 1 false, .accept 0 true]

theorem doubled_exclusive : Run.Along (Gateway.step (fun _ _ => "") (fun _ => "")) Exclusive
    Gateway.start doubled := by
  have hnone : (Gateway.run (fun _ _ => "") (fun _ => "") (doubled.take 2)).tasks.all
      (fun u => decide (u.phase ≠ .listening)) = true := by decide +kernel
  simp only [doubled, Run.along_cons]
  refine ⟨?_, ?_, ?_, ?_, ?_, Run.along_nil _ _⟩
  case refine_3 =>
    intro ix t _ _ _ _ u hu hl
    exact absurd hl (of_decide_eq_true (List.all_eq_true.mp hnone u hu))
  all_goals
    intro ix t hd
    cases hd

theorem doubled_stays : ∃ f ∈ (Gateway.run (fun _ _ => "") (fun _ => "") doubled).flows,
    f.listen = (local80 1).listen ∧ ∃ rule ∈ (commands streamOf doubled).filterMap ruleOf,
      rule.listen = f.listen ∧ rule.target = f.target := by
  have hflows : (Gateway.run (fun _ _ => "") (fun _ => "") doubled).flows =
      [⟨(local80 1).listen, (local80 1).target, true⟩] := by decide +kernel
  refine ⟨_, by rw [hflows]; exact List.mem_singleton_self _, rfl, ?_⟩
  exact (traffic_stays (fun _ _ => "") (fun _ => "") doubled doubled_exclusive).1 _
    (by rw [hflows]; exact List.mem_singleton_self _)

end Hivebus.Proofs.Forwarding
