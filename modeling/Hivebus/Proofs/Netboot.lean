import Hivebus.Pxeboot.Daemon
import Hivebus.Pxeboot.Server
import Hivebus.Proofs.BootFile
import Hivebus.Proofs.BootTable
import Hivebus.Proofs.NodeIds
import Hivebus.Proofs.Offers
import Hivebus.Proofs.Scripts
import Hivebus.Proofs.SeedUrl
import Hivebus.Proofs.TftpTransfer

namespace Hivebus.Proofs.Netboot
open Lib Proto Codec Pxeboot Vagrant Leases Offers Scripts BootFile BootTable NodeIds SeedUrl
open TftpTransfer

theorem names_pair {p : String} {a b : List Char} (hp : p.toList = a ++ '/' :: b)
    (ha : ∀ c ∈ a, c ≠ '/') (hb : ∀ c ∈ b, c ≠ '/') (ha' : a ≠ [] ∧ a ≠ ['.'])
    (hb' : b ≠ [] ∧ b ≠ ['.']) : names p = [a, b] := by
  have hsplit : (a ++ '/' :: b).splitOn '/' = [a, b] := by
    rw [List.splitOn, List.splitOnP_append_cons_of_forall_mem (fun c hc => by simpa using ha c hc)
      '/' rfl, List.splitOnP_eq_singleton]
    intro c hc
    simpa using hb c hc
  rw [names, hp, hsplit]
  simp [ha', hb']

theorem names_defaultScriptPath (mac : Mac) : names (defaultScriptPath mac) =
    ["scripts".toList, (fmtMac mac).toList ++ ".ipxe".toList] := by
  obtain ⟨hlen, hmac⟩ := fmtMac_chars mac (':' :: "0123456789abcdef".toList)
    List.mem_cons_self (fun n => List.mem_cons_of_mem _ (hexDigit_mem n))
  have hdir : "scripts".toList.all (fun c => c != '/') = true := by decide
  have hdigits : (':' :: "0123456789abcdef".toList).all (fun c => c != '/') = true := by decide
  have hend : ".ipxe".toList.all (fun c => c != '/') = true := by decide
  have hlong : ((fmtMac mac).toList ++ ".ipxe".toList).length = 22 := by
    rw [List.length_append, hlen]
    rfl
  apply names_pair
  · simp [defaultScriptPath]
  · intro c hc
    simpa using List.all_eq_true.mp hdir c hc
  · intro c hc
    rcases List.mem_append.mp hc with hc | hc
    · simpa using List.all_eq_true.mp hdigits c (hmac c hc)
    · simpa using List.all_eq_true.mp hend c hc
  · decide
  · constructor
    · intro h
      rw [h] at hlong
      cases hlong
    · intro h
      rw [h] at hlong
      cases hlong

/-- Where the script of a client goes that nobody has registered. -/
def ownFile (cfg : Config) (m : Mac) : List Component :=
  components cfg.tftpRoot ++ (names (defaultScriptPath m)).map .normal

theorem ownFile_inj {cfg : Config} {m m' : Mac} (h : ownFile cfg m = ownFile cfg m') : m = m' := by
  have hnames := names_inj h
  rw [names_defaultScriptPath, names_defaultScriptPath] at hnames
  have htail := (List.cons.inj (List.cons.inj hnames).2).1
  exact fmtMac_inj (String.toList_inj.mp (List.append_cancel_right htail))

theorem scriptPath_discovered (cfg : Config) (m : Mac) :
    scriptPath cfg (discovered m) = some (ownFile cfg m) :=
  ((requested_iff cfg _ _).mpr ⟨defaultScriptPath_servable m, rfl⟩).1

/-- Nobody registers the client or has its script file for another one, and what is written
is stored. -/
def Unattended (cfg : Config) (m : Mac) : Event → Prop
  | .register mac entry => mac ≠ m ∧ scriptPath cfg entry ≠ some (ownFile cfg m)
  | .advance _ stored | .write _ stored => stored = true
  | .recv _ => True

/-- What a discovery makes up for other clients never gets in the way. -/
theorem unattended_confined {cfg : Config} {m : Mac} {e : Event} (h : Unattended cfg m e)
    (s : State) : Confined cfg m (defaultScriptPath m) (ownFile cfg m) s e := by
  cases e with
  | register mac entry =>
    have hown : Own cfg m (defaultScriptPath m) (ownFile cfg m) mac entry := by
      unfold Own
      rw [if_neg h.1]
      exact h.2
    exact ⟨trivial, hown⟩
  | advance now stored => exact ⟨h, trivial⟩
  | write i stored => exact ⟨h, trivial⟩
  | recv q =>
    refine ⟨trivial, fun _ => ?_⟩
    unfold Own
    split
    · next hm => rw [hm]; rfl
    · next hm =>
      rw [scriptPath_discovered]
      intro hpath
      exact hm (ownFile_inj (Option.some.inj hpath))

/-- The client has nothing but what the server made up for it. -/
structure Fresh (cfg : Config) (m : Mac) (s : State) : Prop where
  kept : Kept cfg m (defaultScriptPath m) (ownFile cfg m) s
  entry : ∀ entry, s.boot.lookup m = some entry → entry = discovered m
  hands : ∀ entry, (m, entry) ∈ pending s → entry = discovered m

theorem start_fresh (cfg : Config) (m : Mac) : Fresh cfg m Pxeboot.start where
  kept := by
    refine ⟨?_, fun _ hx => absurd hx List.not_mem_nil⟩
    intro mac entry hb
    cases hb
  entry := by
    intro entry hb
    cases hb
  hands := fun _ hx => absurd hx List.not_mem_nil

/-- Whoever starts to work for the client works with the entry the server made up. -/
theorem starts_discovered {cfg : Config} {m : Mac} {s : State} {e : Event} {entry : BootEntry}
    (h : Fresh cfg m s) (he : Unattended cfg m e) (hx : starts s e = some (m, entry)) :
    entry = discovered m := by
  cases e with
  | advance now stored => cases hx
  | write i stored => cases hx
  | register mac entry' =>
    cases hx
    exact absurd rfl he.1
  | recv q =>
    cases hph : s.phase with
    | idle =>
      simp only [starts, hph, Option.some.injEq, Prod.mk.injEq] at hx
      obtain ⟨rfl, rfl⟩ := hx
      cases hb : s.boot.lookup q.mac with
      | none => rfl
      | some entry => exact h.entry entry hb
    | _ => simp only [starts, hph, reduceCtorEq] at hx

theorem step_fresh {cfg : Config} {m : Mac} {s : State} {e : Event} (h : Fresh cfg m s)
    (he : Unattended cfg m e) : Fresh cfg m (step cfg s e) := by
  have hc := unattended_confined he s
  refine ⟨step_kept hc h.kept, ?_, ?_⟩
  · intro entry hb
    cases hst : starts s e with
    | some x =>
      rw [(start_step cfg hst).2.1] at hb
      split at hb
      · next hm =>
        cases hb
        exact starts_discovered h he (by rw [hst, hm])
      · exact h.entry entry hb
    | none =>
      cases hw : writes s e with
      | some y =>
        rw [(write_step cfg hw hc.1).2.1] at hb
        exact h.entry entry hb
      | none =>
        rw [(quiet_step cfg hst hw).2.1] at hb
        exact h.entry entry hb
  · intro entry hx
    cases hst : starts s e with
    | some x =>
      rcases ((start_step cfg hst).2.2 _).mp hx with hnew | hold
      · exact starts_discovered h he (by rw [hst, hnew])
      · exact h.hands entry hold
    | none =>
      cases hw : writes s e with
      | some y =>
        obtain ⟨_, _, hpend, hall⟩ := write_step cfg hw hc.1
        rw [hpend] at hx
        exact h.hands entry ((hall _).mpr (.inr hx))
      | none =>
        rw [(quiet_step cfg hst hw).2.2] at hx
        exact h.hands entry hx

/-- The script of the client is on disk. -/
def Written (cfg : Config) (m : Mac) (s : State) : Prop :=
  s.files.lookup (ownFile cfg m) = some (renderIpxeScript cfg m (discovered m))

/-- Whoever writes a script either writes that one or another file. -/
theorem writes_written {cfg : Config} {m : Mac} {s : State} {e : Event} {x : Mac × BootEntry}
    {others : List (Mac × BootEntry)} (h : Fresh cfg m s) (he : Unattended cfg m e)
    (hw : writes s e = some (x, others)) (hs : x.1 = m ∨ Written cfg m s) :
    Written cfg m (step cfg s e) := by
  obtain ⟨hfiles, _, _, hall⟩ := write_step cfg hw (unattended_confined he s).1
  have hx := (hall x).mpr (.inl rfl)
  have hpath : sanitizeTftpPath (components cfg.tftpRoot) (defaultScriptPath m) =
      some (ownFile cfg m) := scriptPath_discovered cfg m
  rw [Written, hfiles, lookup_write hpath (h.kept.2 x hx)]
  split
  · next hm =>
    have hentry := h.hands x.2 (by rw [← hm]; exact hx)
    rw [hm, hentry]
  · next hm => exact hs.resolve_left hm

theorem step_written {cfg : Config} {m : Mac} {s : State} {e : Event} (h : Fresh cfg m s)
    (he : Unattended cfg m e) (hs : Written cfg m s) : Written cfg m (step cfg s e) := by
  cases hst : starts s e with
  | some x => rw [Written, (start_step cfg hst).1]; exact hs
  | none =>
    cases hw : writes s e with
    | some y => exact writes_written h he hw (.inr hs)
    | none => rw [Written, (quiet_step cfg hst hw).1]; exact hs

/-- The server is behind the script of a request of the client. -/
def Behind (m : Mac) : Phase → Prop
  | .choosing q | .leasing q | .storing q _ | .replying q _ => q.mac = m
  | .idle | .scripting _ _ => False

/-- A step gets behind the script of a request by writing it. -/
theorem step_behind {cfg : Config} {m : Mac} {s : State} {e : Event}
    (h : Behind m (step cfg s e).phase) :
    Behind m s.phase ∨ ∃ entry others, writes s e = some ((m, entry), others) := by
  rcases advance_or_other e with ⟨now, stored, rfl⟩ | hne
  · have hcases := advance_cases cfg now stored s
    simp only [step] at h
    generalize advance cfg now stored s = s' at hcases h
    cases hcases with
    | @script q entry hph =>
      have hq : q.mac = m := h
      exact .inr ⟨entry, s.writers, by simp only [writes, hph, hq]⟩
    | rest => exact .inl h
    | refuse | reply => exact absurd h id
    | assign hph _ | choose hph _ | renew hph _ | allocate hph _ _ | store hph =>
      rw [hph]
      exact .inl h
  · rcases phase_step cfg s hne with hsame | ⟨_, q, entry, _, hnew⟩
    · exact .inl (hsame ▸ h)
    · rw [hnew] at h
      exact absurd h id

/-- Behind its script, a request of the client finds the script on disk and its entry in the
table. -/
structure Ready (cfg : Config) (m : Mac) (s : State) : Prop where
  fresh : Fresh cfg m s
  known : ∀ q, s.phase.request = some q → q.mac = m → s.boot.lookup m = some (discovered m)
  written : Behind m s.phase → Written cfg m s

/-- Who is in the table stays there. -/
theorem step_known {cfg : Config} {m : Mac} {s : State} {e : Event} (h : Fresh cfg m s)
    (he : Unattended cfg m e) (hb : s.boot.lookup m = some (discovered m)) :
    (step cfg s e).boot.lookup m = some (discovered m) := by
  cases hst : starts s e with
  | some x =>
    rw [(start_step cfg hst).2.1]
    split
    · next hm =>
      have hx : starts s e = some (m, x.2) := by rw [hst, hm]
      rw [starts_discovered h he hx]
    · exact hb
  | none =>
    cases hw : writes s e with
    | some y => rw [(write_step cfg hw (unattended_confined he s).1).2.1, hb]
    | none => rw [(quiet_step cfg hst hw).2.1, hb]

theorem step_ready {cfg : Config} {m : Mac} {s : State} {e : Event} (h : Ready cfg m s)
    (he : Unattended cfg m e) : Ready cfg m (step cfg s e) := by
  refine ⟨step_fresh h.fresh he, ?_, ?_⟩
  · intro q hq hm
    rcases step_request hq with hold | ⟨hidle, rfl⟩
    · exact step_known h.fresh he (h.known q hold hm)
    · have hst : starts s (.recv q) = some (m, (s.boot.lookup q.mac).getD (discovered q.mac)) := by
        simp only [starts, hidle, hm]
      rw [(start_step cfg hst).2.1, if_pos rfl]
      exact congrArg some (starts_discovered h.fresh he hst)
  · intro hb
    rcases step_behind hb with hold | ⟨entry, others, hw⟩
    · exact step_written h.fresh he (h.written hold)
    · exact writes_written h.fresh he hw (.inl rfl)

theorem run_ready {cfg : Config} {m : Mac} {es : List Event} (h : ∀ e ∈ es, Unattended cfg m e) :
    Ready cfg m (run cfg es) := by
  refine Run.exec_invariant_of_all (C := Unattended cfg m) (fun s e hs he => step_ready hs he) ?_ h
  refine ⟨start_fresh cfg m, ?_, fun hb => absurd hb id⟩
  intro q hq
  cases hq

/-- When the server answers the client, the script is there and named in the answer. -/
theorem answered {cfg : Config} {m : Mac} {es : List Event} {e : Event} {r : Reply}
    (h : ∀ e ∈ es, Unattended cfg m e) (hr : answer cfg (run cfg es) e = some r) (hm : r.mac = m) :
    Written cfg m (run cfg es) ∧ r.bootFile = defaultScriptPath m := by
  have hready := run_ready h
  obtain ⟨q, hph, hq, hfile⟩ := answer_replying hr
  have hqm : q.mac = m := hq.symm.trans hm
  refine ⟨hready.written (by rw [hph]; exact hqm), ?_⟩
  rw [hfile, hm, hready.known q (by rw [hph]; rfl) hqm]
  rfl

end Hivebus.Proofs.Netboot
