import Hivebus.Proofs.Leases

namespace Hivebus.Proofs.Scripts
open Lib Proto Pxeboot Leases

/-- Where the script of an entry goes, if it has one that may be written. -/
def scriptPath (cfg : Config) (entry : BootEntry) : Option (List Component) :=
  entry.ipxeScript.bind (sanitizeTftpPath (components cfg.tftpRoot))

theorem writeIpxeScript_eq (cfg : Config) (mac : Mac) (entry : BootEntry) (files : Files) :
    writeIpxeScript cfg mac entry true files =
      match scriptPath cfg entry with
      | some path => files.insert path (renderIpxeScript cfg mac entry)
      | none => files := by
  unfold writeIpxeScript scriptPath
  cases entry.ipxeScript with
  | none => rfl
  | some relPath =>
    simp only [Option.bind_some, ↓reduceIte]
    cases sanitizeTftpPath (components cfg.tftpRoot) relPath <;> rfl

/-- The script the DHCP task still has to write. -/
def unwritten : Phase → List (Mac × BootEntry)
  | .scripting q entry => [(q.mac, entry)]
  | _ => []

/-- The scripts that started handlers still have to write. -/
def pending (s : State) : List (Mac × BootEntry) := unwritten s.phase ++ s.writers

/-- The client an event starts a handler for, and the entry the handler works with. -/
def starts (s : State) : Event → Option (Mac × BootEntry)
  | .register mac entry => some (mac, entry)
  | .recv q =>
    match s.phase with
    | .idle => some (q.mac, (s.boot.lookup q.mac).getD (discovered q.mac))
    | _ => none
  | _ => none

/-- The script an event writes, and those that other handlers have still to write. -/
def writes (s : State) : Event → Option ((Mac × BootEntry) × List (Mac × BootEntry))
  | .advance _ _ =>
    match s.phase with
    | .scripting q entry => some ((q.mac, entry), s.writers)
    | _ => none
  | .write i _ => s.writers[i]?.map (fun x => (x, unwritten s.phase ++ s.writers.eraseIdx i))
  | _ => none

/-- A write that the event makes succeeds. -/
def Stored : Event → Prop
  | .advance _ stored | .write _ stored => stored = true
  | _ => True

theorem start_step (cfg : Config) {s : State} {e : Event} {x : Mac × BootEntry}
    (h : starts s e = some x) :
    (step cfg s e).files = s.files ∧
      (∀ k, (step cfg s e).boot.lookup k = if k = x.1 then some x.2 else s.boot.lookup k) ∧
      ∀ y, y ∈ pending (step cfg s e) ↔ y = x ∨ y ∈ pending s := by
  cases e with
  | advance now stored => cases h
  | write i stored => cases h
  | register mac entry =>
    cases h
    refine ⟨rfl, fun k => Table.lookup_insert_if _ _ _ _, ?_⟩
    intro y
    simp only [step, pending, List.mem_append, List.mem_singleton]
    grind
  | recv q =>
    cases hph : s.phase with
    | idle =>
      simp only [starts, hph, Option.some.injEq] at h
      subst h
      cases hb : s.boot.lookup q.mac with
      | some entry =>
        simp only [step, hph, hb, pending, unwritten, Option.getD_some]
        refine ⟨trivial, ?_, by simp⟩
        intro k
        split
        · next hk => rw [hk, hb]
        · rfl
      | none =>
        simp only [step, hph, hb, pending, unwritten, Option.getD_none]
        exact ⟨trivial, fun k => Table.lookup_insert_if _ _ _ _, by simp⟩
    | _ => simp only [starts, hph, reduceCtorEq] at h

theorem write_step (cfg : Config) {s : State} {e : Event} {x : Mac × BootEntry}
    {others : List (Mac × BootEntry)} (h : writes s e = some (x, others)) (hs : Stored e) :
    (step cfg s e).files = writeIpxeScript cfg x.1 x.2 true s.files ∧
      (step cfg s e).boot = s.boot ∧ pending (step cfg s e) = others ∧
      ∀ y, y ∈ pending s ↔ y = x ∨ y ∈ others := by
  cases e with
  | recv q => cases h
  | register mac entry => cases h
  | advance now stored =>
    have hs : stored = true := hs
    subst hs
    cases hph : s.phase with
    | scripting q entry =>
      simp only [writes, hph, Option.some.injEq, Prod.mk.injEq] at h
      obtain ⟨rfl, rfl⟩ := h
      simp only [step, advance, hph, pending, unwritten]
      simp
    | _ => simp only [writes, hph, reduceCtorEq] at h
  | write i stored =>
    have hs : stored = true := hs
    subst hs
    obtain ⟨y, hy, he⟩ := Option.map_eq_some_iff.mp h
    obtain ⟨rfl, rfl⟩ := Prod.mk.inj he
    obtain ⟨mac, entry⟩ := y
    simp only [step, hy, pending]
    refine ⟨trivial, trivial, trivial, ?_⟩
    intro z
    have hz : z ∈ s.writers ↔ z = (mac, entry) ∨ z ∈ s.writers.eraseIdx i := by
      rw [List.mem_eraseIdx_iff_getElem?, List.mem_iff_getElem?]
      constructor
      · intro hex
        obtain ⟨j, hj⟩ := hex
        by_cases hji : j = i
        · rw [hji, hy, Option.some.injEq] at hj
          exact .inl hj.symm
        · exact .inr ⟨j, hji, hj⟩
      · intro hor
        rcases hor with rfl | ⟨j, _, hj⟩
        · exact ⟨i, hy⟩
        · exact ⟨j, hj⟩
    rw [List.mem_append, List.mem_append, hz]
    exact or_left_comm

theorem quiet_step (cfg : Config) {s : State} {e : Event} (hst : starts s e = none)
    (hw : writes s e = none) :
    (step cfg s e).files = s.files ∧ (step cfg s e).boot = s.boot ∧
      pending (step cfg s e) = pending s := by
  cases e with
  | register mac entry => cases hst
  | recv q =>
    cases hph : s.phase with
    | idle => simp only [starts, hph, reduceCtorEq] at hst
    | _ => simp only [step, hph, true_and]
  | write i stored =>
    have hi : s.writers[i]? = none := Option.map_eq_none_iff.mp hw
    simp only [step, hi, true_and]
  | advance now stored =>
    have hcases := advance_cases cfg now stored s
    simp only [step]
    generalize advance cfg now stored s = s' at hcases ⊢
    cases hcases with
    | script hph => simp only [writes, hph, reduceCtorEq] at hw
    | rest => exact ⟨rfl, rfl, rfl⟩
    | assign hph _ | choose hph _ | renew hph _ | allocate hph _ _ | refuse hph _ _ | store hph
    | reply hph => simp only [pending, unwritten, hph, true_and]

/-- An entry of the client has its script at the given name; one of any other client
writes elsewhere. -/
def Own (cfg : Config) (m : Mac) (p : String) (path : List Component) (mac : Mac)
    (entry : BootEntry) : Prop :=
  if mac = m then entry.ipxeScript = some p else scriptPath cfg entry ≠ some path

/-- The client is only ever given entries with the one script name, nobody else uses its
path, and all writes succeed. -/
def Confined (cfg : Config) (m : Mac) (p : String) (path : List Component) (s : State)
    (e : Event) : Prop :=
  Stored e ∧
    match e with
    | .register mac entry => Own cfg m p path mac entry
    | .recv q => q.mac ∉ s.boot → Own cfg m p path q.mac (discovered q.mac)
    | _ => True

/-- A script that is not the one of the entry in the table is written only while another
handler has still to write the one that is. -/
def StaleCovered (cfg : Config) (m : Mac) (s : State) (e : Event) : Prop :=
  ∀ entry others current, writes s e = some ((m, entry), others) →
    s.boot.lookup m = some current →
    renderIpxeScript cfg m entry ≠ renderIpxeScript cfg m current →
    ∃ entry', (m, entry') ∈ others ∧
      renderIpxeScript cfg m entry' = renderIpxeScript cfg m current

/-- With no handler under way, the file has the script of the entry in the table. -/
def Follows (cfg : Config) (m : Mac) (path : List Component) (s : State) : Prop :=
  s.phase = .idle → s.writers = [] → ∀ current, s.boot.lookup m = some current →
    s.files.lookup path = some (renderIpxeScript cfg m current)

/-- All entries in the table and in the hands of handlers are confined. -/
def Kept (cfg : Config) (m : Mac) (p : String) (path : List Component) (s : State) : Prop :=
  (∀ mac entry, s.boot.lookup mac = some entry → Own cfg m p path mac entry) ∧
    ∀ x ∈ pending s, Own cfg m p path x.1 x.2

/-- The file has the script of the entry in the table, or will have it. -/
def Promised (cfg : Config) (m : Mac) (path : List Component) (s : State) : Prop :=
  ∀ current, s.boot.lookup m = some current →
    s.files.lookup path = some (renderIpxeScript cfg m current) ∨
    ∃ entry, (m, entry) ∈ pending s ∧
      renderIpxeScript cfg m entry = renderIpxeScript cfg m current

theorem starts_own {cfg : Config} {m : Mac} {p : String} {path : List Component} {s : State}
    {e : Event} {x : Mac × BootEntry} (hx : starts s e = some x)
    (hc : Confined cfg m p path s e) (hk : Kept cfg m p path s) : Own cfg m p path x.1 x.2 := by
  cases e with
  | advance now stored => cases hx
  | write i stored => cases hx
  | register mac entry =>
    cases hx
    exact hc.2
  | recv q =>
    cases hph : s.phase with
    | idle =>
      simp only [starts, hph, Option.some.injEq] at hx
      subst hx
      cases hb : s.boot.lookup q.mac with
      | some entry => exact hk.1 q.mac entry hb
      | none => exact hc.2 (AList.lookup_eq_none.mp hb)
    | _ => simp only [starts, hph, reduceCtorEq] at hx

theorem step_kept {cfg : Config} {m : Mac} {p : String} {path : List Component} {s : State}
    {e : Event} (hc : Confined cfg m p path s e) (hk : Kept cfg m p path s) :
    Kept cfg m p path (step cfg s e) := by
  cases hst : starts s e with
  | some x =>
    obtain ⟨_, hboot, hpend⟩ := start_step cfg hst
    have hown := starts_own hst hc hk
    constructor
    · intro mac entry hb
      rw [hboot] at hb
      split at hb
      · next hm =>
        cases hb
        rw [hm]
        exact hown
      · exact hk.1 mac entry hb
    · intro y hy
      rcases (hpend y).mp hy with rfl | hy
      · exact hown
      · exact hk.2 y hy
  | none =>
    cases hw : writes s e with
    | some y =>
      obtain ⟨x, others⟩ := y
      obtain ⟨_, hboot, hpend, hall⟩ := write_step cfg hw hc.1
      rw [Kept, hboot, hpend]
      exact ⟨hk.1, fun y hy => hk.2 y ((hall y).mpr (.inr hy))⟩
    | none =>
      obtain ⟨_, hboot, hpend⟩ := quiet_step cfg hst hw
      rw [Kept, hboot, hpend]
      exact hk

/-- What a write leaves at the path of the client. -/
theorem lookup_write {cfg : Config} {m : Mac} {p : String} {path : List Component}
    (hp : sanitizeTftpPath (components cfg.tftpRoot) p = some path) {mac : Mac} {entry : BootEntry}
    (h : Own cfg m p path mac entry) (files : Files) :
    (writeIpxeScript cfg mac entry true files).lookup path =
      if mac = m then some (renderIpxeScript cfg mac entry) else files.lookup path := by
  rw [writeIpxeScript_eq]
  unfold Own at h
  split at h
  · next hm =>
    have hs : scriptPath cfg entry = some path := by rw [scriptPath, h, Option.bind_some, hp]
    rw [hs, if_pos hm]
    exact AList.lookup_insert _
  · next hm =>
    rw [if_neg hm]
    cases hs : scriptPath cfg entry with
    | none => rfl
    | some path' =>
      apply AList.lookup_insert_ne
      intro he
      rw [hs, he] at h
      exact h rfl

/-- In a confined run, a step keeps the promise exactly when it leaves no stale script
with nobody to replace it. -/
theorem step_promised {cfg : Config} {m : Mac} {p : String} {path : List Component}
    (hp : sanitizeTftpPath (components cfg.tftpRoot) p = some path) {s : State} {e : Event}
    (hc : Confined cfg m p path s e) (hk : Kept cfg m p path s) (h : Promised cfg m path s) :
    Promised cfg m path (step cfg s e) ↔ StaleCovered cfg m s e := by
  cases hw : writes s e with
  | some y =>
    obtain ⟨⟨mac, entry⟩, others⟩ := y
    obtain ⟨hfiles, hboot, hpend, hall⟩ := write_step cfg hw hc.1
    have hown : Own cfg m p path mac entry := hk.2 (mac, entry) ((hall _).mpr (.inl rfl))
    rw [Promised, hfiles, hboot, hpend, lookup_write hp hown]
    by_cases hm : mac = m
    · subst hm
      simp only [↓reduceIte, Option.some.injEq, StaleCovered, hw, Prod.mk.injEq, true_and]
      constructor
      · intro hall entry' others' current heq hcur hne
        obtain ⟨rfl, rfl⟩ := heq
        exact (hall current hcur).resolve_left hne
      · intro hstale current hcur
        by_cases he : renderIpxeScript cfg mac entry = renderIpxeScript cfg mac current
        · exact .inl he
        · exact .inr (hstale entry others current ⟨rfl, rfl⟩ hcur he)
    · refine iff_of_true ?_ ?_
      · intro current hcur
        rw [if_neg hm]
        rcases h current hcur with hf | ⟨entry', hmem, he⟩
        · exact .inl hf
        · rcases (hall (m, entry')).mp hmem with heq | hmem
          · exact absurd (Prod.mk.inj heq).1.symm hm
          · exact .inr ⟨entry', hmem, he⟩
      · intro entry' others' current heq
        rw [hw, Option.some.injEq, Prod.mk.injEq, Prod.mk.injEq] at heq
        exact absurd heq.1.1 hm
  | none =>
    have hstale : StaleCovered cfg m s e := by
      intro entry others current heq
      rw [hw] at heq
      cases heq
    refine iff_of_true ?_ hstale
    cases hst : starts s e with
    | none =>
      obtain ⟨hfiles, hboot, hpend⟩ := quiet_step cfg hst hw
      rw [Promised, hfiles, hboot, hpend]
      exact h
    | some x =>
      obtain ⟨hfiles, hboot, hpend⟩ := start_step cfg hst
      intro current hcur
      rw [hboot] at hcur
      split at hcur
      · next hm =>
        cases hcur
        exact .inr ⟨x.2, (hpend _).mpr (.inl (by rw [hm])), rfl⟩
      · rcases h current hcur with hf | ⟨entry', hmem, he⟩
        · left
          rw [hfiles]
          exact hf
        · exact .inr ⟨entry', (hpend _).mpr (.inr hmem), he⟩

theorem promised_follows {cfg : Config} {m : Mac} {path : List Component} {s : State}
    (h : Promised cfg m path s) : Follows cfg m path s := by
  intro hph hwr current hcur
  rcases h current hcur with hf | ⟨entry, hmem, _⟩
  · exact hf
  · simp only [pending, hph, hwr, unwritten, List.append_nil, List.not_mem_nil] at hmem

/-- In every confined run in which no stale script is left with nobody to replace it, the
script on disk follows the boot table. -/
theorem script_follows_table {cfg : Config} {m : Mac} {p : String} {path : List Component}
    {es : List Event} (hp : sanitizeTftpPath (components cfg.tftpRoot) p = some path)
    (hc : Run.Along (step cfg) (Confined cfg m p path) start es)
    (hs : Run.Along (step cfg) (StaleCovered cfg m) start es) :
    Run.Throughout (step cfg) (Follows cfg m path) start es := by
  have hinv : Run.Throughout (step cfg)
      (fun s => Kept cfg m p path s ∧ Promised cfg m path s) start es := by
    refine Run.throughout_of_along
      (C := fun s e => Confined cfg m p path s e ∧ StaleCovered cfg m s e) ?_ ?_ ?_
    · intro s e both cond
      exact ⟨step_kept cond.1 both.1, (step_promised hp cond.1 both.1 both.2).mpr cond.2⟩
    · refine ⟨⟨?_, ?_⟩, ?_⟩
      · intro mac entry hb
        cases hb
      · intro x hx
        cases hx
      · intro current hcur
        cases hcur
    · intro pre e post he
      exact ⟨hc pre e post he, hs pre e post he⟩
  intro pre post he
  exact promised_follows (hinv pre post he).2

def scriptName : String := "scripts/node2.ipxe"

def scriptFile : List Component :=
  components "/var/lib/hivebus/tftp/scripts/node2.ipxe"

/-- An entry for the first client, whose script greets it by this name. -/
def named (hostname : String) : BootEntry := ⟨hostname, none, some scriptName, ∅⟩

theorem scriptName_file :
    sanitizeTftpPath (components seedConfig.tftpRoot) scriptName = some scriptFile := by
  decide

/-- A client is registered twice before the first handler writes its script; the second one
then writes over it. -/
def inOrder : List Event :=
  [.register (discover 1).mac (named "node2"), .register (discover 1).mac (named "node9"),
    .write 0 true, .write 0 true]

theorem stale_script_replaced :
    Run.Throughout (step seedConfig) (Follows seedConfig (discover 1).mac scriptFile) start
        inOrder ∧
      (run seedConfig (inOrder.take 3)).files.lookup scriptFile ≠
        some (renderIpxeScript seedConfig (discover 1).mac (named "node9")) ∧
      (run seedConfig inOrder).files.lookup scriptFile =
        some (renderIpxeScript seedConfig (discover 1).mac (named "node9")) := by
  have hfollows : Run.Throughout (step seedConfig)
      (Follows seedConfig (discover 1).mac scriptFile) start inOrder := by
    refine script_follows_table scriptName_file ?_ ?_
    · exact Run.along_cons.mpr ⟨⟨trivial, rfl⟩, Run.along_cons.mpr ⟨⟨trivial, rfl⟩,
        Run.along_cons.mpr ⟨⟨rfl, trivial⟩, Run.along_cons.mpr ⟨⟨rfl, trivial⟩,
        Run.along_nil _ _⟩⟩⟩⟩
    · refine Run.along_cons.mpr ⟨?_, Run.along_cons.mpr ⟨?_, Run.along_cons.mpr ⟨?_,
        Run.along_cons.mpr ⟨?_, Run.along_nil _ _⟩⟩⟩⟩
      · intro entry others current hw
        cases hw
      · intro entry others current hw
        cases hw
      · -- the script of the first registration is stale, the other handler has the right one
        intro entry others current hw hcur _
        cases hw
        cases hcur
        exact ⟨named "node9", List.mem_cons_self, rfl⟩
      · intro entry others current hw hcur hne
        cases hw
        cases hcur
        exact absurd rfl hne
  exact ⟨hfollows, by decide, hfollows inOrder [] rfl rfl rfl (named "node9") rfl⟩

/-- A client is registered twice; the handler of the second registration writes its
script first. -/
def overtaken : List Event :=
  [.register (discover 1).mac (named "node2"), .register (discover 1).mac (named "node9"),
    .write 1 true, .write 0 true]

theorem overtaken_script_stale :
    sanitizeTftpPath (components seedConfig.tftpRoot) scriptName = some scriptFile ∧
      Run.Along (step seedConfig) (Confined seedConfig (discover 1).mac scriptName scriptFile)
        start overtaken ∧
      ¬ Run.Throughout (step seedConfig) (Follows seedConfig (discover 1).mac scriptFile) start
        overtaken := by
  refine ⟨scriptName_file, ?_, ?_⟩
  · exact Run.along_cons.mpr ⟨⟨trivial, rfl⟩, Run.along_cons.mpr ⟨⟨trivial, rfl⟩,
      Run.along_cons.mpr ⟨⟨rfl, trivial⟩, Run.along_cons.mpr ⟨⟨rfl, trivial⟩, Run.along_nil _ _⟩⟩⟩⟩
  · intro h
    have hf := h overtaken [] rfl rfl rfl (named "node9") rfl
    revert hf
    decide

end Hivebus.Proofs.Scripts
