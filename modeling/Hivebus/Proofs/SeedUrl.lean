import Hivebus.Lib.Split
import Hivebus.Pxeboot.Boot
import Hivebus.Vagrant.Agent

namespace Hivebus.Proofs.SeedUrl
open Lib Proto Pxeboot Vagrant

/-- The URL an agent is meant to get: the one of the entry, else the one of the server, else
the server's own address. -/
def intendedUrl (cfg : Config) (entry : BootEntry) : String :=
  match entry.tags.lookup "seed_url", cfg.seedUrl with
  | some url, _ => url
  | none, some url => url
  | none, none => "http://" ++ fmtIp cfg.serverIp ++ ":7780/seed.tar.gz"

/-- A URL that stays on its line and is one field of it. -/
def Unbroken (b : Blanks) (url : List Char) : Prop := ∀ c ∈ url, b.blank c = false ∧ c ≠ '\n'

/-- The lines a host name with line breaks adds to a script. What the script has behind the
name ends up on the last of them. -/
def hostLines (mac : Mac) (hostname : String) : List (List Char) :=
  ((hostname ++ " (" ++ fmtMac mac ++ ")").toList.splitOn '\n').tail

/-- The URL that was given, if one was, is unbroken, and the host name adds no line that
looks like the one with the URL, or one that says the same. -/
structure Harmless (b : Blanks) (cfg : Config) (mac : Mac) (entry : BootEntry) : Prop where
  url : ∀ url, (entry.tags.lookup "seed_url").or cfg.seedUrl = some url → Unbroken b url.toList
  host : ∀ line, (hostLines mac entry.hostname).find? isChain = some line →
    secondField b line = (intendedUrl cfg entry).toList

theorem render_eq (cfg : Config) (mac : Mac) (entry : BootEntry) :
    renderIpxeScript cfg mac entry =
      "#!ipxe\necho hivebus bootstrap for " ++ entry.hostname ++ " (" ++ fmtMac mac ++
        ")\nset seed-url " ++ intendedUrl cfg entry ++ "\nchain " ++ intendedUrl cfg entry ++ "\n" := by
  have hurl : intendedUrl cfg entry = ((entry.tags.lookup "seed_url").or cfg.seedUrl).getD
      ("http://" ++ fmtIp cfg.serverIp ++ ":7780/seed.tar.gz") := by
    unfold intendedUrl
    cases entry.tags.lookup "seed_url" with
    | some url => rfl
    | none => cases cfg.seedUrl <;> rfl
  rw [hurl]
  delta renderIpxeScript
  dsimp only

/-- The text of a script, line by line as it was meant. -/
theorem script_toList (cfg : Config) (mac : Mac) (entry : BootEntry) :
    (renderIpxeScript cfg mac entry).toList =
      "#!ipxe".toList ++ '\n' :: ("echo hivebus bootstrap for ".toList ++
        (entry.hostname ++ " (" ++ fmtMac mac ++ ")").toList ++
        '\n' :: ("set seed-url ".toList ++ (intendedUrl cfg entry).toList ++
          '\n' :: ("chain ".toList ++ (intendedUrl cfg entry).toList ++ '\n' :: []))) := by
  have hhead : "#!ipxe\necho hivebus bootstrap for ".toList =
      "#!ipxe".toList ++ '\n' :: "echo hivebus bootstrap for ".toList := by simp
  have hset : ")\nset seed-url ".toList = ")".toList ++ '\n' :: "set seed-url ".toList := by simp
  have hchain : "\nchain ".toList = '\n' :: "chain ".toList := by simp
  have hend : "\n".toList = ['\n'] := by simp
  rw [render_eq]
  simp only [String.toList_append, hhead, hset, hchain, hend, List.append_assoc, List.cons_append]

theorem splitOn_front (pre xs : List Char) (h : '\n' ∉ pre) :
    ∃ rest, (pre ++ xs).splitOn '\n' = (pre ++ rest) :: (xs.splitOn '\n').tail := by
  obtain ⟨hd, tl, hsplit⟩ := List.exists_cons_of_ne_nil (List.splitOn_ne_nil '\n' xs)
  refine ⟨hd, ?_⟩
  rw [List.splitOn_eq_splitOnP, Split.splitOnP_append, ← List.splitOn_eq_splitOnP, hsplit]
  · rfl
  · intro c hc
    rw [beq_eq_false_iff_ne]
    rintro rfl
    exact h hc

theorem isChain_first : isChain "#!ipxe".toList = false := by
  simp [isChain, List.isPrefixOf]

theorem isChain_echo (rest : List Char) :
    isChain ("echo hivebus bootstrap for ".toList ++ rest) = false := by
  simp [isChain, List.isPrefixOf]

theorem isChain_set (rest : List Char) : isChain ("set seed-url ".toList ++ rest) = false := by
  simp [isChain, List.isPrefixOf]

theorem isChain_chain (rest : List Char) : isChain ("chain ".toList ++ rest) = true := by
  simp [isChain]

/-- The lines of the host name come before the line with the URL. -/
theorem find_chain (cfg : Config) (mac : Mac) (entry : BootEntry) :
    ((renderIpxeScript cfg mac entry).toList.splitOn '\n').find? isChain =
      ((hostLines mac entry.hostname).find? isChain).or
        ((("set seed-url ".toList ++ (intendedUrl cfg entry).toList).splitOn '\n' ++
          (("chain ".toList ++ (intendedUrl cfg entry).toList).splitOn '\n' ++ [[]])).find?
            isChain) := by
  have hfirst : "#!ipxe".toList.splitOn '\n' = ["#!ipxe".toList] :=
    List.splitOn_eq_singleton (by simp)
  obtain ⟨rest, hecho⟩ := splitOn_front "echo hivebus bootstrap for ".toList
    (entry.hostname ++ " (" ++ fmtMac mac ++ ")").toList (by simp)
  rw [script_toList, List.splitOn_append_cons_self, List.splitOn_append_cons_self,
    List.splitOn_append_cons_self, List.splitOn_append_cons_self, hfirst, hecho,
    List.find?_append, List.find?_append, List.find?_cons, isChain_first, List.find?_cons,
    isChain_echo]
  rfl

/-- With an unbroken URL the line with the URL is the next one that counts. -/
theorem find_url {b : Blanks} {url : List Char} (h : Unbroken b url) :
    (("set seed-url ".toList ++ url).splitOn '\n' ++
      (("chain ".toList ++ url).splitOn '\n' ++ [[]])).find? isChain =
        some ("chain ".toList ++ url) := by
  have hline : ∀ pre : List Char, '\n' ∉ pre → (pre ++ url).splitOn '\n' = [pre ++ url] := by
    intro pre hpre
    apply List.splitOn_eq_singleton
    rw [List.mem_append]
    rintro (hm | hm)
    · exact hpre hm
    · exact (h _ hm).2 rfl
  rw [hline _ (by simp), hline _ (by simp), List.singleton_append, List.find?_cons, isChain_set,
    List.singleton_append, List.find?_cons, isChain_chain]

/-- A visible ASCII character, which is neither blank nor a line break. -/
def printing (c : Char) : Bool := 33 ≤ c.toNat && c.toNat < 127

theorem unbroken_of_printing (b : Blanks) {url : List Char} (h : url.all printing = true) :
    Unbroken b url := by
  intro c hc
  have hp := List.all_eq_true.mp h c hc
  simp only [printing, Bool.and_eq_true, decide_eq_true_eq] at hp
  obtain ⟨hlow, hhigh⟩ := hp
  refine ⟨b.printing c hlow hhigh, ?_⟩
  rintro rfl
  exact absurd hlow (by decide)

theorem printing_digit {c : Char} (h : c.isDigit = true) : printing c = true := by
  obtain ⟨hlow, hhigh⟩ := Char.isDigit_iff_toNat.mp h
  rw [printing, Bool.and_eq_true, decide_eq_true_eq, decide_eq_true_eq]
  refine ⟨?_, ?_⟩
  · exact Nat.le_trans (by decide) hlow
  · exact Nat.lt_of_le_of_lt hhigh (by decide)

theorem printing_fmtIp (a : Ipv4Addr) : (fmtIp a).toList.all printing = true := by
  rw [List.all_eq_true]
  intro c hc
  rw [fmtIp, String.toList_intercalate] at hc
  rcases Split.mem_intercalate hc with hdot | ⟨part, hpart, hc⟩
  · rw [show ".".toList = ['.'] by simp, List.mem_singleton] at hdot
    subst c
    rfl
  · obtain ⟨text, htext, rfl⟩ := List.mem_map.mp hpart
    obtain ⟨n, _, rfl⟩ := List.mem_map.mp htext
    change c ∈ (Nat.repr n.toNat).toList at hc
    rw [Nat.toList_repr] at hc
    exact printing_digit (Nat.isDigit_of_mem_toDigits (by decide) (by decide) hc)

/-- The address the server falls back to is always usable. -/
theorem printing_default (a : Ipv4Addr) :
    ("http://" ++ fmtIp a ++ ":7780/seed.tar.gz").toList.all printing = true := by
  have hhead : "http://".toList.all printing = true := by decide +kernel
  have htail : ":7780/seed.tar.gz".toList.all printing = true := by decide +kernel
  rw [String.toList_append, String.toList_append, List.all_append, List.all_append, hhead, htail,
    printing_fmtIp]
  rfl

/-- Only a URL that was given can be broken. -/
theorem unbroken_intended (b : Blanks) (cfg : Config) (entry : BootEntry) :
    Unbroken b (intendedUrl cfg entry).toList ↔
      ∀ url, (entry.tags.lookup "seed_url").or cfg.seedUrl = some url → Unbroken b url.toList := by
  unfold intendedUrl
  cases entry.tags.lookup "seed_url" with
  | some url => simp
  | none =>
    cases cfg.seedUrl with
    | some url => simp
    | none => simpa using unbroken_of_printing b (printing_default cfg.serverIp)

theorem secondField_chain {b : Blanks} {url : List Char} (h : Unbroken b url) :
    secondField b ("chain ".toList ++ url) = url := by
  have hsplit : "chain ".toList ++ url = ['c', 'h', 'a', 'i', 'n'] ++ ' ' :: url := by simp
  have hword : ['c', 'h', 'a', 'i', 'n'].splitOnP b.blank = [['c', 'h', 'a', 'i', 'n']] := by
    apply List.splitOnP_eq_singleton
    intro c hc
    exact (unbroken_of_printing b (by decide +kernel) c hc).1
  have hurl : url.splitOnP b.blank = [url] := List.splitOnP_eq_singleton (fun c hc => (h c hc).1)
  rw [secondField, fields, hsplit, List.splitOnP_append_cons _ _ b.space, hword, hurl]
  cases url with
  | nil => rfl
  | cons c cs => rfl

/-- What awk prints is one field of one line. -/
theorem secondField_unbroken (b : Blanks) {line : List Char} (h : '\n' ∉ line) :
    Unbroken b (secondField b line) := by
  intro c hc
  rw [secondField, List.getD_eq_getElem?_getD] at hc
  cases hf : (fields b line)[1]? with
  | none =>
    rw [hf] at hc
    cases hc
  | some piece =>
    rw [hf, Option.getD_some] at hc
    have hpiece := (List.mem_filter.mp (List.mem_of_getElem? hf)).1
    obtain ⟨hblank, hin⟩ := Split.mem_piece hpiece hc
    refine ⟨hblank, ?_⟩
    rintro rfl
    exact h hin

theorem scriptSeedUrl_unbroken (b : Blanks) (script : String) :
    Unbroken b (scriptSeedUrl b script).toList := by
  unfold scriptSeedUrl
  cases hf : (script.toList.splitOn '\n').find? isChain with
  | none =>
    intro c hc
    cases hc
  | some line =>
    have hline := List.mem_of_find?_eq_some hf
    rw [List.splitOn_eq_splitOnP] at hline
    change Unbroken b (String.ofList (secondField b line)).toList
    rw [String.toList_ofList]
    apply secondField_unbroken
    intro hc
    obtain ⟨hbreak, _⟩ := Split.mem_piece hline hc
    exact absurd hbreak (by decide)

/-- The agent reads the URL of a line the host name added, if there is one. -/
theorem scriptSeedUrl_host {b : Blanks} {cfg : Config} {mac : Mac} {entry : BootEntry}
    {line : List Char} (h : (hostLines mac entry.hostname).find? isChain = some line) :
    scriptSeedUrl b (renderIpxeScript cfg mac entry) = String.ofList (secondField b line) := by
  rw [scriptSeedUrl, find_chain, h, Option.some_or]

theorem scriptSeedUrl_url {b : Blanks} {cfg : Config} {mac : Mac} {entry : BootEntry}
    (h : (hostLines mac entry.hostname).find? isChain = none)
    (hurl : Unbroken b (intendedUrl cfg entry).toList) :
    scriptSeedUrl b (renderIpxeScript cfg mac entry) = intendedUrl cfg entry := by
  rw [scriptSeedUrl, find_chain, h, Option.none_or, find_url hurl]
  change String.ofList (secondField b ("chain ".toList ++ (intendedUrl cfg entry).toList)) = _
  rw [secondField_chain hurl, String.ofList_toList]

theorem seed_url_iff (b : Blanks) (cfg : Config) (mac : Mac) (entry : BootEntry) :
    scriptSeedUrl b (renderIpxeScript cfg mac entry) = intendedUrl cfg entry ↔
      Harmless b cfg mac entry := by
  constructor
  · intro h
    -- What awk prints is unbroken, so a URL that is not cannot come out.
    have hurl := scriptSeedUrl_unbroken b (renderIpxeScript cfg mac entry)
    rw [h] at hurl
    refine ⟨(unbroken_intended b cfg entry).mp hurl, ?_⟩
    intro line hline
    rw [← h, scriptSeedUrl_host hline, String.toList_ofList]
  · intro h
    cases hhost : (hostLines mac entry.hostname).find? isChain with
    | none => exact scriptSeedUrl_url hhost ((unbroken_intended b cfg entry).mpr h.url)
    | some line => rw [scriptSeedUrl_host hhost, h.host line hhost, String.ofList_toList]

def spaceAndTab : Blanks where
  blank c := c = ' ' || c = '\t'
  space := by decide
  tab := by decide
  printing := by
    intro c hlow _
    rw [Bool.or_eq_false_iff, decide_eq_false_iff_not, decide_eq_false_iff_not]
    refine ⟨?_, ?_⟩
    · rintro rfl
      exact absurd hlow (by decide)
    · rintro rfl
      exact absurd hlow (by decide)

/-- A host name with a line break in it, which `boot.register` takes as it takes any other. -/
def brokenName : BootEntry := ⟨"node2\nchain http://10.42.0.99/", none, none, ∅⟩

def anyMac : Mac := ⟨[0x52, 0x54, 0x00, 0x12, 0x34, 0x56], rfl⟩

theorem broken_name_takes_over :
    scriptSeedUrl spaceAndTab (renderIpxeScript seedConfig anyMac brokenName) ≠
      intendedUrl seedConfig brokenName := by
  have hmac : (fmtMac anyMac).toList = "52:54:00:12:34:56".toList := by decide +kernel
  have hhost : (hostLines anyMac brokenName.hostname).find? isChain =
      some "chain http://10.42.0.99/ (52:54:00:12:34:56)".toList := by
    rw [hostLines, String.toList_append, String.toList_append, String.toList_append, hmac]
    decide +kernel
  rw [scriptSeedUrl_host hhost]
  intro h
  have hurl := congrArg String.toList h
  rw [String.toList_ofList] at hurl
  revert hurl
  decide +kernel

end Hivebus.Proofs.SeedUrl
