import Hivebus.Hivectl.Query

namespace Hivebus.Hivectl
open Lib Proto

/-- A reading of the monotonic clock in nanoseconds, counted from anywhere. -/
abbrev Instant := Int

/-- Zero when the earlier reading is in fact the later one. -/
def elapsed (now earlier : Instant) : Duration := (now - earlier).toNat

def refreshInterval : Duration := Duration.fromSecs 1

/-- What `query_hivebus` comes back with. -/
abbrev Answer := Except String (List NodeInfo × Option UInt16)

structure ClusterState where
  nodes : List NodeInfo
  masterId : Option UInt16
  queriedAt : Instant
  error : Option String

/-- `selected` is the row of the table state. -/
structure App where
  cluster : ClusterState
  selected : Option Nat
  socketPath : String

namespace App

def new (socketPath : String) (now : Instant) : App where
  cluster := ⟨[], none, now - refreshInterval - Duration.fromMillis 1, some "connecting…"⟩
  selected := none
  socketPath := socketPath

def refresh (app : App) (answer : Answer) (now : Instant) : App :=
  match answer with
  | .ok (nodes, masterId) =>
    let selected := match app.selected with
      | some sel => if nodes ≠ [] ∧ nodes.length ≤ sel then some (nodes.length - 1) else some sel
      | none => if nodes ≠ [] then some 0 else none
    { app with cluster := ⟨nodes, masterId, now, none⟩, selected := selected }
  | .error e => { app with cluster := { app.cluster with error := some e, queriedAt := now } }

def scrollUp (app : App) : App :=
  let sel := app.selected.getD 0
  if 0 < sel then { app with selected := some (sel - 1) } else app

def scrollDown (app : App) : App :=
  let len := app.cluster.nodes.length
  let sel := app.selected.getD 0
  if sel + 1 < len then { app with selected := some (sel + 1) } else app

/-- Whole seconds, with the minutes apart from the first one on. -/
def formatAge (age : Duration) : String :=
  let secs := age / 10 ^ 9
  if secs < 60 then toString secs ++ "s"
  else toString (secs / 60) ++ "m" ++ toString (secs % 60) ++ "s"

def alive (app : App) : Nat := app.cluster.nodes.countP (fun n => n.state == .alive)

def masterLabel (app : App) : String :=
  ((app.cluster.masterId.bind (fun id => app.cluster.nodes.find? (fun n => n.nodeId == id))).map
    (fun n => n.hostname ++ " (" ++ toString n.nodeId.toNat ++ ")")).getD "—"

/-- The text of the header bar. -/
def header (app : App) (now : Instant) : String :=
  (if app.cluster.error.isSome then "✗" else "✔") ++ "  socket: " ++ app.socketPath ++
    "   master: " ++ app.masterLabel ++ "   nodes: " ++ toString app.alive ++ "/" ++
    toString app.cluster.nodes.length ++ " alive   updated " ++
    formatAge (elapsed now app.cluster.queriedAt) ++ " ago"

end App

inductive KeyCode where
  | char (c : Char)
  | up
  | down
  | other
deriving DecidableEq

structure KeyEvent where
  code : KeyCode
  modifiers : UInt8

/-- The bit of the control key; the source compares the whole set of modifiers with it. -/
def control : UInt8 := 2

inductive Command where
  | quit
  | refresh
  | up
  | down
  | nothing
deriving DecidableEq

def command (key : KeyEvent) : Command :=
  match key.code with
  | .char c =>
    if c = 'q' then .quit
    else if c = 'c' ∧ key.modifiers = control then .quit
    else if c = 'r' then .refresh
    else .nothing
  | .up => .up
  | .down => .down
  | .other => .nothing

/-- What one turn of the loop meets with: whether the terminal draws, the key that is read
(`error` when polling or reading fails), the answer to a refresh a key asks for, the reading
of the clock the refresh interval is held against, and the answer to the refresh that may
follow. -/
structure Turn where
  drawn : Bool
  event : Except String (Option KeyEvent)
  answer : Answer
  answeredAt : Instant
  checkedAt : Instant
  autoAnswer : Answer
  autoAnsweredAt : Instant

structure Screen where
  app : App
  running : Bool

/-- The end of a turn: auto-refresh once per interval. -/
def App.autoRefresh (app : App) (t : Turn) : Screen :=
  if refreshInterval ≤ elapsed t.checkedAt app.cluster.queriedAt then
    ⟨app.refresh t.autoAnswer t.autoAnsweredAt, true⟩
  else ⟨app, true⟩

/-- One turn of the loop. Drawing hands the selection to the table widget, which may change
it: `render` takes the number of rows and the selection. -/
def turn (render : Nat → Option Nat → Option Nat) (s : Screen) (t : Turn) : Screen :=
  if s.running ∧ t.drawn then
    let app := { s.app with selected := render s.app.cluster.nodes.length s.app.selected }
    match t.event with
    | .error _ => ⟨app, false⟩
    | .ok none => app.autoRefresh t
    | .ok (some key) =>
      match command key with
      | .quit => ⟨app, false⟩
      | .refresh => (app.refresh t.answer t.answeredAt).autoRefresh t
      | .up => app.scrollUp.autoRefresh t
      | .down => app.scrollDown.autoRefresh t
      | .nothing => app.autoRefresh t
  else { s with running := false }

end Hivebus.Hivectl
