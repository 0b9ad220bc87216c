import Mathlib.Data.List.DropRight
import Hivebus.Proto.Types

namespace Hivebus.Vagrant
open Proto

/-- `$(...)`: what a command prints, without zero bytes and without the newlines at its end. -/
def commandSubstitution (out : List Char) : List Char :=
  (out.filter (· ≠ '\x00')).rdropWhile (· = '\n')

/-- `IFS=':' read -r -a OCTETS <<< text`: the words of the first line. A separator at its end
does not start another word. -/
def readOctets (text : List Char) : List (List Char) :=
  let words := (text.takeWhile (· ≠ '\n')).splitOn ':'
  if words.getLast? = some [] then words.dropLast else words

/-- `$((16#word))` where the word is digits of that base; any other word stops the script. -/
def arithmetic16 (word : List Char) : Option UInt64 :=
  if word = [] then none
  else word.foldlM (fun n c => (hexValue c).map (fun d => n * 16 + UInt64.ofNat d)) 0

/-- What `provision-agent.sh` makes of the address file of its interface; nothing when it
stops before. -/
def nodeIdRaw (address : String) : Option UInt64 :=
  let macRaw := commandSubstitution address.toList
  if macRaw = [] then none
  else do
    let octets := readOctets macRaw
    let m0 ← octets[0]?.bind arithmetic16
    let m1 ← octets[1]?.bind arithmetic16
    let m2 ← octets[2]?.bind arithmetic16
    let m3 ← octets[3]?.bind arithmetic16
    let m4 ← octets[4]?.bind arithmetic16
    let m5 ← octets[5]?.bind arithmetic16
    let hi := (m0 ^^^ m2 ^^^ m4) &&& 0xFF
    let lo := (m1 ^^^ m3 ^^^ m5) &&& 0xFF
    return (hi <<< 8) ||| lo

/-- What the awk at hand takes for blank. Space and tab are; a printing ASCII character
is not. -/
structure Blanks where
  blank : Char → Bool
  space : blank ' ' = true
  tab : blank '\t' = true
  printing : ∀ c, 33 ≤ c.toNat → c.toNat < 127 → blank c = false

/-- The fields of a line: what stands between blanks. -/
def fields (b : Blanks) (line : List Char) : List (List Char) :=
  (line.splitOnP b.blank).filter (fun s => !s.isEmpty)

/-- `/^chain /` -/
def isChain (line : List Char) : Bool := "chain ".toList.isPrefixOf line

/-- `print $2`; a field that is not there is empty. -/
def secondField (b : Blanks) (line : List Char) : List Char := (fields b line).getD 1 []

/-- What `awk '/^chain / { print $2; exit }'` prints for a script. -/
def scriptSeedUrl (b : Blanks) (script : String) : String :=
  match (script.toList.splitOn '\n').find? isChain with
  | some line => String.ofList (secondField b line)
  | none => ""

end Hivebus.Vagrant
