import Mathlib.Data.List.DropRight
import Hivebus.Proto.Types

namespace Hivebus.Bus
open Proto

/-- The characters the standard library trims: those with the Unicode property White_Space. -/
def isWhitespace (c : Char) : Bool :=
  let n := c.toNat
  (9 ≤ n && n ≤ 13) || n = 0x20 || n = 0x85 || n = 0xA0 || n = 0x1680 ||
    (0x2000 ≤ n && n ≤ 0x200A) || n = 0x2028 || n = 0x2029 || n = 0x202F || n = 0x205F || n = 0x3000

def trim (s : List Char) : List Char := (s.dropWhile isWhitespace).rdropWhile isWhitespace

/-- `u8::from_str_radix(s, 16)`: a plus sign may stand in front, a digit has to stand behind
it, and the number has to fit. -/
def u8FromStrRadix (s : List Char) : Option UInt8 :=
  let digits := if s.head? = some '+' then s.tail else s
  if digits = [] then none
  else
    (digits.foldlM (fun n c => (hexValue c).bind (fun d =>
      if n * 16 + d < 256 then some (n * 16 + d) else none)) 0).map UInt8.ofNat

/-- `readToString` gives the files that can be read. -/
def deriveNodeId (readToString : String → Option String) (iface : String) : Except String UInt16 :=
  let path := "/sys/class/net/" ++ iface ++ "/address"
  match readToString path with
  | none => .error ("reading MAC from " ++ path)
  | some text =>
    let macStr := trim text.toList
    match (macStr.splitOn ':').mapM u8FromStrRadix with
    | none => .error ("parsing MAC " ++ String.ofList macStr)
    | some octets =>
      if h : octets.length = 6 then .ok (nodeIdFromMac ⟨octets, h⟩)
      else .error ("unexpected MAC length: " ++ String.ofList macStr)

end Hivebus.Bus
