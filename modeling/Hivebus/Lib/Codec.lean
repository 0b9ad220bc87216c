import Mathlib.Algebra.GroupWithZero.Nat
import Mathlib.Data.List.Basic

namespace Lib

/-- `k` bytes of a number, least significant first. -/
def leBytes : Nat → Nat → List UInt8
  | 0, _ => []
  | k + 1, n => UInt8.ofNat n :: leBytes k (n / 256)

def ofLeBytes : List UInt8 → Nat
  | [] => 0
  | b :: bs => b.toNat + 256 * ofLeBytes bs

/-- `k` bytes of a number, most significant first. -/
def beBytes (k n : Nat) : List UInt8 := (leBytes k n).reverse

def ofBeBytes (bs : List UInt8) : Nat := ofLeBytes bs.reverse

@[simp] theorem length_leBytes (k n : Nat) : (leBytes k n).length = k := by
  induction k generalizing n with
  | zero => rfl
  | succ k ih => simp [leBytes, ih]

@[simp] theorem length_beBytes (k n : Nat) : (beBytes k n).length = k := by
  simp [beBytes]

theorem ofLeBytes_leBytes {k n : Nat} (h : n < 256 ^ k) : ofLeBytes (leBytes k n) = n := by
  induction k generalizing n with
  | zero => simp only [Nat.pow_zero, Nat.lt_one_iff] at h; simp [leBytes, ofLeBytes, h]
  | succ k ih =>
    have hq : n / 256 < 256 ^ k := by
      rw [Nat.div_lt_iff_lt_mul (by decide)]
      rwa [Nat.pow_succ] at h
    simp only [leBytes, ofLeBytes, ih hq, UInt8.toNat_ofNat']
    omega

theorem ofBeBytes_beBytes {k n : Nat} (h : n < 256 ^ k) : ofBeBytes (beBytes k n) = n := by
  simp [ofBeBytes, beBytes, ofLeBytes_leBytes h]

/-- Splits off the next `k` bytes, if there are that many. -/
def takeBytes (k : Nat) (bs : List UInt8) : Option (List UInt8 × List UInt8) :=
  if k ≤ bs.length then some (bs.take k, bs.drop k) else none

theorem takeBytes_append {k : Nat} {xs : List UInt8} (rest : List UInt8) (h : xs.length = k) :
    takeBytes k (xs ++ rest) = some (xs, rest) := by
  simp [takeBytes, ← h]

theorem toOption_eq_some {ε α : Type} {x : Except ε α} {a : α} :
    x.toOption = some a ↔ x = .ok a := by
  cases x with
  | error e => simp [Except.toOption]
  | ok b => simp [Except.toOption]

/-- A self-delimiting byte format. `size` is the length of an encoding in closed
form; the round trip is promised for values whose encoding a 64-bit length can count. -/
structure Codec (α : Type) where
  encode : α → List UInt8
  decode : List UInt8 → Option (α × List UInt8)
  size : α → Nat
  length_encode : ∀ a, (encode a).length = size a
  decode_encode : ∀ a rest, size a < 2 ^ 64 → decode (encode a ++ rest) = some (a, rest)

attribute [simp] Codec.length_encode

namespace Codec

variable {α β : Type}

/-- A format carried over along an injection with a partial inverse. -/
def restrict (c : Codec α) (f : β → α) (g : α → Option β) (h : ∀ b, g (f b) = some b) : Codec β where
  encode b := c.encode (f b)
  decode bs := (c.decode bs).bind (fun p => (g p.1).map (fun b => (b, p.2)))
  size b := c.size (f b)
  length_encode b := c.length_encode (f b)
  decode_encode b rest hb := by simp [c.decode_encode (f b) rest hb, h]

def pair (c : Codec α) (d : Codec β) : Codec (α × β) where
  encode p := c.encode p.1 ++ d.encode p.2
  decode bs := (c.decode bs).bind (fun p => (d.decode p.2).map (fun q => ((p.1, q.1), q.2)))
  size p := c.size p.1 + d.size p.2
  length_encode p := by simp
  decode_encode p rest h := by
    rw [List.append_assoc, c.decode_encode p.1 _ (by omega)]
    simp [d.decode_encode p.2 rest (by omega)]

/-- One unsigned byte, written as it is. -/
def byte : Codec UInt8 where
  encode b := [b]
  decode
    | [] => none
    | b :: bs => some (b, bs)
  size _ := 1
  length_encode _ := rfl
  decode_encode _ _ _ := rfl

/-- A fixed number of raw bytes. -/
def raw (k : Nat) : Codec { bs : List UInt8 // bs.length = k } where
  encode xs := xs.1
  decode bs := if h : k ≤ bs.length then some (⟨bs.take k, by simp [h]⟩, bs.drop k) else none
  size _ := k
  length_encode xs := xs.2
  decode_encode xs rest _ := by
    obtain ⟨xs, rfl⟩ := xs
    simp

end Codec

/-- Bytes taken by a number in the variable-length format: one below 251, else a
marker and two, four or eight bytes. -/
def varintSize (n : Nat) : Nat :=
  if n < 251 then 1 else if n < 2 ^ 16 then 3 else if n < 2 ^ 32 then 5 else 9

def encodeVarint (n : Nat) : List UInt8 :=
  if n < 251 then [UInt8.ofNat n]
  else if n < 2 ^ 16 then 251 :: leBytes 2 n
  else if n < 2 ^ 32 then 252 :: leBytes 4 n
  else 253 :: leBytes 8 n

/-- Reads a number of at most `w` bytes; a marker of a wider class is refused, a
needlessly wide encoding is not. -/
def decodeVarint (w : Nat) : List UInt8 → Option (Nat × List UInt8)
  | [] => none
  | b :: bs =>
    if b < 251 then some (b.toNat, bs)
    else if b = 251 ∧ 2 ≤ w then (takeBytes 2 bs).map (fun p => (ofLeBytes p.1, p.2))
    else if b = 252 ∧ 4 ≤ w then (takeBytes 4 bs).map (fun p => (ofLeBytes p.1, p.2))
    else if b = 253 ∧ 8 ≤ w then (takeBytes 8 bs).map (fun p => (ofLeBytes p.1, p.2))
    else none

@[simp] theorem length_encodeVarint (n : Nat) : (encodeVarint n).length = varintSize n := by
  unfold encodeVarint varintSize
  repeat' split
  all_goals simp

theorem varintSize_pos (n : Nat) : 0 < varintSize n := by
  unfold varintSize
  repeat' split
  all_goals omega

theorem varintSize_le (n : Nat) : varintSize n ≤ 9 := by
  unfold varintSize
  repeat' split
  all_goals omega

theorem takeBytes_leBytes {k n : Nat} (rest : List UInt8) (h : n < 256 ^ k) :
    (takeBytes k (leBytes k n ++ rest)).map (fun p => (ofLeBytes p.1, p.2)) = some (n, rest) := by
  rw [takeBytes_append rest (length_leBytes k n), Option.map_some, ofLeBytes_leBytes h]

theorem decodeVarint_encodeVarint {w n : Nat} (rest : List UInt8) (hw : w = 2 ∨ w = 4 ∨ w = 8)
    (h : n < 256 ^ w) : decodeVarint w (encodeVarint n ++ rest) = some (n, rest) := by
  unfold encodeVarint
  split
  · next hn =>
    have hb : UInt8.ofNat n < 251 := by
      rw [UInt8.lt_iff_toNat_lt, UInt8.toNat_ofNat']
      exact Nat.lt_of_le_of_lt (Nat.mod_le _ _) hn
    have he : (UInt8.ofNat n).toNat = n := by
      rw [UInt8.toNat_ofNat']
      omega
    simp [decodeVarint, hb, he]
  · split
    · next h2 =>
      simp only [List.cons_append, decodeVarint]
      rw [if_neg (by decide), if_pos ⟨trivial, by omega⟩, takeBytes_leBytes rest (by omega)]
    · next h2 =>
      split
      · next h4 =>
        have hw4 : 4 ≤ w := by
          rcases hw with rfl | rfl | rfl <;> omega
        simp only [List.cons_append, decodeVarint]
        rw [if_neg (by decide), if_neg (by simp), if_pos ⟨trivial, hw4⟩,
          takeBytes_leBytes rest (by omega)]
      · next h4 =>
        have hw8 : w = 8 := by
          rcases hw with rfl | rfl | rfl <;> omega
        subst hw8
        simp only [List.cons_append, decodeVarint]
        rw [if_neg (by decide), if_neg (by simp), if_neg (by simp), if_pos ⟨trivial, by omega⟩,
          takeBytes_leBytes rest h]

namespace Codec

def u16 : Codec UInt16 where
  encode n := encodeVarint n.toNat
  decode bs := (decodeVarint 2 bs).map (fun p => (UInt16.ofNat p.1, p.2))
  size n := varintSize n.toNat
  length_encode n := length_encodeVarint _
  decode_encode n rest _ := by
    simp [decodeVarint_encodeVarint rest (.inl rfl) n.toNat_lt]

def u32 : Codec UInt32 where
  encode n := encodeVarint n.toNat
  decode bs := (decodeVarint 4 bs).map (fun p => (UInt32.ofNat p.1, p.2))
  size n := varintSize n.toNat
  length_encode n := length_encodeVarint _
  decode_encode n rest _ := by
    simp [decodeVarint_encodeVarint rest (.inr (.inl rfl)) n.toNat_lt]

def u64 : Codec UInt64 where
  encode n := encodeVarint n.toNat
  decode bs := (decodeVarint 8 bs).map (fun p => (UInt64.ofNat p.1, p.2))
  size n := varintSize n.toNat
  length_encode n := length_encodeVarint _
  decode_encode n rest _ := by
    simp [decodeVarint_encodeVarint rest (.inr (.inr rfl)) n.toNat_lt]

/-- Reads `n` values one after the other. -/
def decodeMany (c : Codec α) : Nat → List UInt8 → Option (List α × List UInt8)
  | 0, bs => some ([], bs)
  | n + 1, bs =>
    (c.decode bs).bind (fun p => (decodeMany c n p.2).map (fun q => (p.1 :: q.1, q.2)))

theorem decodeMany_flatMap (c : Codec α) (as : List α) (rest : List UInt8)
    (h : (as.map c.size).sum < 2 ^ 64) :
    decodeMany c as.length (as.flatMap c.encode ++ rest) = some (as, rest) := by
  induction as with
  | nil => rfl
  | cons a as ih =>
    simp only [List.map_cons, List.sum_cons] at h
    simp only [List.length_cons, decodeMany, List.flatMap_cons, List.append_assoc]
    rw [c.decode_encode a _ (by omega)]
    simp [ih (by omega)]

theorem length_le_sum (c : Codec α) (hc : ∀ a, 0 < c.size a) (as : List α) :
    as.length ≤ (as.map c.size).sum := by
  induction as with
  | nil => simp
  | cons a as ih =>
    have := hc a
    simp only [List.length_cons, List.map_cons, List.sum_cons]
    omega

/-- A counted sequence. Elements must take room, or the count could outgrow the bytes. -/
def seq (c : Codec α) (hc : ∀ a, 0 < c.size a) : Codec (List α) where
  encode as := encodeVarint as.length ++ as.flatMap c.encode
  decode bs := (decodeVarint 8 bs).bind (fun p => decodeMany c p.1 p.2)
  size as := varintSize as.length + (as.map c.size).sum
  length_encode as := by simp [List.length_flatMap]
  decode_encode as rest h := by
    have hl := length_le_sum c hc as
    rw [List.append_assoc, decodeVarint_encodeVarint _ (.inr (.inr rfl)) (by omega)]
    exact decodeMany_flatMap c as rest (by omega)

/-- A counted run of raw bytes. -/
def bytes : Codec (List UInt8) := seq byte (fun _ => Nat.one_pos)

@[simp] theorem size_bytes (bs : List UInt8) : bytes.size bs = varintSize bs.length + bs.length := by
  simp [bytes, seq, byte]

def utf8 (s : String) : List UInt8 := s.toByteArray.data.toList

def ofUtf8 (bs : List UInt8) : Option String := String.fromUTF8? ⟨bs.toArray⟩

@[simp] theorem ofUtf8_utf8 (s : String) : ofUtf8 (utf8 s) = some s := by
  have h : String.fromUTF8? s.toByteArray = some s := dif_pos s.isValidUTF8
  simpa [ofUtf8, utf8] using h

theorem utf8_of_ofUtf8 {bs : List UInt8} {s : String} (h : ofUtf8 bs = some s) : utf8 s = bs := by
  unfold ofUtf8 String.fromUTF8? at h
  split at h
  · cases h
    rfl
  · cases h

theorem utf8_inj {s t : String} (h : utf8 s = utf8 t) : s = t := by
  have hs := ofUtf8_utf8 s
  rw [h, ofUtf8_utf8] at hs
  exact (Option.some.inj hs).symm

/-- A counted UTF-8 text. -/
def string : Codec String := bytes.restrict utf8 ofUtf8 ofUtf8_utf8

@[simp] theorem size_string (s : String) :
    string.size s = varintSize s.utf8ByteSize + s.utf8ByteSize := size_bytes (utf8 s)

theorem size_string_pos (s : String) : 0 < string.size s := by
  rw [size_string]
  exact Nat.lt_of_lt_of_le (varintSize_pos _) (Nat.le_add_right _ _)

def bool : Codec Bool :=
  byte.restrict (fun b => if b then 1 else 0)
    (fun n => if n = 0 then some false else if n = 1 then some true else none)
    (fun b => by cases b <;> rfl)

/-- A presence byte, then the value if there is one. -/
def option (c : Codec α) : Codec (Option α) where
  encode
    | none => [0]
    | some a => 1 :: c.encode a
  decode
    | [] => none
    | b :: bs =>
      if b = 0 then some (none, bs)
      else if b = 1 then (c.decode bs).map (fun p => (some p.1, p.2))
      else none
  size
    | none => 1
    | some a => 1 + c.size a
  length_encode
    | none => rfl
    | some a => by simp [Nat.add_comm]
  decode_encode
    | none, rest, _ => rfl
    | some a, rest, h => by
      have ha : c.size a < 2 ^ 64 := Nat.lt_of_le_of_lt (Nat.le_add_left _ 1) h
      simp [c.decode_encode a rest ha]

/-- A value that takes no room. -/
def unit : Codec Unit where
  encode _ := []
  decode bs := some ((), bs)
  size _ := 0
  length_encode _ := rfl
  decode_encode _ _ _ := rfl

/-- A variant index, then the fields of that variant. -/
def enum {n : Nat} (hn : n < 2 ^ 32) {F : Fin n → Type} (c : ∀ i, Codec (F i)) :
    Codec (Σ i, F i) where
  encode v := encodeVarint v.1 ++ (c v.1).encode v.2
  decode bs := (decodeVarint 4 bs).bind (fun p =>
    if h : p.1 < n then ((c ⟨p.1, h⟩).decode p.2).map (fun q => (⟨⟨p.1, h⟩, q.1⟩, q.2)) else none)
  size v := varintSize v.1 + (c v.1).size v.2
  length_encode v := by simp
  decode_encode v rest h := by
    have hv : v.1.val < 256 ^ 4 := Nat.lt_trans v.1.isLt hn
    rw [List.append_assoc, decodeVarint_encodeVarint _ (.inr (.inl rfl)) hv]
    simp [(c v.1).decode_encode v.2 rest (by omega)]

end Codec

end Lib
