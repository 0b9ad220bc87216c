import Hivebus.Lib.Codec

namespace Lib.Tlv

/-- The codes of a format of tagged values that stand alone: padding, and the end. -/
structure Marks where
  pad : UInt8
  stop : UInt8

/-- A tagged value. Its code is not taken for a mark, and one byte counts its data. -/
structure Field (f : Marks) where
  code : UInt8
  data : List UInt8
  not_pad : code ≠ f.pad
  not_stop : code ≠ f.stop
  short : data.length < 256

inductive Item (f : Marks) where
  | pad
  | field (x : Field f)

/-- How an area ends: with the buffer, or with the end mark and whatever follows it. -/
inductive Tail where
  | buffer
  | stop (rest : List UInt8)

variable {f : Marks}

def Field.bytes (x : Field f) : List UInt8 := x.code :: UInt8.ofNat x.data.length :: x.data

def Item.bytes : Item f → List UInt8
  | .pad => [f.pad]
  | .field x => x.bytes

def Tail.bytes (f : Marks) : Tail → List UInt8
  | .buffer => []
  | .stop rest => f.stop :: rest

/-- The bytes of an area. -/
def area (items : List (Item f)) (tail : Tail) : List UInt8 :=
  items.flatMap Item.bytes ++ tail.bytes f

/-- The tagged values among some items. -/
def fields (items : List (Item f)) : List (Field f) :=
  items.filterMap (fun
    | .pad => none
    | .field x => some x)

theorem Field.length_byte (x : Field f) : (UInt8.ofNat x.data.length).toNat = x.data.length := by
  rw [UInt8.toNat_ofNat']
  exact Nat.mod_eq_of_lt x.short

theorem area_cons (item : Item f) (items : List (Item f)) (tail : Tail) :
    area (item :: items) tail = item.bytes ++ area items tail := by
  simp only [area, List.flatMap_cons, List.append_assoc]

theorem area_field (x : Field f) (items : List (Item f)) (tail : Tail) :
    area (.field x :: items) tail =
      x.code :: UInt8.ofNat x.data.length :: (x.data ++ area items tail) := area_cons _ _ _

theorem area_nil (tail : Tail) : area ([] : List (Item f)) tail = tail.bytes f := rfl

/-- Reads tagged values up to the end mark, which has to be there. -/
def decode (f : Marks) (bs : List UInt8) : Option (List (UInt8 × List UInt8)) :=
  match bs with
  | [] => none
  | code :: rest =>
    if code = f.stop then some []
    else if code = f.pad then decode f rest
    else
      match rest with
      | [] => none
      | len :: body =>
        if len.toNat ≤ body.length then
          (decode f (body.drop len.toNat)).map (fun fs => (code, body.take len.toNat) :: fs)
        else none
termination_by bs.length
decreasing_by
  · exact Nat.lt_succ_self _
  · simp only [List.length_cons, List.length_drop]
    omega

theorem decode_stop (f : Marks) (rest : List UInt8) : decode f (f.stop :: rest) = some [] := by
  rw [decode.eq_def]
  exact if_pos rfl

theorem decode_pad {rest : List UInt8} (h : f.pad ≠ f.stop) :
    decode f (f.pad :: rest) = decode f rest := by
  rw [decode.eq_def]
  exact (if_neg h).trans (if_pos rfl)

theorem decode_field (x : Field f) (rest : List UInt8) :
    decode f (x.bytes ++ rest) = (decode f rest).map (fun fs => (x.code, x.data) :: fs) := by
  rw [Field.bytes, List.cons_append, List.cons_append, decode, if_neg x.not_stop, if_neg x.not_pad]
  simp only [x.length_byte, List.length_append, Nat.le_add_right, ↓reduceIte, List.drop_left,
    List.take_left]

/-- The reader finds the values of an area and nothing else, whatever their bytes are. -/
theorem decode_area (h : f.pad ≠ f.stop) (items : List (Item f)) (rest : List UInt8) :
    decode f (area items (.stop rest)) = some ((fields items).map (fun x => (x.code, x.data))) := by
  induction items with
  | nil => exact decode_stop f rest
  | cons item items ih =>
    rw [area_cons]
    cases item with
    | pad => exact (decode_pad h).trans ih
    | field x =>
      rw [Item.bytes, decode_field, ih]
      rfl

end Lib.Tlv
