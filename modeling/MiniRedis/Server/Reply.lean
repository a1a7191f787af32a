import MiniRedis.Common.Bytes
import MiniRedis.Library.Binary64
import MiniRedis.Library.LittleEndian

/-!
# Response values and the `out_*` functions

The output buffer is the queue of bytes it holds. `WireValue` is the response grammar
of `protocol.md`; each `out_*` function appends one of its productions.
-/

namespace MiniRedis

open Binary64

/-- `Tag`. -/
inductive Tag where
  | nil
  | err
  | str
  | int
  | dbl
  | arr
  deriving DecidableEq

/-- The number of the enumerator, as it is sent. -/
def Tag.byte : Tag → UInt8
  | .nil => 0
  | .err => 1
  | .str => 2
  | .int => 3
  | .dbl => 4
  | .arr => 5

/-- `ErrCode`. -/
inductive ErrCode where
  | unknown
  | tooBig
  | badType
  | badArg
  deriving DecidableEq

/-- The number of the enumerator. -/
def ErrCode.toNat : ErrCode → Nat
  | .unknown => 1
  | .tooBig => 2
  | .badType => 3
  | .badArg => 4

/-- The bytes of a message text. -/
def ascii (text : String) : Bytes := text.toList.map fun char => UInt8.ofNat char.toNat

/-! ## Serialization -/

/-- `buf_append_u8`. -/
def bufAppendU8 (buf : Bytes) (data : UInt8) : Bytes := buf ++ [data]

/-- The argument is cut to 32 bits, as by the cast to `uint32_t` in front of each call. -/
def bufAppendU32 (buf : Bytes) (data : Nat) : Bytes := buf ++ LittleEndian.encode 4 data

/-- The two's complement representation of an `int64_t`. -/
def bufAppendI64 (buf : Bytes) (data : Int) : Bytes :=
  buf ++ LittleEndian.encode 8 (data % 2 ^ 64).toNat

/-- `buf_append_dbl`: the eight bytes of its representation. -/
def bufAppendDbl (buf : Bytes) (data : Double) : Bytes :=
  buf ++ LittleEndian.encode 8 data.bits.toNat

/-- `out_nil`: the tag alone. -/
def outNil (out : Bytes) : Bytes := bufAppendU8 out Tag.nil.byte

/-- `out_str`: the tag, the length in four bytes, and the text. -/
def outStr (out : Bytes) (s : Bytes) : Bytes :=
  bufAppendU32 (bufAppendU8 out Tag.str.byte) s.length ++ s

/-- `out_int`. -/
def outInt (out : Bytes) (val : Int) : Bytes := bufAppendI64 (bufAppendU8 out Tag.int.byte) val

/-- `out_dbl`. -/
def outDbl (out : Bytes) (val : Double) : Bytes := bufAppendDbl (bufAppendU8 out Tag.dbl.byte) val

/-- `out_err`: the tag, the code, and the text as in `out_str`. -/
def outErr (out : Bytes) (code : ErrCode) (msg : String) : Bytes :=
  bufAppendU32 (bufAppendU32 (bufAppendU8 out Tag.err.byte) code.toNat) (ascii msg).length ++
    ascii msg

/-- `out_arr`: the header, behind which the caller appends `n` values. -/
def outArr (out : Bytes) (n : Nat) : Bytes := bufAppendU32 (bufAppendU8 out Tag.arr.byte) n

/-- Returns the position of the count to be filled in. -/
def outBeginArr (out : Bytes) : Bytes × Nat :=
  let out := bufAppendU32 (bufAppendU8 out Tag.arr.byte) 0
  (out, out.length - 4)

/-- `memcpy` of a `uint32_t` from a position. -/
def readU32At (data : Bytes) (pos : Nat) : Nat := LittleEndian.decode ((data.drop pos).take 4)

/-- `memcpy` of a `uint32_t` over the four bytes at a position. -/
def writeU32 (out : Bytes) (pos n : Nat) : Option Bytes := copyAt out pos (LittleEndian.encode 4 n)

/-- `out_end_arr` asserts that it is given the position of an array. -/
def outEndArr (out : Bytes) (sizePos n : Nat) : Option Bytes := do
  guard (0 < sizePos ∧ out[sizePos - 1]? = some Tag.arr.byte)
  writeU32 out sizePos n

/-- A number of 32 bits is read back. -/
theorem readU32At_encode (front rest : Bytes) {n : Nat} (small : n < 2 ^ 32) :
    readU32At (front ++ (LittleEndian.encode 4 n ++ rest)) front.length = n := by
  rw [readU32At, List.drop_left,
    List.take_left' (LittleEndian.length_encode 4 n), LittleEndian.decode_encode]
  exact Nat.mod_eq_of_lt small

/-! ## The response grammar -/

/-- What the bytes of a response mean. -/
inductive WireValue where
  | nil
  | err (code : Nat) (msg : Bytes)
  | str (s : Bytes)
  | int (val : Int)
  | dbl (val : Double)
  | arr (items : List WireValue)

mutual

/-- The encoding of a value by its grammar production. -/
def WireValue.encode : WireValue → Bytes
  | .nil => [Tag.nil.byte]
  | .err code msg =>
    Tag.err.byte :: (LittleEndian.encode 4 code ++ LittleEndian.encode 4 msg.length ++ msg)
  | .str s => Tag.str.byte :: (LittleEndian.encode 4 s.length ++ s)
  | .int val => Tag.int.byte :: LittleEndian.encode 8 (val % 2 ^ 64).toNat
  | .dbl val => Tag.dbl.byte :: LittleEndian.encode 8 val.bits.toNat
  | .arr items => Tag.arr.byte :: (LittleEndian.encode 4 items.length ++ encodeItems items)

/-- Items follow each other without separators. -/
def WireValue.encodeItems : List WireValue → Bytes
  | [] => []
  | item :: rest => item.encode ++ encodeItems rest

end

/-! Integers and error codes in the range of their fields. -/

mutual

/-- The numbers of a value fit into their fields; lengths are left to `WellSized`. -/
def WireValue.Fits : WireValue → Prop
  | .err code _ => code < 2 ^ 32
  | .int val => -2 ^ 63 ≤ val ∧ val < 2 ^ 63
  | .arr items => FitsItems items
  | _ => True

/-- The same for each item of an array. -/
def WireValue.FitsItems : List WireValue → Prop
  | [] => True
  | item :: rest => item.Fits ∧ FitsItems rest

end

theorem WireValue.fitsItems_iff {items : List WireValue} :
    FitsItems items ↔ ∀ item ∈ items, item.Fits := by
  induction items with
  | nil => simp [FitsItems]
  | cons item rest ih => simp [FitsItems, ih]

/-- The `int64_t` of an integer has the same encoding and fits. -/
theorem WireValue.encode_bmod (val : Int) :
    (WireValue.int (val.bmod (2 ^ 64))).encode = (WireValue.int val).encode ∧
      (WireValue.int (val.bmod (2 ^ 64))).Fits := by
  constructor
  · have modulus : (2 ^ 64 : Int) = ((2 ^ 64 : Nat) : Int) := rfl
    rw [WireValue.encode, WireValue.encode, modulus, Int.bmod_emod]
  · have lower := @Int.le_bmod val (2 ^ 64) (by norm_num)
    have upper := @Int.bmod_lt val (2 ^ 64) (by norm_num)
    norm_num at lower upper
    norm_num [WireValue.Fits]
    omega

/-- Each `out_` function appends the encoding of its value. -/
theorem outNil_eq (out : Bytes) : outNil out = out ++ WireValue.nil.encode := rfl

theorem outStr_eq (out s : Bytes) : outStr out s = out ++ (WireValue.str s).encode := by
  simp [outStr, bufAppendU8, bufAppendU32, WireValue.encode]

theorem outInt_eq (out : Bytes) (val : Int) : outInt out val = out ++ (WireValue.int val).encode := by
  simp [outInt, bufAppendU8, bufAppendI64, WireValue.encode]

theorem outDbl_eq (out : Bytes) (val : Double) :
    outDbl out val = out ++ (WireValue.dbl val).encode := by
  simp [outDbl, bufAppendU8, bufAppendDbl, WireValue.encode]

/-- The value which `out_err` appends. -/
def errValue (code : ErrCode) (msg : String) : WireValue := .err code.toNat (ascii msg)

/-- The codes of the program are small. -/
theorem errValue_fits (code : ErrCode) (msg : String) : (errValue code msg).Fits := by
  cases code <;> simp [errValue, WireValue.Fits, ErrCode.toNat]

theorem outErr_eq (out : Bytes) (code : ErrCode) (msg : String) :
    outErr out code msg = out ++ (errValue code msg).encode := by
  simp [outErr, bufAppendU8, bufAppendU32, WireValue.encode, errValue]

/-- A header with as many values behind it is an array. -/
theorem outArr_eq (out : Bytes) (items : List WireValue) :
    outArr out items.length ++ WireValue.encodeItems items = out ++ (WireValue.arr items).encode := by
  simp [outArr, bufAppendU8, bufAppendU32, WireValue.encode]

/-- A store into the buffer replaces four bytes. -/
theorem writeU32_middle (front rest : Bytes) {middle : Bytes} (four : middle.length = 4) (n : Nat) :
    writeU32 (front ++ (middle ++ rest)) front.length n =
      some (front ++ (LittleEndian.encode 4 n ++ rest)) :=
  copyAt_middle front rest (by rw [four, LittleEndian.length_encode])

/-- Writing the count over the reserved four bytes completes the array. -/
theorem outEndArr_append (out bytes : Bytes) (n : Nat) :
    outEndArr ((outBeginArr out).1 ++ bytes) (outBeginArr out).2 n =
      some (out ++ Tag.arr.byte :: (LittleEndian.encode 4 n ++ bytes)) := by
  have begun : (outBeginArr out).1 ++ bytes =
      (out ++ [Tag.arr.byte]) ++ (LittleEndian.encode 4 0 ++ bytes) := by
    simp [outBeginArr, bufAppendU32, bufAppendU8]
  have position : (outBeginArr out).2 = (out ++ [Tag.arr.byte]).length := by
    simp [outBeginArr, bufAppendU32, bufAppendU8]
  have written := writeU32_middle (out ++ [Tag.arr.byte]) bytes (LittleEndian.length_encode 4 0) n
  rw [begun, position, outEndArr, written]
  simp

/-- An array whose length is stored afterwards is the same as one whose length is known. -/
theorem outEndArr_eq (out : Bytes) (items : List WireValue) :
    outEndArr ((outBeginArr out).1 ++ WireValue.encodeItems items) (outBeginArr out).2 items.length =
      some (out ++ (WireValue.arr items).encode) := by
  rw [outEndArr_append, WireValue.encode]

end MiniRedis
