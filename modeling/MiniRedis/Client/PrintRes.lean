import MiniRedis.Server.Reply

/-!
# The decoder of the client (`client.cpp`)

`print_res` returns how many bytes it has consumed. Its lengths are `uint32_t` sums,
which wrap around, and its result is an `int32_t`.
-/

namespace MiniRedis

/-- Conversion to `int32_t`. -/
def toInt32 (n : Nat) : Int := (n : Int).bmod (2 ^ 32)

/-- Small numbers keep their value as an `int32_t`. -/
theorem toInt32_of_lt {n : Nat} (small : n < 2 ^ 31) : toInt32 n = n := by
  have unwrapped : (n : Int).bmod (2 ^ 32) = n := by
    rw [Int.bmod_def]
    push_cast
    split_ifs <;> omega
  exact unwrapped

/-- Large ones become negative. -/
theorem toInt32_of_ge {n : Nat} (large : 2 ^ 31 ≤ n) (bound : n < 2 ^ 32) :
    toInt32 n = n - 2 ^ 32 := by
  have wrapped : (n : Int).bmod (2 ^ 32) = n - 2 ^ 32 := by
    rw [Int.bmod_def]
    push_cast
    split_ifs <;> omega
  exact wrapped

attribute [irreducible] toInt32

/-- The end of a string behind `header` bytes, or the error if it lies behind the data. -/
def printText (data : Bytes) (header len : Nat) : Int :=
  let total := (header + len) % 2 ^ 32
  if data.length < total then -1 else toInt32 total

/-- Either bytes were consumed or one item less is left. -/
theorem drop_lex (rest : Bytes) (n left : Nat) :
    Prod.Lex (· < ·) (· < ·) ((rest.drop n).length, left + 1) (rest.length, left + 1 + 1) := by
  rcases Nat.lt_or_eq_of_le (List.length_drop ▸ Nat.sub_le rest.length n) with shorter | same
  · exact Prod.Lex.left _ _ shorter
  · rw [same]
    exact Prod.Lex.right _ (by omega)

mutual

/-- `print_res`, as far as its result goes. -/
def printRes (data : Bytes) : Int :=
  match data.head? with
  | none => -1
  | some tag =>
    if tag = Tag.nil.byte then 1
    else if tag = Tag.err.byte then
      if data.length < 1 + 8 then -1 else printText data (1 + 8) (readU32At data (1 + 4))
    else if tag = Tag.str.byte then
      if data.length < 1 + 4 then -1 else printText data (1 + 4) (readU32At data 1)
    else if tag = Tag.int.byte then
      if data.length < 1 + 8 then -1 else 1 + 8
    else if tag = Tag.dbl.byte then
      if data.length < 1 + 8 then -1 else 1 + 8
    else if tag = Tag.arr.byte then
      if data.length < 1 + 4 then -1 else printItems (data.drop (1 + 4)) (readU32At data 1) (1 + 4)
    else -1
termination_by (data.length, 0)
decreasing_by
  exact Prod.Lex.left _ _ (by rw [List.length_drop]; omega)

/-- The loop over `left` further items, the next of which starts at `offset`. -/
def printItems (rest : Bytes) (left offset : Nat) : Int :=
  match left with
  | 0 => toInt32 offset
  | left + 1 =>
    let rv := printRes rest
    if rv < 0 then rv else printItems (rest.drop rv.toNat) left (offset + rv.toNat)
termination_by (rest.length, left + 1)
decreasing_by
  · exact Prod.Lex.right _ (by omega)
  · exact drop_lex _ _ _

end

/-! ## Decoding what the server encodes -/

mutual

/-- A value of which all numbers fit their fields. -/
def WireValue.WellSized : WireValue → Prop
  | .nil => True
  | .err code msg => code < 2 ^ 32 ∧ msg.length < 2 ^ 32
  | .str s => s.length < 2 ^ 32
  | .int val => -2 ^ 63 ≤ val ∧ val < 2 ^ 63
  | .dbl _ => True
  | .arr items => items.length < 2 ^ 32 ∧ WellSizedItems items

def WireValue.WellSizedItems : List WireValue → Prop
  | [] => True
  | item :: rest => item.WellSized ∧ WellSizedItems rest

end

/-- A text inside the data is consumed with its header. -/
theorem printText_of_le {data : Bytes} {header len : Nat} (inside : header + len ≤ data.length)
    (small : header + len < 2 ^ 31) : printText data header len = header + len := by
  have unwrapped : (header + len) % 2 ^ 32 = header + len := Nat.mod_eq_of_lt (by omega)
  rw [printText]
  simp only [unwrapped]
  rw [if_neg (by omega), toInt32_of_lt small]
  rfl

mutual

/-- The decoder consumes exactly the encoding of a value, whatever follows it. -/
theorem printRes_encode : ∀ (value : WireValue), value.WellSized → ∀ rest : Bytes,
    value.encode.length < 2 ^ 31 → printRes (value.encode ++ rest) = value.encode.length
  | .nil, _, rest, _ => by
      rw [printRes]
      simp [WireValue.encode, Tag.byte]
  | .err code msg, sized, rest, bound => by
      have length : (WireValue.err code msg).encode.length = 1 + 8 + msg.length := by
        simp [WireValue.encode]
        omega
      have field : readU32At ((WireValue.err code msg).encode ++ rest) (1 + 4) = msg.length := by
        have read := readU32At_encode (Tag.err.byte :: LittleEndian.encode 4 code) (msg ++ rest)
          sized.2
        simpa [WireValue.encode] using read
      have text := @printText_of_le ((WireValue.err code msg).encode ++ rest) (1 + 8) msg.length
        (by rw [List.length_append]; omega) (by omega)
      have enough : ¬((WireValue.err code msg).encode ++ rest).length < 1 + 8 := by
        rw [List.length_append]
        omega
      have tag : ((WireValue.err code msg).encode ++ rest).head? = some Tag.err.byte := rfl
      rw [printRes, tag]
      simp only [field, text, if_neg enough, length]
      simp [Tag.byte]
  | .str s, sized, rest, bound => by
      have length : (WireValue.str s).encode.length = 1 + 4 + s.length := by
        simp [WireValue.encode]
        omega
      have field : readU32At ((WireValue.str s).encode ++ rest) 1 = s.length := by
        have read := readU32At_encode [Tag.str.byte] (s ++ rest) sized
        simpa [WireValue.encode] using read
      have text := @printText_of_le ((WireValue.str s).encode ++ rest) (1 + 4) s.length
        (by rw [List.length_append]; omega) (by omega)
      have enough : ¬((WireValue.str s).encode ++ rest).length < 1 + 4 := by
        rw [List.length_append]
        omega
      have tag : ((WireValue.str s).encode ++ rest).head? = some Tag.str.byte := rfl
      rw [printRes, tag]
      simp only [field, text, if_neg enough, length]
      simp [Tag.byte]
  | .int val, sized, rest, bound => by
      rw [printRes]
      simp [WireValue.encode, Tag.byte]
  | .dbl val, sized, rest, bound => by
      rw [printRes]
      simp [WireValue.encode, Tag.byte]
  | .arr items, sized, rest, bound => by
      have length : (WireValue.arr items).encode.length =
          1 + 4 + (WireValue.encodeItems items).length := by
        simp [WireValue.encode]
        omega
      have field : readU32At ((WireValue.arr items).encode ++ rest) 1 = items.length := by
        have read := readU32At_encode [Tag.arr.byte] (WireValue.encodeItems items ++ rest) sized.1
        simpa [WireValue.encode] using read
      have body : ((WireValue.arr items).encode ++ rest).drop (1 + 4) =
          WireValue.encodeItems items ++ rest := by
        have five : (Tag.arr.byte :: LittleEndian.encode 4 items.length).length = 1 + 4 := by simp
        rw [← five, WireValue.encode, ← List.cons_append, List.append_assoc]
        exact List.drop_left
      have enough : ¬((WireValue.arr items).encode ++ rest).length < 1 + 4 := by
        rw [List.length_append]
        omega
      have tag : ((WireValue.arr items).encode ++ rest).head? = some Tag.arr.byte := rfl
      have inner := printItems_encode items sized.2 rest (1 + 4) (by omega)
      rw [printRes, tag]
      simp only [field, body, inner, if_neg enough, length]
      simp [Tag.byte]

/-- The items of an array are consumed one after the other. -/
theorem printItems_encode : ∀ (items : List WireValue), WireValue.WellSizedItems items →
    ∀ (rest : Bytes) (offset : Nat), offset + (WireValue.encodeItems items).length < 2 ^ 31 →
      printItems (WireValue.encodeItems items ++ rest) items.length offset =
        (offset + (WireValue.encodeItems items).length : Nat)
  | [], _, rest, offset, bound => by
      rw [WireValue.encodeItems, List.length_nil, Nat.add_zero] at bound
      rw [printItems.eq_def, WireValue.encodeItems]
      exact toInt32_of_lt bound
  | item :: items, sized, rest, offset, bound => by
      rw [WireValue.encodeItems, List.length_append] at bound
      have first := printRes_encode item sized.1 (WireValue.encodeItems items ++ rest) (by omega)
      have others := printItems_encode items sized.2 rest (offset + item.encode.length) (by omega)
      rw [WireValue.encodeItems, List.length_cons, printItems.eq_def, List.append_assoc, first]
      simp only [Int.toNat_natCast, List.drop_left, others]
      rw [if_neg (by omega), List.length_append, Nat.add_assoc]

end

end MiniRedis
