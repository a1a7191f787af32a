import MiniRedis.Client.Inspect
import MiniRedis.Common.Numbers

/-!
# What the client prints (`client.cpp`)

`print_res` with its calls of `printf`. Numbers are kept as values; a text is what `%.*s`
takes of it.
-/

namespace MiniRedis

open Binary64

/-- A call of `printf`, with its arguments as it formats them. -/
inductive Printed where
  | text (text : String)
  | nil
  | err (code : Int) (text : Bytes)
  | str (text : Bytes)
  | int (val : Int)
  | dbl (val : Double)
  | arr (len : Nat)
  | arrEnd

/-- `memcpy` of an `int64_t`. -/
def readI64At (data : Bytes) (pos : Nat) : Int :=
  (LittleEndian.decode ((data.drop pos).take 8) : Int).bmod (2 ^ 64)

/-- `memcpy` of a `double`. -/
def readDblAt (data : Bytes) (pos : Nat) : Double :=
  ⟨UInt64.ofNat (LittleEndian.decode ((data.drop pos).take 8))⟩

/-- A text behind `header` bytes. -/
def showText (data : Bytes) (header len : Nat) (line : Bytes → Printed) :
    Option (Int × List Printed) :=
  let total := (header + len) % 2 ^ 32
  if data.length < total then some (-1, [])
  else (printfStr (toInt32 len) (data.drop header)).map fun text => (toInt32 total, [line text])

mutual

/-- `print_res`: what it returns and what it has printed. No result is a read behind the data. -/
def showRes (data : Bytes) : Option (Int × List Printed) :=
  match data.head? with
  | none => some (-1, [])
  | some tag =>
    if tag = Tag.nil.byte then some (1, [.nil])
    else if tag = Tag.err.byte then
      if data.length < 1 + 8 then some (-1, [])
      else showText data (1 + 8) (readU32At data (1 + 4)) (.err (toInt32 (readU32At data 1)))
    else if tag = Tag.str.byte then
      if data.length < 1 + 4 then some (-1, [])
      else showText data (1 + 4) (readU32At data 1) .str
    else if tag = Tag.int.byte then
      if data.length < 1 + 8 then some (-1, []) else some (1 + 8, [.int (readI64At data 1)])
    else if tag = Tag.dbl.byte then
      if data.length < 1 + 8 then some (-1, []) else some (1 + 8, [.dbl (readDblAt data 1)])
    else if tag = Tag.arr.byte then
      if data.length < 1 + 4 then some (-1, [])
      else (showItems data (readU32At data 1) (1 + 4)).map
        fun (rv, lines) => (rv, .arr (readU32At data 1) :: lines)
    else some (-1, [])
termination_by (data.length, 0)
decreasing_by
  exact Prod.Lex.left _ _ (by omega)

/-- The array loop and the line behind it. -/
def showItems (data : Bytes) (left offset : Nat) : Option (Int × List Printed) :=
  match left with
  | 0 => some (toInt32 offset, [.arrEnd])
  | left + 1 =>
    if data.length < offset then none
    else do
      let (rv, lines) ← showRes (data.drop offset)
      if rv < 0 then return (rv, lines)
      else
        let (rv, more) ← showItems data left (offset + rv.toNat)
        return (rv, lines ++ more)
termination_by (data.length - offset, left + 1)
decreasing_by
  · rw [List.length_drop]
    exact Prod.Lex.right _ (by omega)
  · rcases Nat.lt_or_eq_of_le (Nat.sub_le_sub_left (Nat.le_add_right offset rv.toNat) data.length)
      with shorter | same
    · exact Prod.Lex.left _ _ shorter
    · rw [same]
      exact Prod.Lex.right _ (by omega)

end

/-! ## Agreement with `inspectRes` -/

theorem showText_inspect (data : Bytes) (header len : Nat) (line : Bytes → Printed) :
    (showText data header len line).map Prod.fst = inspectText data header len := by
  rw [showText, inspectText]
  split
  · rfl
  · rw [Option.map_map]
    rfl

theorem showItems_inspect {data : Bytes} {offset : Nat}
    (agrees : ∀ start, offset ≤ start → (showRes (data.drop start)).map Prod.fst =
      (inspectRes (data.drop start)).map fun result => result.1.rv) (left steps : Nat) :
    (showItems data left offset).map Prod.fst =
    (inspectItems data left offset steps).map Prod.fst := by
  induction left generalizing offset steps with
  | zero =>
      rw [showItems, inspectItems]
      rfl
  | succ left ih =>
      have first := agrees offset le_rfl
      rw [showItems, inspectItems]
      split
      · rfl
      · cases shows : showRes (data.drop offset) with
        | none =>
            rw [shows] at first
            rw [Option.map_eq_none_iff.mp first.symm]
            rfl
        | some result =>
            rw [shows] at first
            obtain ⟨⟨call, below⟩, inspects, same⟩ := Option.map_eq_some_iff.mp first.symm
            rw [inspects]
            dsimp only at same ⊢
            simp only [Option.bind_eq_bind, Option.bind_some, same]
            split
            · rfl
            · have further := @ih (offset + result.1.toNat)
                  (fun start behind => agrees start (by omega))
                (steps + 1)
              cases items : inspectItems data left (offset + result.1.toNat) (steps + 1) with
              | none =>
                  rw [items] at further
                  rw [Option.map_eq_none_iff.mp further]
                  rfl
              | some last =>
                  rw [items] at further
                  obtain ⟨more, shown, same'⟩ := Option.map_eq_some_iff.mp further
                  rw [shown]
                  exact congrArg some same'

/-- The same bytes are read, and the same is returned. -/
theorem showRes_inspect (data : Bytes) :
    (showRes data).map Prod.fst = (inspectRes data).map fun result => result.1.rv := by
  induction size : data.length using Nat.strong_induction_on generalizing data with
  | _ size ih =>
  subst size
  rw [showRes, inspectRes]
  cases data.head? with
  | none => rfl
  | some tag =>
      dsimp only
      split_ifs with isNil isErr short isStr short isInt short isDbl short isArr short
      any_goals rfl
      · rw [showText_inspect, Option.map_map]
        exact Option.map_id'.symm
      · rw [showText_inspect, Option.map_map]
        exact Option.map_id'.symm
      · rw [Option.map_map, Option.map_map]
        apply showItems_inspect
        intro start behind
        apply ih _ _ _ rfl
        rw [List.length_drop]
        omega

/-! ## What a value looks like -/

mutual

def WireValue.shown : WireValue → List Printed
  | .nil => [.nil]
  | .err code msg => [.err (toInt32 code) (cStr msg)]
  | .str s => [.str (cStr s)]
  | .int val => [.int val]
  | .dbl val => [.dbl val]
  | .arr items => .arr items.length :: shownItems items ++ [.arrEnd]

def WireValue.shownItems : List WireValue → List Printed
  | [] => []
  | item :: rest => item.shown ++ shownItems rest

end

/-! ## Reading the fields -/

theorem printfStr_append (text rest : Bytes) :
    printfStr text.length (text ++ rest) = some (cStr text) := by
  induction text with
  | nil => cases rest <;> simp [printfStr, cStr]
  | cons byte text ih =>
      rw [List.cons_append, printfStr, List.length_cons]
      push_cast
      by_cases zero : byte = 0
      · simp [zero, cStr]
      · have positive : ¬((text.length : Int) + 1 = 0 ∨ byte = 0) := by
          rintro (none | stop)
          · omega
          · exact zero stop
        rw [if_neg positive, Int.add_sub_cancel, ih]
        simp [cStr, zero]

/-- Eight bytes behind others. -/
theorem decode_eight (front rest : Bytes) {n : Nat} (small : n < 2 ^ 64) :
    LittleEndian.decode (((front ++ (LittleEndian.encode 8 n ++ rest)).drop front.length).take 8) = n := by
  have width : 256 ^ 8 = 2 ^ 64 := by norm_num
  rw [List.drop_left, List.take_left' (LittleEndian.length_encode 8 _),
    LittleEndian.decode_encode, width]
  exact Nat.mod_eq_of_lt small

/-- The two's complement of an `int64_t` and back. -/
theorem bmod_toNat {val : Int} (lower : -2 ^ 63 ≤ val) (upper : val < 2 ^ 63) :
    ((val % 2 ^ 64).toNat : Int).bmod (2 ^ 64) = val := by
  have nonneg : ((val % 2 ^ 64).toNat : Int) = val % 2 ^ 64 :=
    Int.toNat_of_nonneg (Int.emod_nonneg _ (by norm_num))
  have modulus : (2 ^ 64 : Int) = ((2 ^ 64 : Nat) : Int) := rfl
  rw [nonneg, modulus, Int.emod_bmod, Int.bmod_def]
  norm_num at lower upper ⊢
  split_ifs <;> omega

theorem readI64At_encode (front rest : Bytes) {val : Int} (lower : -2 ^ 63 ≤ val)
    (upper : val < 2 ^ 63) :
    readI64At (front ++ (LittleEndian.encode 8 (val % 2 ^ 64).toNat ++ rest)) front.length = val := by
  have small : (val % 2 ^ 64).toNat < 2 ^ 64 := by
    norm_num
    omega
  have field := decode_eight front rest small
  exact (congrArg (fun n : Nat => (n : Int).bmod (2 ^ 64)) field).trans (bmod_toNat lower upper)

theorem readDblAt_encode (front rest : Bytes) (val : Double) :
    readDblAt (front ++ (LittleEndian.encode 8 val.bits.toNat ++ rest)) front.length = val := by
  rw [readDblAt, decode_eight front rest val.bits.toNat_lt]
  exact congrArg Double.mk UInt64.ofNat_toNat

theorem showText_append (front text rest : Bytes) (line : Bytes → Printed)
    (small : front.length + text.length < 2 ^ 31) :
    showText (front ++ (text ++ rest)) front.length text.length line =
      some (((front.length + text.length : Nat) : Int), [line (cStr text)]) := by
  have unwrapped : (front.length + text.length) % 2 ^ 32 = front.length + text.length :=
    Nat.mod_eq_of_lt (by omega)
  have inside : ¬(front ++ (text ++ rest)).length < front.length + text.length := by
    simp only [List.length_append]
    omega
  rw [showText]
  simp only [unwrapped]
  rw [if_neg inside, List.drop_left, toInt32_of_lt small, @toInt32_of_lt text.length (by omega),
    printfStr_append]
  rfl

/-! ## Printing what the server encodes -/

mutual

/-- The client prints the value, whatever follows it. -/
theorem showRes_encode : ∀ (value : WireValue), value.WellSized → ∀ rest : Bytes,
    value.encode.length < 2 ^ 31 →
      showRes (value.encode ++ rest) = some ((value.encode.length : Int), value.shown)
  | .nil, _, rest, _ => by
      rw [showRes]
      simp [WireValue.encode, Tag.byte, WireValue.shown]
  | .err code msg, sized, rest, bound => by
      have length : (WireValue.err code msg).encode.length = 1 + 8 + msg.length := by
        simp [WireValue.encode]
        omega
      have split : (WireValue.err code msg).encode ++ rest =
          (Tag.err.byte :: (LittleEndian.encode 4 code ++ LittleEndian.encode 4 msg.length)) ++
            (msg ++ rest) := by
        simp [WireValue.encode]
      have header : (Tag.err.byte ::
          (LittleEndian.encode 4 code ++ LittleEndian.encode 4 msg.length)).length = 1 + 8 := by simp
      have number : readU32At ((WireValue.err code msg).encode ++ rest) 1 = code := by
        have read := readU32At_encode [Tag.err.byte]
            (LittleEndian.encode 4 msg.length ++ (msg ++ rest))
          sized.1
        simpa [WireValue.encode] using read
      have field : readU32At ((WireValue.err code msg).encode ++ rest) (1 + 4) = msg.length := by
        have read := readU32At_encode (Tag.err.byte :: LittleEndian.encode 4 code) (msg ++ rest)
          sized.2
        simpa [WireValue.encode] using read
      have text := showText_append (Tag.err.byte ::
        (LittleEndian.encode 4 code ++ LittleEndian.encode 4 msg.length)) msg rest
          (.err (toInt32 code)) (by omega)
      rw [header, ← split, ← length] at text
      have enough : ¬((WireValue.err code msg).encode ++ rest).length < 1 + 8 := by
        rw [List.length_append]
        omega
      have tag : ((WireValue.err code msg).encode ++ rest).head? = some Tag.err.byte := rfl
      rw [showRes, tag]
      simp only [field, number, text, if_neg enough, WireValue.shown]
      simp [Tag.byte]
  | .str s, sized, rest, bound => by
      have length : (WireValue.str s).encode.length = 1 + 4 + s.length := by
        simp [WireValue.encode]
        omega
      have split : (WireValue.str s).encode ++ rest =
          (Tag.str.byte :: LittleEndian.encode 4 s.length) ++ (s ++ rest) := by
        simp [WireValue.encode]
      have header : (Tag.str.byte :: LittleEndian.encode 4 s.length).length = 1 + 4 := by simp
      have field : readU32At ((WireValue.str s).encode ++ rest) 1 = s.length := by
        have read := readU32At_encode [Tag.str.byte] (s ++ rest) sized
        simpa [WireValue.encode] using read
      have text := showText_append (Tag.str.byte :: LittleEndian.encode 4 s.length) s rest .str (by omega)
      rw [header, ← split, ← length] at text
      have enough : ¬((WireValue.str s).encode ++ rest).length < 1 + 4 := by
        rw [List.length_append]
        omega
      have tag : ((WireValue.str s).encode ++ rest).head? = some Tag.str.byte := rfl
      rw [showRes, tag]
      simp only [field, text, if_neg enough, WireValue.shown]
      simp [Tag.byte]
  | .int val, sized, rest, bound => by
      have read : readI64At ((WireValue.int val).encode ++ rest) 1 = val := by
        have read := readI64At_encode [Tag.int.byte] rest sized.1 sized.2
        simpa [WireValue.encode] using read
      have enough : ¬((WireValue.int val).encode ++ rest).length < 1 + 8 := by
        simp [WireValue.encode]
      have tag : ((WireValue.int val).encode ++ rest).head? = some Tag.int.byte := rfl
      rw [showRes, tag]
      simp only [read, if_neg enough, WireValue.shown]
      simp [Tag.byte, WireValue.encode]
  | .dbl val, sized, rest, bound => by
      have read : readDblAt ((WireValue.dbl val).encode ++ rest) 1 = val := by
        have read := readDblAt_encode [Tag.dbl.byte] rest val
        simpa [WireValue.encode] using read
      have enough : ¬((WireValue.dbl val).encode ++ rest).length < 1 + 8 := by
        simp [WireValue.encode]
      have tag : ((WireValue.dbl val).encode ++ rest).head? = some Tag.dbl.byte := rfl
      rw [showRes, tag]
      simp only [read, if_neg enough, WireValue.shown]
      simp [Tag.byte, WireValue.encode]
  | .arr items, sized, rest, bound => by
      have length : (WireValue.arr items).encode.length =
          1 + 4 + (WireValue.encodeItems items).length := by
        simp [WireValue.encode]
        omega
      have field : readU32At ((WireValue.arr items).encode ++ rest) 1 = items.length := by
        have read := readU32At_encode [Tag.arr.byte] (WireValue.encodeItems items ++ rest) sized.1
        simpa [WireValue.encode] using read
      have five : (Tag.arr.byte :: LittleEndian.encode 4 items.length).length = 1 + 4 := by simp
      have inner := showItems_encode items sized.2
          (Tag.arr.byte :: LittleEndian.encode 4 items.length)
        rest (by omega)
      rw [five, ← List.append_assoc, List.cons_append, ← WireValue.encode, ← length] at inner
      have enough : ¬((WireValue.arr items).encode ++ rest).length < 1 + 4 := by
        rw [List.length_append]
        omega
      have tag : ((WireValue.arr items).encode ++ rest).head? = some Tag.arr.byte := rfl
      rw [showRes, tag]
      simp only [field, inner, if_neg enough, WireValue.shown]
      simp [Tag.byte]

theorem showItems_encode : ∀ (items : List WireValue), WireValue.WellSizedItems items →
    ∀ (front rest : Bytes), front.length + (WireValue.encodeItems items).length < 2 ^ 31 →
      showItems (front ++ (WireValue.encodeItems items ++ rest)) items.length front.length =
        some (((front.length + (WireValue.encodeItems items).length : Nat) : Int),
          WireValue.shownItems items ++ [.arrEnd])
  | [], _, front, rest, bound => by
      rw [WireValue.encodeItems, List.length_nil, Nat.add_zero] at bound
      rw [showItems.eq_def, WireValue.encodeItems, WireValue.shownItems]
      simp [toInt32_of_lt bound]
  | item :: items, sized, front, rest, bound => by
      rw [WireValue.encodeItems, List.length_append] at bound
      have first := showRes_encode item sized.1 (WireValue.encodeItems items ++ rest) (by omega)
      have others := showItems_encode items sized.2 (front ++ item.encode) rest (by
        rw [List.length_append]
        omega)
      rw [List.length_append, List.append_assoc] at others
      have inside : ¬(front ++ (item.encode ++ (WireValue.encodeItems items ++ rest))).length <
          front.length := by
        rw [List.length_append]
        omega
      have nonneg : ¬(item.encode.length : Int) < 0 := by omega
      rw [WireValue.encodeItems, List.length_cons, showItems.eq_def, List.append_assoc]
      simp only [if_neg inside, List.drop_left, first, Option.bind_eq_bind, Option.bind_some,
        if_neg nonneg, Int.toNat_natCast, others]
      simp [WireValue.shownItems, Nat.add_assoc]

end

end MiniRedis
