import MiniRedis.Client.PrintRes

/-!
# The layout of a response

The items of a response described on the bytes, and the places at which the decoder comes to
one. The end of a text is reckoned in 32 bits, as the decoder does.
-/

namespace MiniRedis

variable {data sub : Bytes} {header len n : Nat}

/-- An item of fixed length. -/
inductive FlatItem (data : Bytes) : Nat → Prop
  | nil (tag : data.head? = some Tag.nil.byte) : FlatItem data 1
  | int (tag : data.head? = some Tag.int.byte) (enough : 1 + 8 ≤ data.length) :
      FlatItem data (1 + 8)
  | dbl (tag : data.head? = some Tag.dbl.byte) (enough : 1 + 8 ≤ data.length) :
      FlatItem data (1 + 8)

/-- The header of a text and the length which it declares. -/
inductive TextItem (data : Bytes) : Nat → Nat → Prop
  | err (tag : data.head? = some Tag.err.byte) (enough : 1 + 8 ≤ data.length) :
      TextItem data (1 + 8) (readU32At data (1 + 4))
  | str (tag : data.head? = some Tag.str.byte) (enough : 1 + 4 ≤ data.length) :
      TextItem data (1 + 4) (readU32At data 1)

/-- The header of an array: the tag and the declared number of items. -/
structure ArrayItem (data : Bytes) : Prop where
  tag : data.head? = some Tag.arr.byte
  enough : 1 + 4 ≤ data.length

/-- A number of items one behind the other, and their length. -/
inductive Items (item : Bytes → Nat → Prop) : Bytes → Nat → Nat → Prop
  | none (data : Bytes) : Items item data 0 0
  | more {data : Bytes} {n count length : Nat} (first : item data n)
      (rest : Items item (data.drop n) count length) : Items item data (count + 1) (n + length)

/-- The data starts with an item of this length, in the 32 bits of the decoder. -/
inductive Item : Bytes → Nat → Prop
  | flat {data : Bytes} {n : Nat} (item : FlatItem data n) : Item data n
  | text {data : Bytes} {header len : Nat} (item : TextItem data header len)
      (inside : (header + len) % 2 ^ 32 ≤ data.length) : Item data ((header + len) % 2 ^ 32)
  | array {data : Bytes} {n : Nat} (item : ArrayItem data)
      (items : Items Item (data.drop (1 + 4)) (readU32At data 1) n) : Item data (1 + 4 + n)

/-- An item at the start of `sub` is decoded: it is the data itself or follows complete items
of an array. -/
inductive Reaches : Bytes → Bytes → Prop
  | self (data : Bytes) : Reaches data data
  | item {data sub : Bytes} {i length : Nat} (array : ArrayItem data)
      (before : Items Item (data.drop (1 + 4)) i length) (further : i < readU32At data 1)
      (reaches : Reaches (data.drop (1 + 4 + length)) sub) : Reaches data sub

/-- One item more. -/
theorem Items.snoc {item : Bytes → Nat → Prop} {count length : Nat}
    (items : Items item data count length) (last : item (data.drop length) n) :
    Items item data (count + 1) (length + n) := by
  induction items with
  | none data =>
      have alone := Items.more last (Items.none _)
      rwa [Nat.add_zero, ← Nat.zero_add n] at alone
  | more first rest ih =>
      rw [← List.drop_drop] at last
      have longer := Items.more first (ih last)
      rwa [← Nat.add_assoc] at longer

/-- What is reached from what is reached. -/
theorem Reaches.trans {middle : Bytes} (first : Reaches data middle) (second : Reaches middle sub) :
    Reaches data sub := by
  induction first with
  | self data => exact second
  | item array before further reaches ih => exact .item array before further (ih second)

/-- An item of fixed length has at least one byte, all of them in the data. -/
theorem FlatItem.bounds (item : FlatItem data n) : 1 ≤ n ∧ n ≤ data.length := by
  cases item with
  | nil tag =>
      cases data with
      | nil => cases tag
      | cons byte rest => simp
  | int tag enough => exact ⟨by omega, enough⟩
  | dbl tag enough => exact ⟨by omega, enough⟩

/-- Complete items are in the data. -/
theorem Items.le_length {item : Bytes → Nat → Prop} {count length : Nat}
    (bounds : ∀ start n, item (data.drop start) n → n ≤ (data.drop start).length)
    (items : Items item data count length) : length ≤ data.length := by
  induction items with
  | none => exact Nat.zero_le _
  | @more data n count length first rest ih =>
      have start := bounds 0 n first
      have behind := ih fun start k item => by
        rw [List.drop_drop] at item ⊢
        exact bounds _ k item
      rw [List.drop_zero] at start
      rw [List.length_drop] at behind
      omega

/-- No item ends behind the data. -/
theorem Item.le_length (item : Item data n) : n ≤ data.length := by
  induction size : data.length using Nat.strong_induction_on generalizing data n with
  | _ size ih =>
  subst size
  cases item with
  | flat item => exact item.bounds.2
  | text item inside => exact inside
  | array item items =>
      have enough := item.enough
      have behind := items.le_length fun start k item => by
        refine ih _ ?_ item rfl
        rw [List.length_drop, List.length_drop]
        omega
      rw [List.length_drop] at behind
      omega

theorem readU32At_lt (data : Bytes) (pos : Nat) : readU32At data pos < 2 ^ 32 := by
  have bound := LittleEndian.decode_lt ((data.drop pos).take 4)
  have width : ((data.drop pos).take 4).length ≤ 4 := List.length_take_le _ _
  exact bound.trans_le (Nat.pow_le_pow_right (by decide) width)

/-- The header of a text is short and in the data; its length may be any number. -/
theorem TextItem.bounds (item : TextItem data header len) :
    1 ≤ header ∧ header ≤ 9 ∧ header ≤ data.length ∧ len < 2 ^ 32 := by
  cases item with
  | err tag enough => exact ⟨by omega, by omega, enough, readU32At_lt _ _⟩
  | str tag enough => exact ⟨by omega, by omega, enough, readU32At_lt _ _⟩

end MiniRedis
