import MiniRedis.Client.Inspect
import MiniRedis.Client.Layout
import MiniRedis.Server.Response

/-!
# The bounds of the decoder of the client
-/

namespace MiniRedis

variable {data sub : Bytes} {header len n left offset steps steps' count length i : Nat} {rv : Int}
  {call : PrintCall} {below calls : List PrintCall}

/-! ## One call -/

theorem inspectRes_flat (item : FlatItem data n) : inspectRes data = some (.leaf data n, []) := by
  cases item with
  | nil tag =>
      rw [inspectRes, tag]
      simp
  | int tag enough =>
      rw [inspectRes, tag]
      simp [Tag.byte, Nat.not_lt.mpr enough]
  | dbl tag enough =>
      rw [inspectRes, tag]
      simp [Tag.byte, Nat.not_lt.mpr enough]

theorem inspectRes_text (item : TextItem data header len) :
    inspectRes data = (inspectText data header len).map fun rv => (.leaf data rv, []) := by
  cases item with
  | err tag enough =>
      rw [inspectRes, tag]
      simp [Tag.byte, Nat.not_lt.mpr enough]
  | str tag enough =>
      rw [inspectRes, tag]
      simp [Tag.byte, Nat.not_lt.mpr enough]

theorem inspectRes_array (item : ArrayItem data) :
    inspectRes data = (inspectItems data (readU32At data 1) (1 + 4) 0).map
      fun (rv, steps, calls) => (⟨data.length, rv, steps⟩, calls) := by
  rw [inspectRes, item.tag]
  simp [Tag.byte, Nat.not_lt.mpr item.enough]

/-- What is neither an item of fixed length nor has a complete header is refused. -/
theorem inspectRes_malformed (flat : ∀ n, ¬FlatItem data n)
    (text : ∀ header len, ¬TextItem data header len) (array : ¬ArrayItem data) :
    inspectRes data = some (.leaf data (-1), []) := by
  rw [inspectRes]
  cases head : data.head? with
  | none => rfl
  | some tag =>
      dsimp only
      split_ifs with isNil isErr short isStr short isInt short isDbl short isArr short
      · exact absurd (.nil (head.trans (congrArg some isNil))) (flat 1)
      · rfl
      · exact absurd (.err (head.trans (congrArg some isErr)) (Nat.not_lt.mp short)) (text _ _)
      · rfl
      · exact absurd (.str (head.trans (congrArg some isStr)) (Nat.not_lt.mp short)) (text _ _)
      · rfl
      · exact absurd (.int (head.trans (congrArg some isInt)) (Nat.not_lt.mp short)) (flat _)
      · rfl
      · exact absurd (.dbl (head.trans (congrArg some isDbl)) (Nat.not_lt.mp short)) (flat _)
      · rfl
      · exact absurd ⟨head.trans (congrArg some isArr), Nat.not_lt.mp short⟩ array
      · rfl

theorem TextItem.refused (item : TextItem data header len) (small : data.length < 2 ^ 31)
    (outside : data.length < (header + len) % 2 ^ 32) :
    header + len < 2 ^ 32 ∧ inspectRes data = some (.leaf data (-1), []) := by
  obtain ⟨-, -, inside, bound⟩ := item.bounds
  constructor
  · omega
  · rw [inspectRes_text item, inspectText]
    simp only [if_pos outside, Option.map_some]

/-- A text which ends in the data is printed, except if the sum has wrapped around and no
zero byte follows. -/
theorem TextItem.accepted (item : TextItem data header len) (small : data.length < 2 ^ 31)
    (inside : (header + len) % 2 ^ 32 ≤ data.length) :
    (header + len < 2 ^ 32 ∨ 0 ∈ data.drop header) ∧
        inspectRes data = some (.leaf data ((header + len) % 2 ^ 32 : Nat), []) ∨
      (2 ^ 32 ≤ header + len ∧ 0 ∉ data.drop header) ∧ inspectRes data = none := by
  obtain ⟨-, short, enough, bound⟩ := item.bounds
  have result : inspectRes data = (printfStr (toInt32 len) (data.drop header)).map
      fun _ => (.leaf data ((header + len) % 2 ^ 32 : Nat), []) := by
    rw [inspectRes_text item, inspectText]
    simp only [if_neg (Nat.not_lt.mpr inside), toInt32_of_lt (inside.trans_lt small)]
    rw [Option.map_map]
    rfl
  rw [result]
  by_cases unwrapped : header + len < 2 ^ 32
  · left
    rw [Nat.mod_eq_of_lt unwrapped] at inside
    have precision := @toInt32_of_lt len (by omega)
    have length : (data.drop header).length = data.length - header := List.length_drop
    obtain ⟨text, printed⟩ := @printfStr_of_le (toInt32 len) (data.drop header) (by omega) (by omega)
    rw [printed]
    exact ⟨.inl unwrapped, rfl⟩
  · have precision := @toInt32_of_ge len (by omega) bound
    have printed := @printfStr_of_neg (toInt32 len) (data.drop header) (by omega)
    by_cases zero : 0 ∈ data.drop header
    · obtain ⟨text, printed⟩ := printed.mpr zero
      rw [printed]
      exact .inl ⟨.inr zero, rfl⟩
    · have unprinted : printfStr (toInt32 len) (data.drop header) = none := by
        rw [Option.eq_none_iff_forall_not_mem]
        exact fun text found => zero (printed.mp ⟨text, found⟩)
      rw [unprinted]
      exact .inr ⟨⟨Nat.not_lt.mp unwrapped, zero⟩, rfl⟩

/-! ## Complete items -/

/-- Complete items are behind the loop after as many steps, without a change to its result. -/
theorem inspectItems_front (items : Items Item (data.drop offset) count length)
    (unique : ∀ start n call below, offset ≤ start → Item (data.drop start) n →
      inspectRes (data.drop start) = some (call, below) → call.rv = n)
    (run : inspectItems data (count + left) offset steps = some (rv, steps', calls)) :
    ∃ calls', calls' ⊆ calls ∧
      inspectItems data left (offset + length) (steps + count) = some (rv, steps', calls') := by
  generalize source : data.drop offset = rest at items
  induction items generalizing offset steps calls with
  | none => exact ⟨calls, List.Subset.refl _, by simpa using run⟩
  | @more _ n count length first items ih =>
      subst source
      rw [Nat.add_right_comm] at run
      obtain ⟨inside, call, below, called, -⟩ := inspectItems_next run
      have consumed := unique offset n call below le_rfl first called
      have accepted : ¬call.rv < 0 := by omega
      rw [inspectItems_accepted inside called accepted, consumed, Int.toNat_natCast] at run
      obtain ⟨⟨_, _, calls'⟩, run', same⟩ := Option.map_eq_some_iff.mp run
      cases same
      obtain ⟨last, among, further⟩ := ih
        (fun start n call below behind => unique start n call below (by omega)) run'
        (List.drop_drop ..).symm
      rw [Nat.add_assoc, Nat.add_right_comm steps, Nat.add_assoc steps] at further
      exact ⟨last, List.subset_append_of_subset_right _ among, further⟩

/-- A complete item is consumed as a whole. -/
theorem Item.consumed (item : Item data n) (small : data.length < 2 ^ 31)
    (called : inspectRes data = some (call, below)) : call.rv = n := by
  induction size : data.length using Nat.strong_induction_on generalizing data n call below with
  | _ size ih =>
  subst size
  cases item with
  | flat item =>
      rw [inspectRes_flat item] at called
      cases called
      rfl
  | text item inside =>
      obtain ⟨-, accepted⟩ | ⟨-, outside⟩ := item.accepted small inside
      · rw [accepted] at called
        cases called
        rfl
      · rw [outside] at called
        cases called
  | array item items =>
      rw [inspectRes_array item] at called
      obtain ⟨⟨rv, steps, calls⟩, run, same⟩ := Option.map_eq_some_iff.mp called
      cases same
      have enough := item.enough
      rw [← Nat.add_zero (readU32At data 1)] at run
      obtain ⟨calls', -, last⟩ := inspectItems_front items
        (fun start n call below behind item called => ih _
          (by rw [List.length_drop]; omega) item (by rw [List.length_drop]; omega) called rfl) run
      rw [inspectItems] at last
      cases last
      have inside := (Item.array item items).le_length
      exact toInt32_of_lt (inside.trans_lt small)

/-! ## Bounds -/

/-- An error or between one and all of the bytes, and no more steps than bytes. -/
structure PrintCall.Bounded (call : PrintCall) : Prop where
  rv : call.rv = -1 ∨ 1 ≤ call.rv ∧ call.rv ≤ call.size
  steps : call.steps ≤ call.size

/-- No byte behind the data is inspected, and the calls for the data and for all items below
are bounded. -/
def Inspected (data : Bytes) : Prop :=
  ∃ call below, inspectRes data = some (call, below) ∧ ∀ made ∈ call :: below, made.Bounded

/-- Where the decoder comes to a text whose declared end is `2 ^ 32` or more, the end is not
`2 ^ 32` itself, and a zero byte follows the header. -/
def TextsEnd (data : Bytes) : Prop :=
  ∀ sub, Reaches data sub → ∀ header len, TextItem sub header len → 2 ^ 32 ≤ header + len →
    header + len ≠ 2 ^ 32 ∧ 0 ∈ sub.drop header

theorem TextsEnd.reached (ends : TextsEnd data) (reaches : Reaches data sub) : TextsEnd sub :=
  fun _ further => ends _ (reaches.trans further)

theorem PrintCall.Bounded.leaf_error (data : Bytes) : (PrintCall.leaf data (-1)).Bounded :=
  ⟨.inl rfl, Nat.zero_le _⟩

theorem PrintCall.Bounded.leaf (positive : 1 ≤ n) (inside : n ≤ data.length) :
    (PrintCall.leaf data n).Bounded :=
  ⟨.inr ⟨Int.ofNat_le.mpr positive, Int.ofNat_le.mpr inside⟩, Nat.zero_le _⟩

theorem Reaches.length_le (reaches : Reaches data sub) : sub.length ≤ data.length := by
  induction reaches with
  | self => exact le_rfl
  | item array before further reaches ih =>
      rw [List.length_drop] at ih
      omega

/-- The items which an array loop comes to are inspected. -/
theorem Inspected.reached (inspected : Inspected data) (small : data.length < 2 ^ 31)
    (reaches : Reaches data sub) : Inspected sub := by
  induction reaches with
  | self => exact inspected
  | @item data sub i length array before further reaches ih =>
      apply ih
      · obtain ⟨call, below, called, bounded⟩ := inspected
        rw [inspectRes_array array] at called
        obtain ⟨⟨rv, steps, calls⟩, run, same⟩ := Option.map_eq_some_iff.mp called
        cases same
        obtain ⟨left, count⟩ : ∃ left, readU32At data 1 = i + (left + 1) :=
          ⟨readU32At data 1 - i - 1, by omega⟩
        rw [count] at run
        have short : ∀ start, (data.drop start).length < 2 ^ 31 := fun start => by
          rw [List.length_drop]
          omega
        obtain ⟨calls', among, run'⟩ := inspectItems_front before
          (fun start n call below _ item called => item.consumed (short start) called) run
        obtain ⟨-, next, below', called', made⟩ := inspectItems_next run'
        exact ⟨next, below', called', fun call mem =>
          bounded call (List.mem_cons_of_mem _ (among (made mem)))⟩
      · rw [List.length_drop]
        omega

/-- A text which is inspected does not end at `2 ^ 32`, where nothing would be consumed. -/
theorem Inspected.text (inspected : Inspected data) (small : data.length < 2 ^ 31)
    (item : TextItem data header len) (wraps : 2 ^ 32 ≤ header + len) :
    header + len ≠ 2 ^ 32 ∧ 0 ∈ data.drop header := by
  obtain ⟨call, below, called, bounded⟩ := inspected
  obtain ⟨-, short, enough, bound⟩ := item.bounds
  obtain ⟨⟨unwrapped | zero, accepted⟩⟩ | ⟨-, outside⟩ := item.accepted small (by omega)
  · omega
  · rw [accepted] at called
    cases called
    refine ⟨fun nothing => ?_, zero⟩
    obtain ⟨rv, -⟩ := bounded _ List.mem_cons_self
    rw [nothing] at rv
    simp [PrintCall.leaf] at rv
  · rw [outside] at called
    cases called

/-- What a bounded call has consumed is an item. -/
def InspectedItem (data : Bytes) : Prop :=
  ∃ call below, inspectRes data = some (call, below) ∧ (∀ made ∈ call :: below, made.Bounded) ∧
    (call.rv = -1 ∨ ∃ n : Nat, call.rv = n ∧ 1 ≤ n ∧ Item data n)

/-- The array loop behind `i` items, each of which has advanced the offset. -/
theorem inspectItems_bounded (array : ArrayItem data) (small : data.length < 2 ^ 31)
    (inner : ∀ start, 1 ≤ start → TextsEnd (data.drop start) → InspectedItem (data.drop start))
    (ends : TextsEnd data) (items : Items Item (data.drop (1 + 4)) i length)
    (advanced : i ≤ length) (count : i + left = readU32At data 1) :
    ∃ rv steps calls, inspectItems data left (1 + 4 + length) i = some (rv, steps, calls) ∧
      (∀ made ∈ calls, made.Bounded) ∧ steps ≤ data.length ∧
      (rv = -1 ∨ ∃ n : Nat, rv = n ∧ 1 ≤ n ∧ Item data n) := by
  have enough := array.enough
  have inside : 1 + 4 + length ≤ data.length := by
    have body := items.le_length fun start n item => item.le_length
    rw [List.length_drop] at body
    omega
  induction left generalizing i length with
  | zero =>
      rw [← Nat.add_zero i, count] at items
      have whole : Item data (1 + 4 + length) := .array array items
      refine ⟨_, _, _, by rw [inspectItems], by simp, by omega, .inr ⟨_, ?_, by omega, whole⟩⟩
      exact toInt32_of_lt (by omega)
  | succ left ih =>
      have reaches : Reaches data (data.drop (1 + 4 + length)) :=
        .item array items (by omega) (.self _)
      obtain ⟨call, below, called, bounded, failed | ⟨n, consumed, positive, item⟩⟩ :=
        inner _ (by omega) (ends.reached reaches)
      · refine ⟨_, _, _, inspectItems_refused inside called (by omega), bounded, by omega, ?_⟩
        exact .inl failed
      · have next : 1 + 4 + length + call.rv.toNat = 1 + 4 + (length + n) := by omega
        have within := item.le_length
        rw [List.length_drop] at within
        rw [inspectItems_accepted inside called (by omega), next]
        rw [← List.drop_drop] at item
        obtain ⟨rv, steps, calls, run, bounded', few, result⟩ :=
          ih (items.snoc item) (by omega) (by omega) (by omega)
        refine ⟨rv, steps, call :: below ++ calls, by rw [run]; rfl, ?_, few, result⟩
        intro made mem
        obtain mem | mem := List.mem_append.mp mem
        · exact bounded made mem
        · exact bounded' made mem

theorem TextsEnd.inspected (ends : TextsEnd data) (small : data.length < 2 ^ 31) :
    InspectedItem data := by
  induction size : data.length using Nat.strong_induction_on generalizing data with
  | _ size ih =>
  subst size
  by_cases flat : ∃ n, FlatItem data n
  · obtain ⟨n, item⟩ := flat
    obtain ⟨positive, inside⟩ := item.bounds
    refine ⟨_, _, inspectRes_flat item, ?_, .inr ⟨n, rfl, positive, .flat item⟩⟩
    simpa using PrintCall.Bounded.leaf positive inside
  by_cases text : ∃ header len, TextItem data header len
  · obtain ⟨header, len, item⟩ := text
    obtain ⟨nonempty, short, enough, bound⟩ := item.bounds
    have ends' := ends data (.self data) header len item
    by_cases inside : (header + len) % 2 ^ 32 ≤ data.length
    · obtain ⟨-, accepted⟩ | ⟨⟨wraps, unterminated⟩, -⟩ := item.accepted small inside
      · have positive : 1 ≤ (header + len) % 2 ^ 32 := by omega
        refine ⟨_, _, accepted, ?_, .inr ⟨_, rfl, positive, .text item inside⟩⟩
        simpa using PrintCall.Bounded.leaf positive inside
      · exact absurd (ends' wraps).2 unterminated
    · refine ⟨_, _, (item.refused small (Nat.not_le.mp inside)).2, ?_, .inl rfl⟩
      simpa using PrintCall.Bounded.leaf_error data
  by_cases array : ArrayItem data
  · have enough := array.enough
    obtain ⟨rv, steps, calls, run, bounded, few, result⟩ := inspectItems_bounded array small
      (fun start behind ends => ih _ (by rw [List.length_drop]; omega) ends
        (by rw [List.length_drop]; omega) rfl) ends (.none _) le_rfl (Nat.zero_add _)
    refine ⟨⟨data.length, rv, steps⟩, calls, ?_, ?_, result⟩
    · rw [inspectRes_array array, run]
      rfl
    · have top : PrintCall.Bounded ⟨data.length, rv, steps⟩ := by
        refine ⟨?_, few⟩
        obtain failed | ⟨n, rfl, positive, item⟩ := result
        · exact .inl failed
        · exact .inr ⟨Int.ofNat_le.mpr positive, Int.ofNat_le.mpr item.le_length⟩
      simpa using ⟨top, bounded⟩
  · simp only [not_exists] at flat text
    refine ⟨_, _, inspectRes_malformed flat text array, ?_, .inl rfl⟩
    simpa using PrintCall.Bounded.leaf_error data

/-- `print_res` inspects only the data and returns an error or between one and all of its
bytes, at each level, with at most as many steps as bytes, exactly if the texts end. How deep
arrays are nested is bounded by the length of the data alone: on a stack of 8 MB the process does
not survive about `10 ^ 5` levels, which are no more than half a megabyte of data. -/
theorem print_res_iff (data : Bytes) (bounded : data.length ≤ kMaxMsg) :
    (Inspected data ∧ (printRes data = -1 ∨ 1 ≤ printRes data ∧ printRes data ≤ data.length)) ↔
      TextsEnd data := by
  have small : data.length < 2 ^ 31 := bounded.trans_lt (by decide)
  constructor
  · intro ⟨inspected, _⟩ sub reaches header len item wraps
    have inside := reaches.length_le
    exact (inspected.reached small reaches).text (by omega) item wraps
  · intro ends
    obtain ⟨call, below, called, bounded, _⟩ := ends.inspected small
    obtain ⟨size, rv⟩ := inspectRes_result called
    have top := (bounded call List.mem_cons_self).rv
    rw [size, rv] at top
    exact ⟨⟨call, below, called, bounded⟩, top⟩

/-- The string `ok`. -/
theorem print_res_ok : printRes [2, 2, 0, 0, 0, 111, 107] = -1 ∨
    1 ≤ printRes [2, 2, 0, 0, 0, 111, 107] ∧ printRes [2, 2, 0, 0, 0, 111, 107] ≤ 7 := by
  refine ((print_res_iff [2, 2, 0, 0, 0, 111, 107] (by decide)).mpr ?_).2
  intro sub reaches header len item wraps
  have self : sub = [2, 2, 0, 0, 0, 111, 107] := by
    cases reaches with
    | self => rfl
    | item array => exact absurd array.tag (by decide)
  subst self
  cases item with
  | err tag => exact absurd tag (by decide)
  | str => exact absurd wraps (by decide)

/-- A string of `2 ^ 32 - 5` bytes passes the bounds test: without a zero byte the read goes
on behind the data, and with one nothing is consumed. -/
theorem print_res_wraps : inspectRes [2, 0xFB, 0xFF, 0xFF, 0xFF] = none ∧
    inspectRes [2, 0xFB, 0xFF, 0xFF, 0xFF, 0] = some (⟨6, 0, 0⟩, []) ∧
    printRes [2, 0xFB, 0xFF, 0xFF, 0xFF, 0] = 0 := by
  have unclosed : TextItem [2, 0xFB, 0xFF, 0xFF, 0xFF] (1 + 4) (2 ^ 32 - 5) := .str rfl (by decide)
  have closed : TextItem [2, 0xFB, 0xFF, 0xFF, 0xFF, 0] (1 + 4) (2 ^ 32 - 5) := .str rfl (by decide)
  have nothing : inspectRes [2, 0xFB, 0xFF, 0xFF, 0xFF, 0] = some (⟨6, 0, 0⟩, []) := by
    obtain ⟨-, accepted⟩ | ⟨⟨-, unterminated⟩, -⟩ := closed.accepted (by decide) (by decide)
    · exact accepted
    · exact absurd (by decide) unterminated
  refine ⟨?_, nothing, (inspectRes_result nothing).2.symm⟩
  obtain ⟨⟨unwrapped | zero, -⟩⟩ | ⟨-, outside⟩ := unclosed.accepted (by decide) (by decide)
  · exact absurd unwrapped (by decide)
  · exact absurd zero (by decide)
  · exact outside

end MiniRedis
