import MiniRedis.Client.PrintRes

/-!
# What the decoder of the client inspects (`client.cpp`)

`print_res` with its reads and a record of its calls. The bounds test of a text adds the
declared length to the header in a `uint32_t`, and `%.*s` takes the length as an `int`.
-/

namespace MiniRedis

/-- A call of `print_res` which has returned. -/
structure PrintCall where
  size : Nat
  rv : Int
  /-- Steps of the array loop which have accepted an item. -/
  steps : Nat

/-- A call which does not enter the array loop. -/
def PrintCall.leaf (data : Bytes) (rv : Int) : PrintCall := ⟨data.length, rv, 0⟩

/-- `%.*s`: up to `precision` bytes, or up to the first zero byte. A negative precision is
none. No result is a read behind the bytes. -/
def printfStr (precision : Int) : Bytes → Option Bytes
  | [] => if precision = 0 then some [] else none
  | byte :: rest =>
    if precision = 0 ∨ byte = 0 then some []
    else (printfStr (precision - 1) rest).map (byte :: ·)

/-- The end of a text behind `header` bytes, which is printed unless it lies behind the data. -/
def inspectText (data : Bytes) (header len : Nat) : Option Int :=
  let total := (header + len) % 2 ^ 32
  if data.length < total then some (-1)
  else (printfStr (toInt32 len) (data.drop header)).map fun _ => toInt32 total

mutual

/-- `print_res` and the calls below it. No result is a read behind the data. -/
def inspectRes (data : Bytes) : Option (PrintCall × List PrintCall) :=
  match data.head? with
  | none => some (.leaf data (-1), [])
  | some tag =>
    if tag = Tag.nil.byte then some (.leaf data 1, [])
    else if tag = Tag.err.byte then
      if data.length < 1 + 8 then some (.leaf data (-1), [])
      else (inspectText data (1 + 8) (readU32At data (1 + 4))).map fun rv => (.leaf data rv, [])
    else if tag = Tag.str.byte then
      if data.length < 1 + 4 then some (.leaf data (-1), [])
      else (inspectText data (1 + 4) (readU32At data 1)).map fun rv => (.leaf data rv, [])
    else if tag = Tag.int.byte then
      some (.leaf data (if data.length < 1 + 8 then -1 else 1 + 8), [])
    else if tag = Tag.dbl.byte then
      some (.leaf data (if data.length < 1 + 8 then -1 else 1 + 8), [])
    else if tag = Tag.arr.byte then
      if data.length < 1 + 4 then some (.leaf data (-1), [])
      else (inspectItems data (readU32At data 1) (1 + 4) 0).map
        fun (rv, steps, calls) => (⟨data.length, rv, steps⟩, calls)
    else some (.leaf data (-1), [])
termination_by (data.length, 0)
decreasing_by
  exact Prod.Lex.left _ _ (by omega)

/-- The array loop: what it returns, the steps it has taken, and the calls. -/
def inspectItems (data : Bytes) (left offset steps : Nat) :
    Option (Int × Nat × List PrintCall) :=
  match left with
  | 0 => some (toInt32 offset, steps, [])
  | left + 1 =>
    -- `size - offset` would wrap around
    if data.length < offset then none
    else do
      let (call, below) ← inspectRes (data.drop offset)
      if call.rv < 0 then return (call.rv, steps, call :: below)
      else
        let (rv, steps, calls) ← inspectItems data left (offset + call.rv.toNat) (steps + 1)
        return (rv, steps, call :: below ++ calls)
termination_by (data.length - offset, left + 1)
decreasing_by
  · rw [List.length_drop]
    exact Prod.Lex.right _ (by omega)
  · rcases Nat.lt_or_eq_of_le (Nat.sub_le_sub_left (Nat.le_add_right offset call.rv.toNat) data.length)
      with shorter | same
    · exact Prod.Lex.left _ _ shorter
    · rw [same]
      exact Prod.Lex.right _ (by omega)

end

variable {precision rv : Int} {data bytes : Bytes} {header len left offset steps steps' : Nat}
  {call : PrintCall} {below calls : List PrintCall}

theorem printfStr_of_le (nonneg : 0 ≤ precision) (inside : precision ≤ bytes.length) :
    ∃ text, printfStr precision bytes = some text := by
  induction bytes generalizing precision with
  | nil =>
      have zero : precision = 0 := le_antisymm inside nonneg
      exact ⟨[], by rw [printfStr, if_pos zero]⟩
  | cons byte rest ih =>
      by_cases stops : precision = 0 ∨ byte = 0
      · exact ⟨[], by rw [printfStr, if_pos stops]⟩
      · rw [List.length_cons] at inside
        push_cast at inside
        obtain ⟨text, printed⟩ := @ih (precision - 1) (by omega) (by omega)
        exact ⟨byte :: text, by rw [printfStr, if_neg stops, printed, Option.map_some]⟩

/-- Without a precision the string is printed up to a zero byte. -/
theorem printfStr_of_neg (unbounded : precision < 0) :
    (∃ text, printfStr precision bytes = some text) ↔ 0 ∈ bytes := by
  induction bytes generalizing precision with
  | nil => simp [printfStr, unbounded.ne]
  | cons byte rest ih =>
      have further := @ih (precision - 1) (by omega)
      by_cases zero : byte = 0
      · simp [printfStr, zero]
      · have printed : printfStr precision (byte :: rest) =
            (printfStr (precision - 1) rest).map (byte :: ·) := by
          rw [printfStr, if_neg]
          rintro (none | stop)
          · exact unbounded.ne none
          · exact zero stop
        simp [printed, ← further, Ne.symm zero]

/-! ## The array loop -/

theorem inspectItems_refused (inside : offset ≤ data.length)
    (first : inspectRes (data.drop offset) = some (call, below)) (negative : call.rv < 0) :
    inspectItems data (left + 1) offset steps = some (call.rv, steps, call :: below) := by
  rw [inspectItems, if_neg (Nat.not_lt.mpr inside), first]
  simp [negative]

theorem inspectItems_accepted (inside : offset ≤ data.length)
    (first : inspectRes (data.drop offset) = some (call, below)) (accepted : ¬call.rv < 0) :
    inspectItems data (left + 1) offset steps =
      (inspectItems data left (offset + call.rv.toNat) (steps + 1)).map
        fun (rv, steps, calls) => (rv, steps, call :: below ++ calls) := by
  rw [inspectItems, if_neg (Nat.not_lt.mpr inside), first]
  cases further : inspectItems data left (offset + call.rv.toNat) (steps + 1) <;>
    simp [accepted, further]

/-- A loop which comes to an end has made the call for its next item. -/
theorem inspectItems_next
    (run : inspectItems data (left + 1) offset steps = some (rv, steps', calls)) :
    offset ≤ data.length ∧ ∃ call below,
      inspectRes (data.drop offset) = some (call, below) ∧ call :: below ⊆ calls := by
  have inside : offset ≤ data.length := by
    by_contra outside
    rw [inspectItems, if_pos (Nat.not_le.mp outside)] at run
    cases run
  refine ⟨inside, ?_⟩
  cases first : inspectRes (data.drop offset) with
  | none =>
      rw [inspectItems, if_neg (Nat.not_lt.mpr inside), first] at run
      cases run
  | some result =>
      obtain ⟨call, below⟩ := result
      refine ⟨call, below, rfl, ?_⟩
      by_cases negative : call.rv < 0
      · rw [inspectItems_refused inside first negative] at run
        cases run
        exact List.Subset.refl _
      · rw [inspectItems_accepted inside first negative] at run
        obtain ⟨_, _, same⟩ := Option.map_eq_some_iff.mp run
        cases same
        exact List.subset_append_left _ _

/-! ## Agreement with `printRes` -/

theorem inspectText_result (run : inspectText data header len = some rv) :
    rv = printText data header len := by
  simp only [inspectText] at run
  simp only [printText]
  split_ifs at run ⊢ with outside
  · cases run
    rfl
  · obtain ⟨_, _, same⟩ := Option.map_eq_some_iff.mp run
    exact same.symm

theorem inspectItems_result
    (agrees : ∀ start call below, offset ≤ start →
      inspectRes (data.drop start) = some (call, below) → call.rv = printRes (data.drop start))
    (run : inspectItems data left offset steps = some (rv, steps', calls)) :
    rv = printItems (data.drop offset) left offset := by
  induction left generalizing offset steps calls with
  | zero =>
      rw [inspectItems] at run
      rw [printItems.eq_def]
      cases run
      rfl
  | succ left ih =>
      obtain ⟨inside, call, below, called, -⟩ := inspectItems_next run
      have first := agrees offset call below le_rfl called
      rw [printItems.eq_def]
      dsimp only
      rw [← first]
      by_cases negative : call.rv < 0
      · rw [inspectItems_refused inside called negative] at run
        cases run
        rw [if_pos negative]
      · rw [inspectItems_accepted inside called negative] at run
        obtain ⟨_, run', same⟩ := Option.map_eq_some_iff.mp run
        cases same
        rw [if_neg negative, List.drop_drop]
        exact ih (fun start call below behind => agrees start call below (by omega)) run'

/-- The record of a call tells its size and its result. -/
theorem inspectRes_result (called : inspectRes data = some (call, below)) :
    call.size = data.length ∧ call.rv = printRes data := by
  induction size : data.length using Nat.strong_induction_on generalizing data call below with
  | _ size ih =>
  subst size
  rw [inspectRes] at called
  rw [printRes]
  cases head : data.head? with
  | none =>
      rw [head] at called
      cases called
      exact ⟨rfl, rfl⟩
  | some tag =>
      rw [head] at called
      dsimp only at called ⊢
      split_ifs at called ⊢ with isNil isErr short isStr short isInt short isDbl short isArr short
      any_goals
        cases called
        exact ⟨rfl, rfl⟩
      · obtain ⟨rv, run, same⟩ := Option.map_eq_some_iff.mp called
        cases same
        exact ⟨rfl, inspectText_result run⟩
      · obtain ⟨rv, run, same⟩ := Option.map_eq_some_iff.mp called
        cases same
        exact ⟨rfl, inspectText_result run⟩
      · obtain ⟨⟨rv, steps, calls⟩, run, same⟩ := Option.map_eq_some_iff.mp called
        cases same
        refine ⟨rfl, inspectItems_result (fun start call below behind called => ?_) run⟩
        refine (ih _ ?_ called rfl).2
        rw [List.length_drop]
        omega

end MiniRedis
