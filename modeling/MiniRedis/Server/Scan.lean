import MiniRedis.Library.Pages
import MiniRedis.Server.Locality

/-!
# Paging through a sorted set

A client reads a sorted set with one `zquery` after another, each from the successor of the
last pair it has got. Other clients go on in between: what they leave alone is listed once.
-/

namespace MiniRedis

open Binary64
open Paged (IsPage Pages)

/-! ## The order behind a pair -/

/-- No list lies between one and its extension by a zero. -/
theorem append_zero_le (front back : List Nat) : front ++ [0] ≤ back ↔ front < back := by
  rw [← not_lt]
  induction front generalizing back with
  | nil => cases back <;> simp [List.cons_lt_cons_iff]
  | cons head tail ih =>
      cases back with
      | nil => simp
      | cons head' tail' =>
          rw [List.cons_append, List.cons_lt_cons_iff, List.cons_lt_cons_iff, ← ih]
          obtain less | rfl | more := lt_trichotomy head head'
          · simp [less, less.not_gt, less.ne']
          · simp
          · simp [more, more.not_gt, more.ne']

/-- The pairs from a name with a zero behind it on are those behind the name. -/
theorem pairKey_successor_le {score score' : Number} {name name' : Bytes} :
    pairKey score (name ++ [0]) ≤ pairKey score' name' ↔
    pairKey score name < pairKey score' name' := by
  have extended : codes (name ++ [0]) = codes name ++ [0] := by simp [codes]
  rw [pairKey_lt_iff, pairKey, pairKey, Prod.Lex.toLex_le_toLex, extended, append_zero_le]

/-- The place of a pair in its sorted set. -/
def placeOf (pair : Bytes × Number) : PairKey := pairKey pair.2 pair.1

/-- A query from the successor of a pair on lists a page of the members behind the pair. -/
theorem Ranked.isPage {scores : Bytes → Option Number} {members : List (Bytes × Number)}
    (ranked : Ranked scores members) {score : Number} {cursor : Bytes × Number}
    (same : score.rank = cursor.2.rank) {limit : Int} (positive : 0 < limit) :
    IsPage {place | ∃ pair, scores pair.1 = some pair.2 ∧ placeOf pair = place} (placeOf cursor)
      ((zqueryPairs members score (cursor.1 ++ [0]) 0 limit).map placeOf) := by
  have here : pairKey score cursor.1 = placeOf cursor := pairKey_eq_iff.mpr ⟨same, rfl⟩
  have from_here : ∀ pair, pairKey score (cursor.1 ++ [0]) ≤ pairKey pair.2 pair.1 ↔
      placeOf cursor < placeOf pair :=
        fun pair => by rw [pairKey_successor_le, here, placeOf, placeOf]
  have elements : {place | ∃ pair, scores pair.1 = some pair.2 ∧ placeOf pair = place} =
      {place | place ∈ members.map placeOf} := by
    ext place
    simp only [Set.mem_ofPred_eq, List.mem_map, ← ranked.complete, Prod.mk.eta]
  rw [elements, zqueryPairs]
  cases first : members.findIdx?
      fun pair => decide (pairKey score (cursor.1 ++ [0]) ≤ pairKey pair.2 pair.1) with
  | none =>
      refine .empty fun place member => ?_
      obtain ⟨pair, inside, rfl⟩ := List.mem_map.mp member
      have before := List.findIdx?_eq_none_iff.mp first pair inside
      rw [decide_eq_false_iff_not, from_here] at before
      exact not_lt.mp before
  | some i =>
      obtain ⟨bound, found, before⟩ := List.findIdx?_eq_some_iff_getElem.mp first
      have sorted : (members.map placeOf).Pairwise (· < ·) := List.pairwise_map.mpr ranked.sorted
      have start : (i + (0 : Int)).toNat = i := by simp
      dsimp only
      rw [if_pos ⟨positive, by omega, by omega⟩, start, List.map_take, List.map_drop]
      refine .of_sorted sorted (fun place member => ?_) (fun place member => ?_) (by omega)
      · obtain ⟨j, inside, rfl⟩ := List.mem_take_iff_getElem.mp member
        have early := before j (by omega)
        rw [Bool.not_eq_true, decide_eq_false_iff_not, from_here, not_lt] at early
        simpa using early
      · rw [decide_eq_true_iff, from_here] at found
        rw [List.mem_drop_iff_getElem] at member
        obtain ⟨j, inside, rfl⟩ := member
        obtain rfl | later := Nat.eq_zero_or_pos j
        · simpa using found
        · have increasing := List.pairwise_iff_getElem.mp sorted i (i + j) (by simpa using bound)
            (by omega) (by omega)
          rw [List.getElem_map] at increasing
          exact found.trans increasing

/-! ## What stays in the set -/

/-- The member has the score under the key. -/
def Contents.Scored (map : Contents) (key name : Bytes) (score : Number) : Prop :=
  ∃ scores due, map key = some ⟨.zset scores, due⟩ ∧ scores name = some score

/-- The event may move or remove the member. -/
def ServerEvent.Moves (key name : Bytes) : ServerEvent → Prop
  | .command _ _ cmd _ => (∃ score, cmd = [ascii "zadd", key, score, name]) ∨
      cmd = [ascii "zrem", key, name]
  | .timers _ => False

variable {history later : List ServerEvent} {event : ServerEvent} {map map' : Contents} {clock : Nat}
  {key name : Bytes} {score : Number}

/-- A member which an event does not move keeps its score unless the event removes the key. -/
theorem SpecEvent.scored (happens : SpecEvent event map map') (kept : ¬event.Moves key name)
    (scored : map.Scored key name score) : map'.Scored key name score ∨ map' key = none := by
  obtain ⟨scores, due, present, assigned⟩ := scored
  cases happens with
  | timers env expires =>
      obtain same | ⟨gone, -⟩ := expires key
      · exact .inl ⟨scores, due, same.trans present, assigned⟩
      · exact .inr gone
  | @command _ _ client env cmd reply answers =>
      have step := answers.step
      by_cases other : cmd[1]? ≠ some key
      · have same := congrFun (step.others other) key
        rw [Contents.only_self, Contents.only_self] at same
        exact .inl ⟨scores, due, same.trans present, assigned⟩
      rw [not_not] at other
      cases step with
      | get | keys | zscore | zrank | zquery | pttl | unknown | arity =>
          exact .inl ⟨scores, due, present, assigned⟩
      | set k val =>
          obtain rfl : k = key := by simpa using other
          exact .inl ⟨scores, due, by simp [specSet, present], assigned⟩
      | del k =>
          obtain rfl : k = key := by simpa using other
          refine .inr ?_
          simp only [specDel, present]
          exact Function.update_self ..
      | zadd k scoreArg n =>
          obtain rfl : k = key := by simpa using other
          have differs : name ≠ n := fun same => kept (.inl ⟨scoreArg, same ▸ rfl⟩)
          simp only [specZadd, present]
          split
          · exact .inl ⟨scores, due, present, assigned⟩
          · exact .inl ⟨_, due, Function.update_self .., by rwa [Function.update_of_ne differs]⟩
      | zrem k n =>
          obtain rfl : k = key := by simpa using other
          have differs : name ≠ n := fun same => kept (.inr (same ▸ rfl))
          simp only [specZrem, present]
          exact .inl ⟨_, due, Function.update_self .., by rwa [Function.update_of_ne differs]⟩
      | persist k =>
          obtain rfl : k = key := by simpa using other
          simp only [specPersist, present]
          cases due with
          | none => exact .inl ⟨scores, none, present, assigned⟩
          | some due => exact .inl ⟨scores, none, Function.update_self .., assigned⟩
      | pexpire k ttl answer =>
          obtain rfl : k = key := by simpa using other
          simp only [specPexpire, present] at answer
          split at answer
          · cases answer
            exact .inl ⟨scores, due, present, assigned⟩
          · split_ifs at answer
            cases answer
            exact .inl ⟨scores, _, Function.update_self .., assigned⟩

/-- An accepted `zadd` gives the member a score which compares equal to its argument. -/
theorem SpecEvent.zadd {client : Nat} {env : Env} {scoreArg : Bytes} {added : Int}
    (parsed : str2dbl env.strtod scoreArg = some score)
    (happens : SpecEvent (.command client env [ascii "zadd", key, scoreArg, name]
      (WireValue.int added).encode) map map') :
    ∃ score', map'.Scored key name score' ∧ score'.rank = score.rank := by
  generalize answer : (WireValue.int added).encode = value at happens
  cases happens with
  | @command _ _ _ _ _ reply answers =>
      have result := answers.step.of_zadd rfl
      simp only [specZadd, parsed] at result
      split at result
      · cases result
        exact ⟨score, ⟨_, _, Function.update_self .., Function.update_self ..⟩, rfl⟩
      · cases result
        exact ⟨_, ⟨_, _, Function.update_self .., Function.update_self ..⟩, insertedScore_rank _ _⟩
      · cases result
        simp [errValue, WireValue.encode, Tag.byte] at answer

/-! ## The maps between the events -/

/-- Each event leads from the map at its position to the next one. -/
def SpecTrace (maps : Nat → Contents) (events : List ServerEvent) : Prop :=
  ∀ i event, events[i]? = some event → SpecEvent event (maps i) (maps (i + 1))

variable {maps : Nat → Contents} {front back : List ServerEvent}

theorem SpecTrace.left (trace : SpecTrace maps (front ++ back)) : SpecTrace maps front := by
  intro i event found
  have inside := (List.getElem?_eq_some_iff.mp found).1
  exact trace i event (by rwa [List.getElem?_append_left inside])

theorem SpecTrace.right (trace : SpecTrace maps (front ++ back)) :
    SpecTrace (fun i => maps (front.length + i)) back := by
  intro i event found
  apply trace (front.length + i) event
  rwa [List.getElem?_append_right (Nat.le_add_right ..), Nat.add_sub_cancel_left]

/-- Every run of the map has its sequence of maps. -/
theorem SpecRun.trace (spec : SpecRun history map clock) :
    ∃ maps, maps 0 = (fun _ => none) ∧ SpecTrace maps history ∧ maps history.length = map := by
  -- one more map behind one more event
  have extend : ∀ {history : List ServerEvent} {map map' : Contents} {event : ServerEvent}
      {maps : Nat → Contents}, maps 0 = (fun _ => none) → SpecTrace maps history →
      maps history.length = map → SpecEvent event map map' →
      ∃ maps, maps 0 = (fun _ => none) ∧ SpecTrace maps (history ++ [event]) ∧
        maps (history ++ [event]).length = map' := by
    intro history map map' event maps start trace final happens
    refine ⟨Function.update maps (history.length + 1) map', ?_, fun i event' found => ?_, ?_⟩
    · rw [Function.update_of_ne (by omega), start]
    · have inside := (List.getElem?_eq_some_iff.mp found).1
      rw [List.length_append, List.length_singleton] at inside
      rw [Function.update_of_ne (by omega)]
      obtain earlier | rfl : i < history.length ∨ i = history.length := by omega
      · rw [Function.update_of_ne (by omega)]
        exact trace i event' (by rwa [List.getElem?_append_left earlier] at found)
      · rw [List.getElem?_concat_length, Option.some.injEq] at found
        rw [Function.update_self, final, ← found]
        exact happens
    · rw [List.length_append, List.length_singleton, Function.update_self]
  induction spec with
  | start => exact ⟨fun _ _ => none, rfl, fun i event found => by simp at found, rfl⟩
  | command before client env later fits answers ih =>
      obtain ⟨maps, start, trace, final⟩ := ih
      exact extend start trace final (.command client env answers)
  | timers before env later expires earliest ih =>
      obtain ⟨maps, start, trace, final⟩ := ih
      exact extend start trace final (.timers env expires)

/-- A member keeps its score while no event moves it and its key stays. -/
theorem SpecTrace.scored (trace : SpecTrace maps later)
    (kept : ∀ event ∈ later, ¬event.Moves key name)
    (stays : ∀ i ≤ later.length, maps i key ≠ none)
    (scored : (maps 0).Scored key name score) {i : Nat} (inside : i ≤ later.length) :
    (maps i).Scored key name score := by
  induction i with
  | zero => exact scored
  | succ i ih =>
      have event := List.getElem?_eq_getElem (Nat.lt_of_succ_le inside)
      obtain scored' | gone := (trace i _ event).scored
        (kept _ (List.mem_of_getElem? event)) (ih (Nat.le_of_succ_le inside))
      · exact scored'
      · exact absurd gone (stays _ inside)

/-! ## The answers -/

theorem encode_lt_inj {width m n : Nat} {left right : Bytes} (small : m < 256 ^ width)
    (small' : n < 256 ^ width)
    (same : LittleEndian.encode width m ++ left = LittleEndian.encode width n ++ right) :
    m = n ∧ left = right := by
  obtain ⟨front, back⟩ := List.append_inj same (by simp)
  have values := congrArg LittleEndian.decode front
  rw [LittleEndian.decode_encode, LittleEndian.decode_encode, Nat.mod_eq_of_lt small,
    Nat.mod_eq_of_lt small'] at values
  exact ⟨values, back⟩

/-- The items determine the pairs, if no name is longer than its size field can say. -/
theorem encodeItems_pairItems_inj {pairs pairs' : List (Bytes × Number)}
    (count : pairs.length = pairs'.length)
    (short : (WireValue.encodeItems (pairItems pairs)).length < 2 ^ 32)
    (same : WireValue.encodeItems (pairItems pairs) = WireValue.encodeItems (pairItems pairs')) :
    pairs = pairs' := by
  induction pairs generalizing pairs' with
  | nil => exact (List.length_eq_zero_iff.mp count.symm).symm
  | cons pair rest ih =>
      cases pairs' with
      | nil => simp at count
      | cons pair' rest' =>
          obtain ⟨name, score⟩ := pair
          obtain ⟨name', score'⟩ := pair'
          have lengths := congrArg List.length same
          simp only [pairItems, List.flatMap_cons, List.cons_append, List.nil_append,
            WireValue.encodeItems, WireValue.encode, List.append_assoc, List.cons.injEq, true_and,
            List.length_cons, List.length_append, LittleEndian.length_encode] at same short lengths
          obtain ⟨size, front⟩ := encode_lt_inj (by omega) (by omega) same
          obtain ⟨rfl, items⟩ := List.append_inj front size
          simp only [List.cons.injEq, true_and] at items
          obtain ⟨bits, behind⟩ := encode_lt_inj score.double.bits.toNat_lt score'.double.bits.toNat_lt items
          have equal : score = score' := by
            rw [Number.mk.injEq, Double.mk.injEq]
            exact UInt64.toNat_inj.mp bits
          rw [equal, ih (by simpa using count) (by rw [pairItems]; omega) behind]

theorem encode_pairs_inj {pairs pairs' : List (Bytes × Number)}
    (short : (WireValue.arr (pairItems pairs)).encode.length ≤ kMaxMsg)
    (same : (WireValue.arr (pairItems pairs)).encode = (WireValue.arr (pairItems pairs')).encode) :
    pairs = pairs' := by
  have many := WireValue.length_le_encodeItems (pairItems pairs)
  have many' := WireValue.length_le_encodeItems (pairItems pairs')
  have lengths := congrArg List.length same
  have limit : kMaxMsg < 2 ^ 32 := by decide
  simp only [WireValue.encode, List.length_cons, List.length_append,
    LittleEndian.length_encode] at short lengths
  simp only [WireValue.encode, List.cons.injEq, true_and] at same
  obtain ⟨count, same⟩ := encode_lt_inj (by omega) (by omega) same
  rw [length_pairItems, length_pairItems] at count
  exact encodeItems_pairItems_inj (by omega) (by omega) same

/-- The places of the members of the sorted set under a key. -/
def Contents.places (map : Contents) (key : Bytes) : Set PairKey :=
  {place | ∃ pair, map.Scored key pair.1 pair.2 ∧ placeOf pair = place}

/-- The answer to a query behind a cursor is a page of the members of this moment. -/
theorem SpecEvent.isPage {client : Nat} {env : Env} {cursor : Bytes × Number}
    {scoreArg offsetArg limitArg : Bytes} {limit : Int} {pairs : List (Bytes × Number)}
    (parsed : str2dbl env.strtod scoreArg = some score) (same : score.rank = cursor.2.rank)
    (start : str2int offsetArg = some 0) (most : str2int limitArg = some limit)
    (positive : 0 < limit)
    (small : (WireValue.arr (pairItems pairs)).encode.length ≤ kMaxMsg)
    (happens : SpecEvent (.command client env [ascii "zquery", key, scoreArg, cursor.1 ++ [0], offsetArg,
      limitArg] (WireValue.arr (pairItems pairs)).encode) map map') :
    IsPage (map.places key) (placeOf cursor) (pairs.map placeOf) := by
  generalize answer : (WireValue.arr (pairItems pairs)).encode = value at happens
  cases happens with
  | @command _ _ _ _ _ reply answers =>
      obtain ⟨members, chosen, rfl⟩ := answers.zquery _ _ _ _ _ rfl
      simp only [specZquery, parsed, start, most] at answer
      split at answer
      · next absent =>
          obtain rfl : pairs = [] := encode_pairs_inj small answer
          refine .empty ?_
          rintro _ ⟨_, ⟨_, _, present, -⟩, -⟩
          rw [absent] at present
          cases present
      · next scores due present =>
          obtain rfl := encode_pairs_inj small answer
          have places : map.places key = {place | ∃ pair,
            scores pair.1 = some pair.2 ∧ placeOf pair = place} := by
            simp [Contents.places, Contents.Scored, present]
          rw [places]
          exact (chosen scores due present).isPage same positive
      · simp [errValue, WireValue.encode, Tag.byte] at answer

/-! ## Whole scans -/

/-- A client asks for page after page behind a cursor, and any other events happen in between. The
score of the cursor may be written in any way which parses to an equal one. -/
inductive Paging (client : Nat) (key : Bytes) :
    Bytes × Number → List ServerEvent → List (List (Bytes × Number)) → Prop where
  | done (cursor : Bytes × Number) : Paging client key cursor [] []
  | other {cursor : Bytes × Number} {events : List ServerEvent}
      {pages : List (List (Bytes × Number))}
      (event : ServerEvent) (later : Paging client key cursor events pages) :
      Paging client key cursor (event :: events) pages
  | page {cursor : Bytes × Number} {events : List ServerEvent}
      {pages : List (List (Bytes × Number))}
      (env : Env) {scoreArg offsetArg limitArg : Bytes} {score : Number} {limit : Int}
      (parsed : str2dbl env.strtod scoreArg = some score) (same : score.rank = cursor.2.rank)
      (start : str2int offsetArg = some 0) (most : str2int limitArg = some limit)
      (positive : 0 < limit)
      {pairs : List (Bytes × Number)}
      (small : (WireValue.arr (pairItems pairs)).encode.length ≤ kMaxMsg)
      (later : Paging client key (pairs.getLastD cursor) events pages) :
      Paging client key cursor
        (.command client env [ascii "zquery", key, scoreArg, cursor.1 ++ [0], offsetArg, limitArg]
          (WireValue.arr (pairItems pairs)).encode :: events) (pairs :: pages)

variable {client : Nat} {cursor : Bytes × Number} {scan : List ServerEvent}
  {pages : List (List (Bytes × Number))}

/-- The pages are read from the members which the set has at each of the requests. -/
theorem Paging.moments (paging : Paging client key cursor scan pages)
    (trace : SpecTrace maps scan) :
    ∃ moments : List (Set PairKey × List PairKey), Pages (placeOf cursor) moments ∧
      moments.map Prod.snd = pages.map (List.map placeOf) ∧
      ∀ moment ∈ moments, ∃ i ≤ scan.length, moment.1 = (maps i).places key := by
  induction paging generalizing maps with
  | done cursor => exact ⟨[], .nil _, rfl, by simp⟩
  | @other _ events _ event later ih =>
      obtain ⟨moments, read, same, states⟩ := ih (@SpecTrace.right _ [event] _ trace)
      refine ⟨moments, read, same, fun moment member => ?_⟩
      obtain ⟨i, inside, places⟩ := states moment member
      exact ⟨1 + i, by rw [List.length_cons]; omega, places⟩
  | @page cursor events pages env _ _ _ _ _ parsed equal start most positive pairs small later ih =>
      have first := (trace 0 _ rfl).isPage parsed equal start most positive small
      obtain ⟨moments, read, same, states⟩ := ih fun i event found => trace (i + 1) event (by simpa)
      have moved : (pairs.map placeOf).getLastD (placeOf cursor) =
          placeOf (pairs.getLastD cursor) := by
        rw [List.getLastD_eq_getLast?, List.getLast?_map, Option.getD_map,
          List.getLastD_eq_getLast?]
      rw [← moved] at read
      refine ⟨_, .cons first read, by simp [same], fun moment member => ?_⟩
      obtain rfl | member := List.mem_cons.mp member
      · exact ⟨0, Nat.zero_le _, rfl⟩
      · obtain ⟨i, inside, places⟩ := states moment member
        exact ⟨i + 1, by rw [List.length_cons]; omega, places⟩

/-- The score of a member is unique. -/
theorem Contents.Scored.unique {score' : Number} (scored : map.Scored key name score)
    (scored' : map.Scored key name score') : score = score' := by
  obtain ⟨_, _, present, assigned⟩ := scored
  obtain ⟨_, _, present', assigned'⟩ := scored'
  rw [present] at present'
  cases present'
  exact Option.some.inj (assigned.symm.trans assigned')

/-- A member which is in the set all the time is listed exactly once, when a page comes back
empty. -/
theorem Paging.lists (paging : Paging client key cursor scan pages) (trace : SpecTrace maps scan)
    (scored : ∀ i ≤ scan.length, (maps i).Scored key name score)
    (ahead : placeOf cursor < pairKey score name) (ended : [] ∈ pages) :
    ∃ pair, (pages.flatten.filter fun pair => decide (pair.1 = name)) = [pair] ∧
    pair.2.rank = score.rank := by
  obtain ⟨moments, read, listed, states⟩ := paging.moments trace
  have flat : moments.flatMap Prod.snd = pages.flatten.map placeOf := by
    rw [List.flatMap_def, listed, List.map_flatten]
  have present : ∀ moment ∈ moments, ∃ map : Contents,
      moment.1 = map.places key ∧ map.Scored key name score := by
    intro moment member
    obtain ⟨i, inside, places⟩ := states moment member
    exact ⟨maps i, places, scored i inside⟩
  have complete := read.complete (by simpa [listed] using ended) ahead fun moment member => by
    obtain ⟨map, places, scored⟩ := present moment member
    rw [places]
    exact ⟨(name, score), scored, rfl⟩
  -- every pair with this name lies at this place, where there is room for one
  have single : ∀ pair ∈ pages.flatten, pair.1 = name → placeOf pair = pairKey score name := by
    rintro pair member rfl
    obtain ⟨moment, inside, here⟩ := read.listed (placeOf pair) (flat ▸ List.mem_map_of_mem member)
    obtain ⟨map, places, scored⟩ := present moment inside
    rw [places] at here
    obtain ⟨other, scored', same⟩ := here
    obtain ⟨equal, named⟩ := pairKey_eq_iff.mp same
    rw [named] at scored'
    rw [← same, scored.unique scored', ← named]
    rfl
  rw [flat] at complete
  obtain ⟨pair, member, place⟩ := List.mem_map.mp complete
  obtain ⟨equal, named⟩ := pairKey_eq_iff.mp place
  have inside : pair ∈ pages.flatten.filter fun pair => decide (pair.1 = name) :=
    List.mem_filter.mpr ⟨member, decide_eq_true named⟩
  have sorted := read.sorted
  rw [flat, List.pairwise_map] at sorted
  have increasing : (pages.flatten.filter fun pair => decide (pair.1 = name)).Pairwise
      fun p q => placeOf p < placeOf q := sorted.sublist List.filter_sublist
  have alike : ∀ other ∈ pages.flatten.filter fun pair => decide (pair.1 = name),
      placeOf other = pairKey score name := fun other chosen =>
    single other (List.mem_filter.mp chosen).1 (of_decide_eq_true (List.mem_filter.mp chosen).2)
  refine ⟨pair, ?_, equal⟩
  generalize (pages.flatten.filter fun pair => decide (pair.1 = name)) =
    chosen at inside increasing alike
  cases chosen with
  | nil => cases inside
  | cons first rest =>
      cases rest with
      | nil => rw [List.mem_singleton.mp inside]
      | cons second rest =>
          have less := List.rel_of_pairwise_cons increasing List.mem_cons_self
          rw [alike first (by simp), alike second (by simp)] at less
          exact absurd less (lt_irrefl _)

variable {loop : EventLoop Server Conn} {phase : LoopPhase} {traffic : Traffic}

/-- Some maps explain the history of every run, and all which do have this in common: an accepted
`zadd` leaves its member with an equal score, and whatever the other clients do between its pages, a
client which pages through a sorted set lists strictly increasing pairs behind its cursor. If a page
comes back empty, a member which is in the set at some moment before, and which no command moves
while its key stays in the map until the end of the scan, has been listed exactly once. The runs
are over byte queues, as those of `Buffers.TrafficRun.queues`. -/
theorem scan_complete (run : TrafficRun loop phase clock traffic) :
    (∃ maps, maps 0 = (fun _ => none) ∧ SpecTrace maps traffic.history ∧
      maps traffic.history.length = loop.db.contents) ∧
    ∀ maps, SpecTrace maps traffic.history →
      (∀ i writer env key scoreArg name score added, str2dbl env.strtod scoreArg = some score →
        traffic.history[i]? = some (.command writer env [ascii "zadd", key, scoreArg, name]
          (WireValue.int added).encode) →
        ∃ score', (maps (i + 1)).Scored key name score' ∧ score'.rank = score.rank) ∧
      ∀ before scan after, traffic.history = before ++ scan ++ after →
        ∀ client key cursor pages, Paging client key cursor scan pages →
          (pages.flatten.Pairwise fun p q => placeOf p < placeOf q) ∧
          (∀ pair ∈ pages.flatten, placeOf cursor < placeOf pair) ∧
          ∀ i name score, i ≤ before.length → (maps i).Scored key name score →
            (∀ event ∈ (before ++ scan).drop i, ¬event.Moves key name) →
            (∀ j, i ≤ j → j ≤ (before ++ scan).length → maps j key ≠ none) →
            placeOf cursor < pairKey score name → [] ∈ pages →
              ∃ pair, (pages.flatten.filter fun pair => decide (pair.1 = name)) = [pair] ∧
                pair.2.rank = score.rank := by
  obtain ⟨-, clock', past, spec⟩ := run.accounted
  refine ⟨spec.trace, fun maps trace => ⟨?_, ?_⟩⟩
  · exact fun i writer env key scoreArg name score added parsed found =>
      (trace i _ found).zadd parsed
  intro before scan after split client key cursor pages paging
  rw [split] at trace
  have scanned := trace.left.right
  obtain ⟨moments, read, listed, -⟩ := paging.moments scanned
  have flat : moments.flatMap Prod.snd = pages.flatten.map placeOf := by
    rw [List.flatMap_def, listed, List.map_flatten]
  have sorted := read.sorted
  have behind := read.behind
  rw [flat] at sorted behind
  refine ⟨List.pairwise_map.mp sorted, fun pair member => behind _ (List.mem_map_of_mem member), ?_⟩
  intro i name score early scored kept stays ahead ended
  -- from the moment on at which the member has been found
  have later : SpecTrace (fun j => maps (i + j)) ((before ++ scan).drop i) := by
    have parts := trace.left
    rw [← List.take_append_drop i (before ++ scan)] at parts
    have whole := parts.right
    rwa [List.length_take, List.length_append, min_eq_left (by omega)] at whole
  refine paging.lists scanned (fun j inside => ?_) ahead ended
  have moment := later.scored kept (fun j inside => stays (i + j) (by omega) ?_) scored
    (i := before.length - i + j) ?_
  · rwa [← Nat.add_assoc, Nat.add_sub_cancel' early] at moment
  · rw [List.length_drop] at inside
    rw [List.length_append] at inside ⊢
    omega
  · rw [List.length_drop, List.length_append]
    omega

/-! ## A scan -/

/-- The first client has read a page of the key `z`. -/
def singlePage (name : Bytes) (pairs : List (Bytes × Number)) : ServerEvent :=
  .command 0 Env.counting [ascii "zquery", [122], [48], name, [48], [49, 48]]
    (WireValue.arr (pairItems pairs)).encode

/-- A page of the members after `zadd z 0 a`. -/
theorem execCmd_zquery_single {state : Server} (reachable : ServerReachable state 0)
    (present : state.contents [122] = some ⟨.zset singleScore, none⟩) (name : Bytes) :
    ∃ state', execCmd Env.counting state [ascii "zquery", [122], [48], name, [48], [49, 48]] [] =
        some (state', (WireValue.arr (pairItems
          (zqueryPairs [([97], ⟨⟨0⟩, by decide⟩)] ⟨⟨0⟩, by decide⟩ name 0 10))).encode) ∧
      ServerReachable state' 0 ∧ state'.contents [122] = some ⟨.zset singleScore, none⟩ := by
  obtain ⟨members, chosen, state', run, -, -, same⟩ := @execZquery_answers _ _ Env.counting
    reachable.consistent le_rfl [122] [48] name [48] [49, 48] []
  obtain rfl : members = [([97], ⟨⟨0⟩, by decide⟩)] := by
    refine (chosen _ _ present).unique ⟨List.pairwise_singleton _ _, fun name score => ?_⟩
    rw [singleScore, Function.update_apply, List.mem_singleton, Prod.mk.injEq]
    split <;> simp [*, eq_comm]
  have start : str2int [48] = some 0 := by decide
  have ten : str2int [49, 48] = some 10 := by decide
  have zero : str2dbl Env.counting.strtod [48] = some ⟨⟨0⟩, by decide⟩ := rfl
  simp only [specZquery, zero, start, ten, present] at run
  exact ⟨state', run, reachable.exec Env.counting le_rfl _ run, same ▸ present⟩

/-- A key stays if an event neither stores under it nor removes it. -/
theorem SpecEvent.stays (happens : SpecEvent event map map') (kept : ¬event.Rewrites key)
    (remains : ∀ due, ¬event.Removes key due) (present : map key ≠ none) : map' key ≠ none := by
  have step := happens.recordStep kept
  generalize map key = record at step present
  generalize map' key = record' at step
  cases step with
  | same => exact present
  | deadline | members => exact Option.some_ne_none _
  | removed record allowed => exact absurd allowed (remains _)

/-- The key `z` is given a deadline and loses it again before the pages are read: the member `a` is
on the first of them, and the second one is empty. -/
theorem scan_complete_single : ∃ loop traffic, TrafficRun loop (.serving []) 0 traffic ∧
    ∃ scan pages, scan <:+ traffic.history ∧ Paging 0 [122] ([], ⟨⟨0⟩, by decide⟩) scan pages ∧
      [] ∈ pages ∧ ∃ pair, (pages.flatten.filter fun pair => decide (pair.1 = [97])) = [pair] := by
  have valid : ∀ cmd ∈ [[ascii "zadd", [122], [48], [97]], [ascii "pexpire", [122], ascii "10"],
    [ascii "persist", [122]], [ascii "zquery", [122], [48], [0], [48], [49, 48]],
      [ascii "zquery", [122], [48], [97, 0], [48], [49, 48]]], ValidRequest cmd := by
    intro cmd member
    simp only [List.mem_cons, List.not_mem_nil, or_false] at member
    obtain rfl | rfl | rfl | rfl | rfl := member <;> exact ⟨by decide, by decide⟩
  obtain ⟨stored, reply, adds, -, consistent, answers⟩ := @execCmd_answers _ _ Env.counting
    (Server.start_initial.consistent 0) le_rfl _
    (not_negativeTtl (by decide) : ¬NegativeTtl [ascii "zadd", [122], [48], [97]]) []
  have result := answers.step.of_zadd rfl
  rw [Server.start_initial.contents] at result
  obtain ⟨rfl, held⟩ := Prod.mk.inj result
  have ten : str2int (ascii "10") = some ((10 : Nat) : Int) := by decide
  obtain ⟨expiring, expires, due⟩ := execCmd_pexpire_single ten consistent held
  have reachable := ((ServerReachable.initial Server.start_initial 0).exec Env.counting le_rfl _
    adds).exec Env.counting le_rfl _ expires
  obtain ⟨persistent, untimed, persists, -, -, answers⟩ := @execCmd_answers _ _ Env.counting
    reachable.consistent le_rfl _
    (not_negativeTtl (by decide) : ¬NegativeTtl [ascii "persist", [122]]) []
  have present : persistent.contents [122] = some ⟨.zset singleScore, none⟩ := by
    have result := congrArg Prod.snd (answers.step.of_persist rfl)
    simp only [due, specPersist, singleKey, Function.update_self] at result
    rw [result, Function.update_self]
  have reachable := reachable.exec Env.counting le_rfl _ persists
  obtain ⟨state, first, reachable, present⟩ := execCmd_zquery_single reachable present [0]
  obtain ⟨state', second, -⟩ := execCmd_zquery_single reachable present [97, 0]
  obtain ⟨loop, traffic, run, recorded⟩ :=
    @TrafficRun.asks _ valid (List.replicate 5 Env.counting) []
    state' (by simp [Env.counting]) (by
      simp [List.replicate, runRequests, execEach, adds, expires, persists, first, second])
  have history : traffic.history = [.timers Env.counting,
      .command 0 Env.counting [ascii "zadd", [122], [48], [97]] (WireValue.int 1).encode,
      .command 0 Env.counting [ascii "pexpire", [122], ascii "10"] (outInt [] 1),
      .command 0 Env.counting [ascii "persist", [122]] untimed.encode] ++
      [singlePage [0] [([97], ⟨⟨0⟩, by decide⟩)], singlePage [97, 0] []] ++ [] := by
    rw [recorded]
    simp only [List.replicate, runRequests, execRecorded, execEach, adds, expires, persists, first,
      second]
    rfl
  have zero : str2dbl Env.counting.strtod [48] = some ⟨⟨0⟩, by decide⟩ := rfl
  have start : str2int [48] = some 0 := by decide
  have most : str2int [49, 48] = some 10 := by decide
  have positive : (0 : Int) < 10 := by norm_num
  have paging : Paging 0 [122] ([], ⟨⟨0⟩, by decide⟩)
      [singlePage [0] [([97], ⟨⟨0⟩, by decide⟩)], singlePage [97, 0] []]
      [[([97], ⟨⟨0⟩, by decide⟩)], []] :=
    .page Env.counting zero rfl start most positive (by decide)
      (.page Env.counting zero rfl start most positive (by decide) (.done _))
  obtain ⟨⟨maps, -, trace, -⟩, lists⟩ := scan_complete run
  obtain ⟨added, scans⟩ := lists maps trace
  obtain ⟨score, scored, equal⟩ :=
    added 1 0 Env.counting [122] [48] [97] _ 1 zero (by rw [history]; rfl)
  -- nothing stores under the key or removes it afterwards
  have stays : ∀ i < 4, maps (2 + i) [122] ≠ none → maps (2 + i + 1) [122] ≠ none := by
    intro i early
    have event : ∃ cmd value, traffic.history[2 + i]? = some (.command 0 Env.counting cmd value) ∧
        (∀ args, cmd ≠ ascii "set" :: args) ∧ (∀ args, cmd ≠ ascii "zadd" :: args) ∧
        ∀ args, cmd ≠ ascii "del" :: args := by
      rw [history]
      interval_cases i <;> exact ⟨_, _, rfl, by simp [ascii], by simp [ascii], by simp [ascii]⟩
    obtain ⟨cmd, value, found, noSet, noZadd, noDel⟩ := event
    refine (trace _ _ found).stays ?_ fun due => noDel _
    rintro (⟨val, same⟩ | ⟨score, name, same⟩)
    · exact noSet _ same
    · exact noZadd _ same
  have present : ∀ i ≤ 4, maps (2 + i) [122] ≠ none := by
    intro i early
    induction i with
    | zero =>
        obtain ⟨scores, due, there, -⟩ := scored
        exact there ▸ Option.some_ne_none _
    | succ i ih => exact stays i (by omega) (ih (by omega))
  obtain ⟨pair, alone, -⟩ := (scans _ _ _ history 0 [122] _ _ paging).2.2 2 [97] score
    (by simp) scored
    (by simp [singlePage, ServerEvent.Moves, ascii]) (fun j from_here inside => by
      obtain ⟨i, rfl⟩ := Nat.exists_eq_add_of_le from_here
      exact present i (by simp at inside; omega))
    (pairKey_lt_iff.mpr (.inr ⟨equal.symm, by simp [codes]⟩)) (by simp)
  exact ⟨loop, traffic, run, _, _, ⟨_, by rw [history, List.append_nil]⟩,
    paging, by simp, pair, alone⟩

end MiniRedis
