import MiniRedis.Server.Commands

/-!
# The sorted-set commands simulate a step of the map
-/

namespace MiniRedis

open Binary64

variable {state : Server} {clock : Nat} {env : Env} {entries : Finset Addr}
  {deadline : Addr → Option Nat} {tree : Addr → BinaryTree Addr} {ent : Addr}

/-- A lookup by name leaves the map as it is and finds the score which the map has. -/
theorem Server.Invariant.zsetLookup (invariant : state.Invariant clock entries deadline tree)
    (member : ent ∈ entries) (typed : state.type ent = .zset) (name : Bytes) :
    ∃ found zset, zsetLookup state.zmemory (state.zset ent) name = some (found, zset) ∧
      zset.Holds state.zmemory (tree ent) ∧
      Server.Consistent { state with zset := Function.update state.zset ent zset } clock ∧
      Server.contents { state with zset := Function.update state.zset ent zset } = state.contents ∧
      FindsName state.zmemory (tree ent).toList name found ∧
      scoreOf state.zmemory (tree ent).toList name = found.map state.zmemory.score := by
  have holds := invariant.owning.holds ent (Server.Invariant.owned member)
  obtain ⟨found, zset, run, holds', finds⟩ := zsetLookup_spec holds name
  obtain ⟨invariant', moved⟩ := @Server.Invariant.setZset _ _ _ _ _ invariant _ member typed
    state.zmemory zset _ (fun _ => False) holds' (.refl _ _) (fun _ => False.elim) fun _ => .inl
  refine ⟨found, zset, run, holds', invariant'.consistent, ?_, finds, scoreOf_lookup holds finds⟩
  rw [moved, Function.update_eq_self_iff, invariant.contents_of_mem member]
  simp [Server.view, typed]

/-- `zset_insert` into the sorted set of an entry sets one score. -/
theorem Server.Invariant.zsetInsert (invariant : state.Invariant clock entries deadline tree)
    (member : ent ∈ entries) (typed : state.type ent = .zset) (env : Env) (name : Bytes)
    (score : Number) {scores : Bytes → Option Number}
    (before : scoreOf state.zmemory (tree ent).toList = scores) :
    ∃ zmemory zset, zsetInsert state.zmemory (state.zset ent) (env.malloc state.zmemory.live) name
        score = some ((scores name).isNone, zmemory, zset) ∧
      Server.Consistent { state with
        zmemory := zmemory
        zset := Function.update state.zset ent zset } clock ∧
      Server.contents { state with
        zmemory := zmemory
        zset := Function.update state.zset ent zset } =
          Function.update state.contents (state.key ent) (some
            ⟨.zset (Function.update scores name (some (insertedScore (scores name) score))),
              deadline ent⟩) := by
  subst before
  have holds := invariant.owning.holds ent (Server.Invariant.owned member)
  have dead := env.mallocFresh state.zmemory.live
  obtain ⟨zmemory, zset, tree', run, holds', scores, inside, agrees⟩ :=
    zsetInsert_spec holds dead name score
  have within : ∀ node, node = env.malloc state.zmemory.live ∨ node ∈ (tree ent).toList →
      node ∈ (tree ent).toList ∨ node ∉ state.zmemory.live := by
    rintro node (rfl | inTree)
    · exact .inr dead
    · exact .inl inTree
  obtain ⟨invariant', moved⟩ := invariant.setZset member typed holds' agrees within
    fun node inTree => within node (inside node inTree)
  rw [scores] at moved
  exact ⟨zmemory, zset, run, invariant'.consistent, moved⟩

/-- `zadd` makes the set of an absent key, refuses a string, and otherwise sets one score. The
score is checked before the key. -/
theorem execZadd_simulates (consistent : state.Consistent clock) (later : clock ≤ env.now)
    (key scoreArg name out : Bytes) :
    Simulates env state [ascii "zadd", key, scoreArg, name] out
      (execZadd env state [ascii "zadd", key, scoreArg, name] out) := by
  have step := @SpecStep.zadd env state.contents key scoreArg name
  cases parsed : str2dbl env.strtod scoreArg with
  | none =>
      have dictated : specZadd env state.contents key scoreArg name =
          (errValue .badArg "expect double", state.contents) := by
        rw [specZadd, parsed]
      rw [dictated] at step
      exact .unchanged _ (by simp [execZadd, parsed, outErr_eq]) (errValue_fits _ _)
        (consistent.later later) rfl step
  | some score =>
      obtain ⟨found, state', run, looked⟩ := getEntry_looked (consistent.later later) key
      cases looked with
      | @absent _ entries deadline tree invariant same missing answer =>
          obtain ⟨ent, state'', added, named, typed, free, invariant', moved⟩ :=
            invariant.addEntry env missing (by simp : ValueType.zset ≠ .init) []
          have empty : scoreOf state''.zmemory (Function.update tree ent .nil ent).toList =
              fun _ => none := by
            rw [Function.update_self]
            rfl
          obtain ⟨zmemory, zset, inserted, consistent', moved'⟩ :=
            invariant'.zsetInsert (Finset.mem_insert_self _ _) typed env name score empty
          rw [moved, named, Function.update_idem, same, free] at moved'
          have dictated : specZadd env state.contents key scoreArg name =
              (.int 1, Function.update state.contents key
                (some { value := .zset (Function.update (fun _ => none) name (some score)) })) := by
            rw [specZadd, parsed, answer]
          rw [dictated] at step
          exact .changed _ _ (by simp [execZadd, parsed, run, added, typed, inserted, outInt_eq])
            (by simp [WireValue.Fits]) consistent' moved' step
      | str invariant same member named typed answer =>
          have dictated : specZadd env state.contents key scoreArg name =
              (errValue .badType "expect zset", state.contents) := by
            rw [specZadd, parsed, answer]
          rw [dictated] at step
          exact .unchanged _ (by simp [execZadd, parsed, run, typed, outErr_eq]) (errValue_fits _ _)
            invariant.consistent same step
      | @zset _ entries deadline tree ent invariant same member named typed answer =>
          generalize before : scoreOf state'.zmemory (tree ent).toList = scores at answer
          obtain ⟨zmemory, zset, inserted, consistent', moved⟩ :=
            invariant.zsetInsert member typed env name score before
          rw [named, same] at moved
          have dictated : specZadd env state.contents key scoreArg name =
              (.int (if (scores name).isNone then 1 else 0), Function.update state.contents key
                (some ⟨.zset (Function.update scores name (some (insertedScore (scores name) score))),
                  deadline ent⟩)) := by
            rw [specZadd, parsed, answer]
          rw [dictated] at step
          exact .changed _ _ (by simp [execZadd, parsed, run, typed, inserted, outInt_eq])
            (WireValue.fits_bit _) consistent' moved step

/-- `zrem` of an absent member changes nothing, of a present one its score alone. -/
theorem execZrem_simulates (consistent : state.Consistent clock) (later : clock ≤ env.now)
    (key name out : Bytes) :
    Simulates env state [ascii "zrem", key, name] out
      (execZrem env state [ascii "zrem", key, name] out) := by
  obtain ⟨found, state', run, looked⟩ := getEntry_looked (consistent.later later) key
  have step := @SpecStep.zrem env state.contents key name
  cases looked with
  | absent invariant same missing answer =>
      have dictated : specZrem state.contents key name = (.int 0, state.contents) := by
        rw [specZrem, answer]
      rw [dictated] at step
      exact .unchanged _ (by simp [execZrem, withZset, run, outInt_eq]) (by simp [WireValue.Fits])
        invariant.consistent same step
  | str invariant same member named typed answer =>
      have dictated : specZrem state.contents key name =
          (errValue .badType "expect zset", state.contents) := by
        rw [specZrem, answer]
      rw [dictated] at step
      exact .unchanged _ (by simp [execZrem, withZset, run, typed, outErr_eq]) (errValue_fits _ _)
        invariant.consistent same step
  | @zset _ entries deadline tree ent invariant same member named typed answer =>
      obtain ⟨node, zset, lookup, holds, consistent', same', finds, score⟩ :=
        invariant.zsetLookup member typed name
      cases node with
      | none =>
          rw [Option.map_none] at score
          have unmoved : Function.update state.contents key (some ⟨.zset (Function.update
              (scoreOf state'.zmemory (tree ent).toList) name none), deadline ent⟩) =
                state.contents := by
            rw [← score, Function.update_eq_self, ← answer, Function.update_eq_self]
          have dictated : specZrem state.contents key name = (.int 0, state.contents) := by
            simp [specZrem, answer, score, unmoved]
          rw [dictated] at step
          exact .unchanged _ (by simp [execZrem, withZset, run, typed, lookup, outInt_eq])
            (by simp [WireValue.Fits]) consistent' (same'.trans same) step
      | some node =>
          obtain ⟨inTree, rfl⟩ := finds
          obtain ⟨zmemory, zset', tree', deleted, holds', labels, names, scores, -, agrees⟩ :=
            zsetDelete_spec holds inTree
          obtain ⟨invariant', moved⟩ := invariant.setZset member typed holds' agrees
            (fun x touched => .inl touched)
            fun x inRest => .inl (List.mem_of_mem_erase (labels ▸ inRest))
          rw [scoreOf_delete holds inTree holds' labels names scores, named, same] at moved
          have dictated : specZrem state.contents key (state'.zmemory.name node) =
              (.int 1, Function.update state.contents key (some ⟨.zset (Function.update
                (scoreOf state'.zmemory (tree ent).toList) (state'.zmemory.name node) none),
                  deadline ent⟩)) := by
            simp [specZrem, answer, score]
          rw [dictated] at step
          exact .changed _ _ (by simp [execZrem, withZset, run, typed, lookup, deleted, outInt_eq])
            (by simp [WireValue.Fits]) invariant'.consistent moved step

/-- `zscore` answers the score of the map, and nil both for a key and for a member it lacks. -/
theorem execZscore_simulates (consistent : state.Consistent clock) (later : clock ≤ env.now)
    (key name out : Bytes) :
    Simulates env state [ascii "zscore", key, name] out
      (execZscore env state [ascii "zscore", key, name] out) := by
  obtain ⟨found, state', run, looked⟩ := getEntry_looked (consistent.later later) key
  have step := @SpecStep.zscore env state.contents key name
  cases looked with
  | absent invariant same missing answer =>
      have dictated : specZscore state.contents key name = .nil := by rw [specZscore, answer]
      rw [dictated] at step
      exact .unchanged _ (by simp [execZscore, withZset, run, outNil_eq]) (by trivial)
        invariant.consistent same step
  | str invariant same member named typed answer =>
      have dictated : specZscore state.contents key name = errValue .badType "expect zset" := by
        rw [specZscore, answer]
      rw [dictated] at step
      exact .unchanged _ (by simp [execZscore, withZset, run, typed, outErr_eq])
        (errValue_fits _ _) invariant.consistent same step
  | zset invariant same member named typed answer =>
      obtain ⟨node, zset, lookup, -, consistent', same', -, score⟩ :=
        invariant.zsetLookup member typed name
      cases node with
      | none =>
          have dictated : specZscore state.contents key name = .nil := by
            simp [specZscore, answer, score]
          rw [dictated] at step
          exact .unchanged _ (by simp [execZscore, withZset, run, typed, lookup, outNil_eq])
            (by trivial) consistent' (same'.trans same) step
      | some node =>
          have dictated : specZscore state.contents key name =
              .dbl (state'.zmemory.score node).double := by
            simp [specZscore, answer, score]
          rw [dictated] at step
          exact .unchanged _ (by simp [execZscore, withZset, run, typed, lookup, outDbl_eq])
            (by trivial) consistent' (same'.trans same) step

/-- `zrank` changes nothing. Its answer is an integer, which `Server/Rank.lean` determines. -/
theorem execZrank_simulates (consistent : state.Consistent clock) (later : clock ≤ env.now)
    (key name out : Bytes) :
    Simulates env state [ascii "zrank", key, name] out
      (execZrank env state [ascii "zrank", key, name] out) := by
  obtain ⟨found, state', run, looked⟩ := getEntry_looked (consistent.later later) key
  cases looked with
  | absent invariant same missing answer =>
      exact .unchanged .nil (by simp [execZrank, withZset, run, outNil_eq]) trivial
        invariant.consistent same (.zrank key name _)
  | str invariant same member named typed answer =>
      exact .unchanged _ (by simp [execZrank, withZset, run, typed, outErr_eq])
        (errValue_fits .badType "expect zset") invariant.consistent same (.zrank key name _)
  | @zset _ entries deadline tree ent invariant same member named typed answer =>
      obtain ⟨node, zset, lookup, holds, consistent', same', finds, -⟩ :=
        invariant.zsetLookup member typed name
      cases node with
      | none =>
          exact .unchanged .nil (by simp [execZrank, withZset, run, typed, lookup, outNil_eq])
            trivial consistent' (same'.trans same) (.zrank key name _)
      | some node =>
          obtain ⟨index, position⟩ := List.mem_iff_getElem?.mp finds.1
          have rank := znodeRank_spec holds position
          obtain ⟨encoded, fits⟩ := WireValue.encode_bmod index
          refine .unchanged _ ?_ fits consistent' (same'.trans same) (.zrank key name _)
          rw [encoded, ← outInt_eq]
          simp [execZrank, withZset, run, typed, lookup, rank]

/-- Names and scores are values of any size. -/
theorem pairItems_fit (pairs : List (Bytes × Number)) :
    (WireValue.arr (pairItems pairs)).Fits := by
  rw [WireValue.Fits, WireValue.fitsItems_iff]
  intro item member
  obtain ⟨pair, -, inPair⟩ := List.mem_flatMap.mp member
  rcases List.mem_pair.mp inPair with rfl | rfl <;> trivial

/-- `zquery` changes nothing. What it lists is in `Server/Query.lean`. -/
theorem execZquery_simulates (consistent : state.Consistent clock) (later : clock ≤ env.now)
    (key scoreArg name offsetArg limitArg out : Bytes) :
    Simulates env state [ascii "zquery", key, scoreArg, name, offsetArg, limitArg] out
      (execZquery env state [ascii "zquery", key, scoreArg, name, offsetArg, limitArg] out) := by
  obtain ⟨found, state', run, looked⟩ := getEntry_looked (consistent.later later) key
  have step : ∀ reply, SpecStep env state.contents
      [ascii "zquery", key, scoreArg, name, offsetArg, limitArg] reply state.contents :=
    .zquery key scoreArg name offsetArg limitArg
  cases parsedScore : str2dbl env.strtod scoreArg with
  | none =>
      exact .unchanged _ (by simp [execZquery, parsedScore, outErr_eq])
        (errValue_fits .badArg "expect double") (consistent.later later) rfl (step _)
  | some score =>
      cases parsedOffset : str2int offsetArg with
      | none =>
          exact .unchanged _ (by simp [execZquery, parsedScore, parsedOffset, outErr_eq])
            (errValue_fits .badArg "expect int") (consistent.later later) rfl (step _)
      | some offset =>
          cases parsedLimit : str2int limitArg with
          | none =>
              exact .unchanged _
                (by simp [execZquery, parsedScore, parsedLimit, outErr_eq])
                (errValue_fits .badArg "expect int") (consistent.later later) rfl (step _)
          | some limit =>
              cases looked with
              | absent invariant same missing answer =>
                  have empty := outArr_eq out []
                  simp only [WireValue.encodeItems, List.append_nil, List.length_nil] at empty
                  exact .unchanged (.arr []) (by simp [execZquery, withZset, parsedScore,
                    parsedOffset, parsedLimit, run, empty]) trivial invariant.consistent same (step _)
              | str invariant same member named typed answer =>
                  exact .unchanged _ (by simp [execZquery, withZset, parsedScore, parsedOffset,
                    parsedLimit, run, typed, outErr_eq]) (errValue_fits .badType "expect zset")
                    invariant.consistent same (step _)
              | zset invariant same member named typed answer =>
                  have range := zqueryRange_spec
                    (invariant.owning.holds _ (Server.Invariant.owned member)) score name offset
                    limit out
                  exact .unchanged _ (by simp [execZquery, withZset, parsedScore, parsedOffset,
                    parsedLimit, run, typed, range]; rfl) (pairItems_fit _) invariant.consistent same
                    (step _)

end MiniRedis
