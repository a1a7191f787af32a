import MiniRedis.Server.Reachable

/-!
# Ranks

`zrank` answers with the number of smaller members, and the distance of two ranks is the
offset which leads from one node to the other.
-/

namespace MiniRedis

open Binary64

variable {state : Server} {clock : Nat} {entries : Finset Addr} {deadline : Addr → Option Nat}
  {tree : Addr → BinaryTree Addr} {ent : Addr}

/-- `zrank` of the member at index `i` is `i`. -/
theorem execZrank_index {state' : Server}
    (invariant : state'.Invariant clock entries deadline tree) (member : ent ∈ entries)
    (typed : state'.type ent = .zset) {key : Bytes} (found : getEntry state key = some (some ent, state'))
    (env : Env) {i : Nat} {pair : Bytes × Number}
    (position : ((tree ent).toList.map state'.zmemory.pair)[i]? = some pair) (out : Bytes) :
    ∃ final, execCmd env state [ascii "zrank", key, pair.1] out =
        some (final, out ++ (WireValue.int i).encode) ∧ final.contents = state'.contents := by
  rw [List.getElem?_map] at position
  obtain ⟨node, here, rfl⟩ := Option.map_eq_some_iff.mp position
  have inTree := List.mem_of_getElem? here
  obtain ⟨answer, zset, lookup, holds, -, same, finds, -⟩ :=
    invariant.zsetLookup member typed (state'.zmemory.pair node).1
  have rank := znodeRank_spec holds here
  have target : (cmdTable.find? fun entry => ascii "zrank" == ascii entry.name) =
      some ⟨"zrank", execZrank, 3⟩ := rfl
  cases answer with
  | none => exact absurd rfl (finds node inTree)
  | some other =>
      obtain rfl : other = node := holds.named other finds.1 node inTree finds.2
      refine ⟨_, ?_, same⟩
      simp [execCmd, target, execZrank, withZset, found, typed, lookup, rank, outInt_eq]

/-- Every member of a reachable sorted set has its place in the order of score and name as
its rank, and ranks measure offsets. Below `2 ^ 32` members the counts do not wrap. -/
theorem zrank_reachable (reachable : ServerReachable state clock) (env : Env) {key : Bytes}
    {scores : Bytes → Option Number} {deadline : Option Nat}
    (present : state.contents key = some ⟨.zset scores, deadline⟩) :
    ∃ members : List (Bytes × Number),
      (members.Pairwise fun p q => pairKey p.2 p.1 < pairKey q.2 q.1) ∧
      (∀ name score, (name, score) ∈ members ↔ scores name = some score) ∧
      (∀ (i : Nat) name score, members[i]? = some (name, score) →
        {p : Bytes × Number | scores p.1 = some p.2 ∧ pairKey p.2 p.1 < pairKey score name}.ncard = i ∧
        ∀ out, ∃ state', execCmd env state [ascii "zrank", key, name] out =
          some (state', out ++ (WireValue.int i).encode) ∧ state'.contents = state.contents) ∧
      ∃ ent ∈ state.db.nodes, state.key ent = key ∧ state.type ent = .zset ∧
        ((state.zset ent).hmap.nodes.length < 2 ^ 32 → ∀ node ∈ (state.zset ent).hmap.nodes,
          (state.zmemory.tree node).cnt < 2 ^ 32 ∧ (state.zmemory.tree node).height < 2 ^ 32) ∧
        ∀ a ∈ (state.zset ent).hmap.nodes, ∀ b ∈ (state.zset ent).hmap.nodes, ∃ ra rb : Nat,
          znodeRank state.zmemory a = some ra ∧ znodeRank state.zmemory b = some rb ∧
          znodeOffset state.zmemory (some a) (rb - ra) = some (some b) := by
  obtain ⟨found, state', run, looked⟩ := getEntry_looked reachable.consistent key
  cases looked with
  | absent invariant same missing answer => simp [present] at answer
  | str invariant same member named typed answer => simp [present] at answer
  | @zset _ entries deadlines tree ent invariant same member named typed answer =>
      rw [present, Option.some.injEq, Record.mk.injEq, Value.zset.injEq] at answer
      obtain ⟨rfl, rfl⟩ := answer
      have holds := invariant.owning.holds _ (Server.Invariant.owned member)
      obtain ⟨sorted, complete⟩ := holds.members
      refine ⟨_, sorted, complete, fun i name score position => ⟨?_, fun out => ?_⟩, ?_⟩
      · rw [← KeyedList.ncard_below sorted position]
        congr 1
        ext p
        simp only [← complete, Set.mem_ofPred_eq]
      · obtain ⟨final, answered, kept⟩ := execZrank_index invariant member typed run env position out
        exact ⟨final, answered, kept.trans same⟩
      · obtain ⟨ent, inNodes, named, typed, tree, holds⟩ := reachable.zset_present present
        refine ⟨ent, inNodes, named, typed, fun few node => holds.cached_lt few,
          fun a left b right => ?_⟩
        rw [holds.index.mem_iff, List.mem_toFinset] at left right
        obtain ⟨ra, atA⟩ := List.mem_iff_getElem?.mp left
        obtain ⟨rb, atB⟩ := List.mem_iff_getElem?.mp right
        refine ⟨ra, rb, znodeRank_spec holds atA, znodeRank_spec holds atB, ?_⟩
        have sum : (ra : Int) + (rb - ra) = rb := by omega
        rw [znodeOffset_spec holds atA, sum, elementAt, if_pos (Int.natCast_nonneg rb), Int.toNat_natCast,
          atB]

/-- After the score of `a` has been raised above that of `b`, its rank is one. -/
theorem zrank_reachable_moved : ∃ state state' : Server,
    state.contents [122] = some ⟨.zset movedScores, some 10⟩ ∧
    execCmd Env.reading state [ascii "zrank", [122], [97]] [] =
      some (state', (WireValue.int 1).encode) := by
  obtain ⟨state, reachable, -, present⟩ := reachable_stocked
  obtain ⟨members, sorted, complete, ranks, -⟩ := zrank_reachable reachable Env.reading present
  obtain rfl := movedScores_members sorted complete
  obtain ⟨-, answers⟩ := ranks 1 [97] scoreOne rfl
  obtain ⟨state', run, -⟩ := answers []
  exact ⟨state, state', present, run⟩

end MiniRedis
