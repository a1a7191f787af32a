import MiniRedis.Server.Rank

/-!
# Complete answers of the map

The abstract server again, with the answers of `zrank` and `zquery` which `SpecStep` leaves
open: they are read off the members of a sorted set in their order.
-/

namespace MiniRedis

open Binary64

/-! ## The members in order -/

/-- The members of a sorted set, by score and then by name. -/
structure Ranked (scores : Bytes → Option Number) (members : List (Bytes × Number)) : Prop where
  sorted : members.Pairwise fun p q => pairKey p.2 p.1 < pairKey q.2 q.1
  complete : ∀ name score, (name, score) ∈ members ↔ scores name = some score

/-- The scores determine the list. -/
theorem Ranked.unique {scores : Bytes → Option Number} {members members' : List (Bytes × Number)}
    (ranked : Ranked scores members) (ranked' : Ranked scores members') : members = members' := by
  have irreflexive : Std.Irrefl fun p q : Bytes × Number => pairKey p.2 p.1 < pairKey q.2 q.1 :=
    ⟨fun p => lt_irrefl (pairKey p.2 p.1)⟩
  have antisymmetric : Std.Antisymm fun p q : Bytes × Number => pairKey p.2 p.1 < pairKey q.2 q.1 :=
    ⟨fun p q first second => absurd (first.trans second) (lt_irrefl (pairKey p.2 p.1))⟩
  apply ranked.sorted.eq_of_mem_iff ranked'.sorted
  rintro ⟨name, score⟩
  rw [ranked.complete, ranked'.complete]

/-- The members behind a key, if it holds a sorted set. -/
def Contents.Members (map : Contents) (key : Bytes) (members : List (Bytes × Number)) : Prop :=
  ∀ scores deadline, map key = some ⟨.zset scores, deadline⟩ → Ranked scores members

/-! ## What a command answers -/

/-- The place of the name among the members, as an `int64_t`. -/
def specZrank (map : Contents) (members : List (Bytes × Number)) (key name : Bytes) : WireValue :=
  match map key with
  | none => .nil
  | some ⟨.zset _, _⟩ =>
    (members.findIdx? fun pair => decide (pair.1 = name)).elim .nil
      fun index => .int ((index : Int).bmod (2 ^ 64))
  | some ⟨.str _, _⟩ => errValue .badType "expect zset"

def specZquery (env : Env) (map : Contents) (members : List (Bytes × Number))
    (key scoreArg name offsetArg limitArg : Bytes) : WireValue :=
  match str2dbl env.strtod scoreArg with
  | none => errValue .badArg "expect double"
  | some score =>
    match str2int offsetArg, str2int limitArg with
    | some offset, some limit =>
      match map key with
      | none => .arr []
      | some ⟨.zset _, _⟩ => .arr (pairItems (zqueryPairs members score name offset limit))
      | some ⟨.str _, _⟩ => errValue .badType "expect zset"
    | _, _ => errValue .badArg "expect int"

/-- One step of the abstract server with every reply dictated, up to the order in which
`keys` lists the present keys. -/
structure SpecAnswer (env : Env) (map : Contents) (cmd : List Bytes) (reply : WireValue)
    (map' : Contents) : Prop where
  step : SpecStep env map cmd reply map'
  zrank : ∀ key name, cmd = [ascii "zrank", key, name] →
    ∃ members, map.Members key members ∧ reply = specZrank map members key name
  zquery : ∀ key score name offset limit, cmd = [ascii "zquery", key, score, name, offset, limit] →
    ∃ members, map.Members key members ∧
      reply = specZquery env map members key score name offset limit

/-! ## The handlers -/

variable {state : Server} {clock : Nat} {env : Env}

/-- The value which a command appends, and where it leaves the map. -/
def Server.Gives (env : Env) (state : Server) (cmd : List Bytes) (out : Bytes) (reply : WireValue) :
    Prop :=
  ∃ state', execCmd env state cmd out = some (state', out ++ reply.encode) ∧ reply.Fits ∧
    state'.Consistent env.now ∧ state'.contents = state.contents

theorem Contents.members_of_ne {map : Contents} {key : Bytes}
    (other : ∀ scores deadline, map key ≠ some ⟨.zset scores, deadline⟩) : map.Members key [] :=
  fun scores deadline present => absurd present (other scores deadline)

/-- The sorted set which a lookup has found, as the list of its members. -/
theorem Server.Invariant.ranked {entries : Finset Addr} {deadline : Addr → Option Nat}
    {tree : Addr → BinaryTree Addr} {ent : Addr}
    (invariant : state.Invariant clock entries deadline tree) (member : ent ∈ entries) :
    Ranked (scoreOf state.zmemory (tree ent).toList)
      ((tree ent).toList.map state.zmemory.pair) := by
  obtain ⟨sorted, complete⟩ := (invariant.owning.holds ent (Server.Invariant.owned member)).members
  exact ⟨sorted, complete⟩

theorem execZrank_answers (consistent : state.Consistent clock) (later : clock ≤ env.now)
    (key name out : Bytes) :
    ∃ members, state.contents.Members key members ∧
      state.Gives env [ascii "zrank", key, name] out
        (specZrank state.contents members key name) := by
  have target : (cmdTable.find? fun entry => ascii "zrank" == ascii entry.name) =
      some ⟨"zrank", execZrank, 3⟩ := rfl
  obtain ⟨found, state', run, looked⟩ := getEntry_looked (consistent.later later) key
  cases looked with
  | absent invariant same missing answer =>
      refine ⟨[], Contents.members_of_ne (by simp [answer]), state', ?_, ?_,
        invariant.consistent, same⟩
      · simp [execCmd, target, execZrank, withZset, run, outNil_eq, specZrank, answer]
      · simp [specZrank, answer, WireValue.Fits]
  | str invariant same member named typed answer =>
      refine ⟨[], Contents.members_of_ne (by simp [answer]), state', ?_, ?_,
        invariant.consistent, same⟩
      · simp [execCmd, target, execZrank, withZset, run, typed, outErr_eq, specZrank, answer]
      · simp [specZrank, answer, errValue_fits]
  | @zset _ entries deadline tree ent invariant same member named typed answer =>
      have ranked := invariant.ranked member
      refine ⟨(tree ent).toList.map state'.zmemory.pair, fun scores due present => ?_, ?_⟩
      · rw [answer, Option.some.injEq, Record.mk.injEq, Value.zset.injEq] at present
        rw [← present.1]
        exact ranked
      obtain ⟨node, zset, lookup, holds, consistent', same', finds, -⟩ :=
        invariant.zsetLookup member typed name
      have position : (((tree ent).toList.map state'.zmemory.pair).findIdx?
          fun pair => decide (pair.1 = name)) =
            (tree ent).toList.findIdx? fun x => decide (state'.zmemory.name x = name) :=
        List.findIdx?_map
      refine ⟨_, ?_, ?_, consistent', same'.trans same⟩
      · cases node with
        | none =>
            have nowhere : ((tree ent).toList.findIdx?
                fun x => decide (state'.zmemory.name x = name)) = none := by
              rw [List.findIdx?_eq_none_iff]
              intro x inTree
              simpa using finds x inTree
            simp [execCmd, target, execZrank, withZset, run, typed, lookup, outNil_eq, specZrank,
              answer, position, nowhere]
        | some node =>
            obtain ⟨inTree, rfl⟩ := finds
            obtain ⟨index, here⟩ := List.mem_iff_getElem?.mp inTree
            have rank := znodeRank_spec holds here
            have first : ((tree ent).toList.findIdx?
                fun x => decide (state'.zmemory.name x = state'.zmemory.name node)) =
                  some index := by
              obtain ⟨bound, at'⟩ := List.getElem?_eq_some_iff.mp here
              rw [List.findIdx?_eq_some_iff_getElem]
              refine ⟨bound, by simp [at'], fun j before => ?_⟩
              rw [decide_eq_true_eq]
              intro twin
              have twins := holds.named _ (List.getElem_mem (before.trans bound)) node inTree twin
              have places := (List.getElem_inj holds.nodup).mp (twins.trans at'.symm)
              omega
            have dictated : specZrank state.contents ((tree ent).toList.map state'.zmemory.pair) key
                (state'.zmemory.name node) = .int ((index : Int).bmod (2 ^ 64)) := by
              rw [specZrank, answer]
              simp only [position, first, Option.elim_some]
            rw [dictated, (WireValue.encode_bmod index).1]
            simp [execCmd, target, execZrank, withZset, run, typed, lookup, rank, outInt_eq]
      · rw [specZrank, answer]
        cases (((tree ent).toList.map state'.zmemory.pair).findIdx?
            fun pair => decide (pair.1 = name)) with
        | none => trivial
        | some index => exact (WireValue.encode_bmod index).2

theorem execZquery_answers (consistent : state.Consistent clock) (later : clock ≤ env.now)
    (key scoreArg name offsetArg limitArg out : Bytes) :
    ∃ members, state.contents.Members key members ∧
      state.Gives env [ascii "zquery", key, scoreArg, name, offsetArg, limitArg] out
        (specZquery env state.contents members key scoreArg name offsetArg limitArg) := by
  have target : (cmdTable.find? fun entry => ascii "zquery" == ascii entry.name) =
      some ⟨"zquery", execZquery, 6⟩ := rfl
  obtain ⟨found, state', run, looked⟩ := getEntry_looked (consistent.later later) key
  -- the members, before the arguments are looked at
  obtain ⟨members, chosen, ordered⟩ : ∃ members, state.contents.Members key members ∧
      ∀ score offset limit, str2dbl env.strtod scoreArg = some score →
        str2int offsetArg = some offset → str2int limitArg = some limit →
          state.Gives env [ascii "zquery", key, scoreArg, name, offsetArg, limitArg] out
            (specZquery env state.contents members key scoreArg name offsetArg limitArg) := by
    cases looked with
    | absent invariant same missing answer =>
        refine ⟨[], Contents.members_of_ne (by simp [answer]),
          fun score offset limit parsed parsedOffset
          parsedLimit => ⟨state', ?_, ?_, invariant.consistent, same⟩⟩
        · have empty := outArr_eq out []
          simp only [WireValue.encodeItems, List.append_nil, List.length_nil] at empty
          simp [execCmd, target, execZquery, withZset, parsed, parsedOffset, parsedLimit,
            run, specZquery,
            answer, empty]
        · simp [specZquery, parsed, parsedOffset, parsedLimit, answer, WireValue.Fits,
            WireValue.FitsItems]
    | str invariant same member named typed answer =>
        refine ⟨[], Contents.members_of_ne (by simp [answer]),
          fun score offset limit parsed parsedOffset
          parsedLimit => ⟨state', ?_, ?_, invariant.consistent, same⟩⟩
        · simp [execCmd, target, execZquery, withZset, parsed, parsedOffset,
            parsedLimit, run, typed,
            outErr_eq, specZquery, answer]
        · simp [specZquery, parsed, parsedOffset, parsedLimit, answer, errValue_fits]
    | @zset _ entries deadline tree ent invariant same member named typed answer =>
        have ranked := invariant.ranked member
        refine ⟨(tree ent).toList.map state'.zmemory.pair, fun scores due present => ?_,
          fun score offset limit parsed parsedOffset parsedLimit =>
            ⟨state', ?_, ?_, invariant.consistent, same⟩⟩
        · rw [answer, Option.some.injEq, Record.mk.injEq, Value.zset.injEq] at present
          rw [← present.1]
          exact ranked
        · have holds := invariant.owning.holds ent (Server.Invariant.owned member)
          have range := zqueryRange_spec holds score name offset limit out
          simp [execCmd, target, execZquery, withZset, parsed, parsedOffset, parsedLimit,
            run, typed, range,
            specZquery, answer]
        · have fit := pairItems_fit (zqueryPairs
              ((tree ent).toList.map state'.zmemory.pair) score name
            offset limit)
          simpa [specZquery, parsed, parsedOffset, parsedLimit, answer] using fit
  refine ⟨members, chosen, ?_⟩
  have unmoved := consistent.later later
  cases parsed : str2dbl env.strtod scoreArg with
  | none =>
      refine ⟨state, ?_, ?_, unmoved, rfl⟩
      · simp [execCmd, target, execZquery, parsed, outErr_eq, specZquery]
      · simp [specZquery, parsed, errValue_fits]
  | some score =>
      cases parsedOffset : str2int offsetArg with
      | none =>
          refine ⟨state, ?_, ?_, unmoved, rfl⟩
          · simp [execCmd, target, execZquery, parsed, parsedOffset, outErr_eq, specZquery]
          · simp [specZquery, parsed, parsedOffset, errValue_fits]
      | some offset =>
          cases parsedLimit : str2int limitArg with
          | none =>
              refine ⟨state, ?_, ?_, unmoved, rfl⟩
              · simp [execCmd, target, execZquery, parsed, parsedLimit, outErr_eq, specZquery]
              · simp [specZquery, parsed, parsedLimit, errValue_fits]
          | some limit => exact ordered score offset limit parsed parsedOffset parsedLimit

/-- Every command but a negative `pexpire` answers as the map dictates. -/
theorem execCmd_answers (consistent : state.Consistent clock) (later : clock ≤ env.now)
    {cmd : List Bytes} (allowed : ¬NegativeTtl cmd) (out : Bytes) :
    ∃ state' reply, execCmd env state cmd out = some (state', out ++ reply.encode) ∧ reply.Fits ∧
      state'.Consistent env.now ∧ SpecAnswer env state.contents cmd reply state'.contents := by
  by_cases rank : ∃ key name, cmd = [ascii "zrank", key, name]
  · obtain ⟨key, name, rfl⟩ := rank
    obtain ⟨members, chosen, state', run, fits, consistent', same⟩ :=
      execZrank_answers consistent later key name out
    refine ⟨state', _, run, fits, consistent', ?_, fun key' name' same' => ?_, ?_⟩
    · rw [same]
      exact .zrank key name _
    · cases same'
      exact ⟨members, chosen, rfl⟩
    · intro _ _ _ _ _ differs
      simp [ascii] at differs
  by_cases query : ∃ key score name offset limit,
      cmd = [ascii "zquery", key, score, name, offset, limit]
  · obtain ⟨key, score, name, offset, limit, rfl⟩ := query
    obtain ⟨members, chosen, state', run, fits, consistent', same⟩ :=
      execZquery_answers consistent later key score name offset limit out
    refine ⟨state', _, run, fits, consistent', ?_, ?_, fun _ _ _ _ _ same' => ?_⟩
    · rw [same]
      exact .zquery key score name offset limit _
    · intro _ _ differs
      simp [ascii] at differs
    · cases same'
      exact ⟨members, chosen, rfl⟩
  obtain ⟨state', reply, run, fits, consistent', step⟩ :=
    execCmd_simulates consistent later allowed out
  refine ⟨state', reply, run, fits, consistent', step, fun key name same => ?_,
    fun key score name offset limit same => ?_⟩
  · exact absurd ⟨key, name, same⟩ rank
  · exact absurd ⟨key, score, name, offset, limit, same⟩ query

end MiniRedis
