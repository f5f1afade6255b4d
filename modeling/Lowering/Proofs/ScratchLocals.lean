import Lowering.Proofs.BlockStacks
import Lowering.Proofs.Discipline
import Lowering.Proofs.LegacyDispatch

/-! The locals in which handlers save. From the moment that a handler has saved the register until it ends,
control stays inside its block. Its prologue lies outside of it, since no block stands inside a block
of its own region, so that nothing is saved in its local a second time. -/

namespace Lowering.Proofs
open Machine Host Shape Guest Emission

variable {setup : Setup} {plan : Plan} {bound : Array Bound} {analysis : Analysis.State}
  {maxDepth : Int64} {ip : Nat} {blocks : List Block}

/-- An index of the code lies inside some blocks: in an instruction, at a jump around prologues, at the
label of a handler, in a prologue, where the block of the handler is there once the register is saved,
or in a cleanup, where it is there until what was saved is loaded. -/
inductive Inside (plan : Plan) (bound : Array Bound) (analysis : Analysis.State) (maxDepth : Int64)
    (ip : Nat) : List Block → Prop
  | own {i m : Nat} {o : Bound} {p : Point} (reached : Reached bound analysis i o p)
      (inside : m < (ownAt plan bound analysis i o p).length)
      (place : ip = ownStart plan bound analysis i o + m) : Inside plan bound analysis maxDepth ip p.blocks
  | around {j n : Nat} {o : Bound} {q : Point} (reached : Reached bound analysis j o q)
      (jumps : (leadAt plan bound analysis j o)[n]? = some (.goto o.inst.offset))
      (place : ip = leadStart plan bound analysis j + n) : Inside plan bound analysis maxDepth ip q.blocks
  | entering {j : Nat} {o : Bound} {q : Point} {before : List Operation} {rest : List Region} {r : Region}
      {label : Label} {below : List Block} (reached : Reached bound analysis j o q)
      (known : r ∈ analysis.regions)
      (split : leadAt plan bound analysis j o = before ++ .label label ::
        (r.prologue ++ lead (contextOf plan analysis) o.inst.offset true rest))
      (place : ip = leadStart plan bound analysis j + before.length)
      (blocks : q.blocks = ⟨r.id, true⟩ :: below) : Inside plan bound analysis maxDepth ip below
  | opening {j n : Nat} {o : Bound} {q : Point} {before : List Operation} {rest : List Region} {r : Region}
      {below : List Block} (reached : Reached bound analysis j o q) (known : r ∈ analysis.regions)
      (split : leadAt plan bound analysis j o =
        before ++ (r.prologue ++ lead (contextOf plan analysis) o.inst.offset true rest))
      (inside : n < r.prologue.length) (place : ip = leadStart plan bound analysis j + before.length + n)
      (blocks : q.blocks = ⟨r.id, true⟩ :: below) :
      Inside plan bound analysis maxDepth ip (if n < 2 then below else ⟨r.id, true⟩ :: below)
  | restoring {n start : Nat} {entry : Cleanup} (member : entry ∈ cleanupsOf plan bound analysis)
      (seated : Seated plan bound analysis (entry.block :: entry.below))
      (first : (routineOf plan bound analysis maxDepth).labelIndex? entry.label = some start)
      (inside : n < 4) (place : ip = start + n) :
      Inside plan bound analysis maxDepth ip (if n < 2 then entry.block :: entry.below else entry.below)

/-- The handler of a region ends: it is left where its block is taken down, and it is unwound where its
cleanup loads what it has saved. -/
inductive Finishes (plan : Plan) (bound : Array Bound) (analysis : Analysis.State) (maxDepth : Int64)
    (region : Int64) (ip : Nat) : Prop
  | left {i : Nat} {o : Bound} {p : Point} {below : List Block} (reached : Reached bound analysis i o p)
      (leaves : o.opcode = .popExcept) (blocks : p.blocks = ⟨region, true⟩ :: below)
      (last : ip + 1 = leadStart plan bound analysis (i + 1))
  | unwound {entry : Cleanup} {start : Nat} (member : entry ∈ cleanupsOf plan bound analysis)
      (block : entry.block.region = region)
      (first : (routineOf plan bound analysis maxDepth).labelIndex? entry.label = some start)
      (last : ip = start + 1)

/-- Handlers that run inside some blocks, and do not end, run inside others as well. -/
def Retains (plan : Plan) (bound : Array Bound) (analysis : Analysis.State) (maxDepth : Int64) (ip : Nat)
    (blocks others : List Block) : Prop :=
  ∀ region, ⟨region, true⟩ ∈ blocks → ¬ Finishes plan bound analysis maxDepth region ip →
    ⟨region, true⟩ ∈ others

theorem Retains.refl : Retains plan bound analysis maxDepth ip blocks blocks :=
  fun _ member _ => member

theorem Turns.retains {o : Bound} {next : List Block} (turns : Turns plan o blocks next)
    (stays : o.opcode ≠ .popExcept) {region : Int64} (member : ⟨region, true⟩ ∈ blocks) :
    ⟨region, true⟩ ∈ next := by
  cases turns with
  | opens => exact List.mem_cons_of_mem _ member
  | closes =>
    rcases List.mem_cons.mp member with same | below
    · cases same
    · exact below
  | leaves leaves => exact absurd leaves stays
  | keeps => exact member

private theorem Blocked.inside_fallen {i : Nat} {o : Bound} {p : Point} (reached : Reached bound analysis i o p)
    (falls : (stage (contextOf plan analysis) (labelledHandlers plan analysis).1 bound i).2 = true)
    (here : ∃ others, Inside plan bound analysis maxDepth (ownStart plan bound analysis i o) others ∧
      ∀ region, ⟨region, true⟩ ∈ p.blocks → ⟨region, true⟩ ∈ others) :
    ∃ others, Inside plan bound analysis maxDepth (leadStart plan bound analysis i) others ∧
      ∀ region, ⟨region, true⟩ ∈ p.blocks → ⟨region, true⟩ ∈ others := by
  cases handlers : handlersAt (contextOf plan analysis) o.inst.offset with
  | nil =>
    have empty : leadAt plan bound analysis i o = [] := by
      rw [leadAt, handlers]
      rfl
    simpa [ownStart, empty] using here
  | cons r rest =>
    refine ⟨p.blocks, .around reached (n := 0) ?_ rfl, fun _ => id⟩
    rw [leadAt, handlers, lead, falls]
    rfl

/-- Control that comes to an instruction is inside the blocks of all handlers that run there, also where
instructions without operations pass it on. -/
private theorem Blocked.inside_own (blocked : Blocked plan bound analysis) {i : Nat} {o : Bound} {p : Point}
    (reached : Reached bound analysis i o p) :
    ∃ others, Inside plan bound analysis maxDepth (ownStart plan bound analysis i o) others ∧
      ∀ region, ⟨region, true⟩ ∈ p.blocks → ⟨region, true⟩ ∈ others := by
  obtain ⟨n, distance⟩ : ∃ n, bound.size - i = n := ⟨_, rfl⟩
  induction n generalizing i o p with
  | zero =>
    have inside := (Array.getElem?_eq_some_iff.mp reached.found).1
    omega
  | succ n ih =>
    by_cases empty : ownAt plan bound analysis i o p = []
    · have stays : o.opcode ≠ .popExcept := by
        intro leaves
        rw [ownAt_leaves (blocked.followable reached) blocked.legacy leaves] at empty
        simp at empty
      obtain ⟨o', q, there, turns, falls⟩ := blocked.successor reached (ownAt_empty empty)
      have same : ownStart plan bound analysis i o = leadStart plan bound analysis (i + 1) := by
        rw [(blocked.instruction reached 0).1, empty]
        rfl
      obtain ⟨others, inside, kept⟩ := Blocked.inside_fallen there falls (ih there (by omega))
      exact ⟨others, same ▸ inside, fun region member => kept region (turns.retains stays member)⟩
    · exact ⟨p.blocks, .own reached (m := 0) (List.length_pos_iff.mpr empty) rfl, fun _ => id⟩

private theorem Blocked.inside_next (blocked : Blocked plan bound analysis) {i : Nat} {o : Bound} {p : Point}
    (reached : Reached bound analysis i o p) (falls : o.opcode.terminates = false)
    (last : ip + 1 = leadStart plan bound analysis (i + 1)) :
    ∃ others, Inside plan bound analysis maxDepth (ip + 1) others ∧
      Retains plan bound analysis maxDepth ip p.blocks others := by
  obtain ⟨o', q, there, turns, into⟩ := blocked.successor reached falls
  obtain ⟨others, inside, kept⟩ : ∃ others, Inside plan bound analysis maxDepth _ others ∧ _ :=
    Blocked.inside_fallen there into (blocked.inside_own there)
  refine ⟨others, last ▸ inside, fun region member still => kept region ?_⟩
  by_cases leaves : o.opcode = .popExcept
  · obtain ⟨other, split⟩ := turns.left blocked.legacy leaves
    rw [split] at member
    rcases List.mem_cons.mp member with same | below
    · cases same
      exact absurd (.left reached leaves split last) still
    · exact below
  · exact turns.retains leaves member

private theorem Blocked.restores_at (blocked : Blocked plan bound analysis) {n start : Nat} {entry : Cleanup}
    (member : entry ∈ cleanupsOf plan bound analysis)
    (first : (routineOf plan bound analysis maxDepth).labelIndex? entry.label = some start) (inside : n < 4)
    {op : Operation} (operation : (routineOf plan bound analysis maxDepth).ops[start + n]? = some op) :
    (restore (contextOf plan analysis) entry)[n]? = some op := by
  obtain ⟨_, _, _, _, _, stands, defined⟩ := blocked.cleanup member maxDepth
  cases first.symm.trans defined
  exact stands.found inside operation

private theorem Blocked.opens_at (blocked : Blocked plan bound analysis) {j n : Nat} {o : Bound} {q : Point}
    {before : List Operation} {rest : List Region} {r : Region} (reached : Reached bound analysis j o q)
    (split : leadAt plan bound analysis j o =
      before ++ (r.prologue ++ lead (contextOf plan analysis) o.inst.offset true rest))
    (inside : n < r.prologue.length) {op : Operation}
    (operation : (routineOf plan bound analysis maxDepth).ops[
      leadStart plan bound analysis j + before.length + n]? = some op) : r.prologue[n]? = some op := by
  obtain ⟨_, _, _, stands, _⟩ := blocked.instruction reached maxDepth
  rw [split] at stands
  exact stands.append.2.append.1.found inside operation

private theorem Blocked.around_at (blocked : Blocked plan bound analysis) {j n : Nat} {o : Bound} {q : Point}
    (reached : Reached bound analysis j o q)
    (jumps : (leadAt plan bound analysis j o)[n]? = some (.goto o.inst.offset)) {op : Operation}
    (operation : (routineOf plan bound analysis maxDepth).ops[leadStart plan bound analysis j + n]? =
      some op) : op = .goto o.inst.offset := by
  obtain ⟨_, _, _, stands, _⟩ := blocked.instruction reached maxDepth
  exact Option.some.inj (operation.symm.trans (stands _ _ jumps).1)

private theorem Blocked.enters_at (blocked : Blocked plan bound analysis) {j : Nat} {o : Bound} {q : Point}
    {before after : List Operation} {label : Label} (reached : Reached bound analysis j o q)
    (split : leadAt plan bound analysis j o = before ++ .label label :: after) {op : Operation}
    (operation : (routineOf plan bound analysis maxDepth).ops[
      leadStart plan bound analysis j + before.length]? = some op) : op = .label label := by
  obtain ⟨_, _, _, stands, _⟩ := blocked.instruction reached maxDepth
  have front : (leadAt plan bound analysis j o)[before.length]? = some (.label label) := by
    rw [split]
    simp
  exact Option.some.inj (operation.symm.trans (stands _ _ front).1)

/-- Control that falls through an operation stays inside the blocks of the handlers that do not end. -/
theorem Inside.onward (blocked : Blocked plan bound analysis)
    (here : Inside plan bound analysis maxDepth ip blocks) {op : Operation}
    (operation : (routineOf plan bound analysis maxDepth).ops[ip]? = some op) (falls : op.terminates = false) :
    ∃ others, Inside plan bound analysis maxDepth (ip + 1) others ∧
      Retains plan bound analysis maxDepth ip blocks others := by
  cases here with
  | @own i m o p reached inside place =>
    obtain ⟨following, _, _, _, stands⟩ := blocked.instruction reached maxDepth
    by_cases last : m + 1 = (ownAt plan bound analysis i o p).length
    · have found := stands.found inside (place ▸ operation)
      exact blocked.inside_next reached (ownAt_ends found last falls) (by omega)
    · exact ⟨p.blocks, .own reached (m := m + 1) (by omega) (by omega), .refl⟩
  | around reached jumps place =>
    cases blocked.around_at reached jumps (place ▸ operation)
    cases falls
  | @entering j o q before rest r label _ reached known split place under =>
    have front : leadAt plan bound analysis j o = (before ++ [Operation.label label]) ++
        (r.prologue ++ lead (contextOf plan analysis) o.inst.offset true rest) := by
      rw [split, List.append_assoc]
      rfl
    have length : 0 < r.prologue.length := by
      rw [Region.prologue, (blocked.stable.placing blocked.planned known).dialect, blocked.legacy]
      exact Nat.zero_lt_succ _
    refine ⟨_, .opening reached known front length ?_ under, .refl⟩
    rw [place, List.length_append]
    rfl
  | @opening j n o q before rest r below reached known split inside place under =>
    have grows : Retains plan bound analysis maxDepth ip (if n < 2 then below else ⟨r.id, true⟩ :: below)
        (⟨r.id, true⟩ :: below) := by
      intro region member _
      split at member
      · exact List.mem_cons_of_mem _ member
      · exact member
    by_cases last : n + 1 = r.prologue.length
    · cases rest with
      | nil =>
        obtain ⟨others, own, kept⟩ : ∃ others, Inside plan bound analysis maxDepth _ others ∧ _ :=
          blocked.inside_own reached
        have ends : ip + 1 = ownStart plan bound analysis j o := by
          rw [ownStart, split, place]
          simp only [lead, List.length_append, List.length_nil]
          omega
        exact ⟨others, ends ▸ own, fun region member still =>
          kept region (under ▸ grows region member still)⟩
      | cons r' rest =>
        refine ⟨q.blocks, .around reached (n := before.length + r.prologue.length) ?_ (by omega), under ▸ grows⟩
        rw [split, ← List.append_assoc, List.getElem?_append_right (by simp)]
        simp [lead]
    · refine ⟨_, .opening reached known split (n := n + 1) (by omega) (by omega) under, ?_⟩
      intro region member still
      split
      · rwa [if_pos (by omega)] at member
      · exact grows region member still
  | @restoring n start entry member seated first inside place =>
    have found := blocked.restores_at member first inside (place ▸ operation)
    have more : n + 1 < 4 := by
      by_contra last
      obtain rfl : n = 3 := by omega
      cases found
      cases falls
    refine ⟨_, .restoring member seated first more (by omega), ?_⟩
    intro region runs still
    by_cases loads : n = 1
    · subst loads
      rcases List.mem_cons.mp runs with same | below
      · exact absurd (.unwound member (congrArg Block.region same).symm first place) still
      · exact below
    · split at runs
      · rwa [if_pos (by omega)]
      · rwa [if_neg (by omega)]

/-- Control that jumps stays inside the blocks of all handlers that run. -/
theorem Inside.jumps (blocked : Blocked plan bound analysis)
    (here : Inside plan bound analysis maxDepth ip blocks) {op : Operation}
    (operation : (routineOf plan bound analysis maxDepth).ops[ip]? = some op) {label : Label}
    (target : op.target? = some label) {k : Nat}
    (index : (routineOf plan bound analysis maxDepth).labelIndex? label = some k) :
    ∃ others, Inside plan bound analysis maxDepth k others ∧
      Retains plan bound analysis maxDepth ip blocks others := by
  cases here with
  | @own i m o p reached inside place =>
    obtain ⟨_, _, _, _, stands⟩ := blocked.instruction reached maxDepth
    have member := List.mem_of_getElem? (stands.found inside (place ▸ operation))
    have ordinary := ownAt_ordinary (blocked.followable reached).checked member
    rcases blocked.jumps reached member target index with ⟨j, o', q, there, turns, rfl⟩ |
      ⟨_, m', within, rfl⟩
    · have stays : o.opcode ≠ .popExcept := by
        intro leaves
        rcases ordinary.jumps label target with ⟨_, jumps, _⟩ | ⟨_, iterates⟩
        · rw [leaves] at jumps
          cases jumps
        · cases leaves.symm.trans iterates
      obtain ⟨others, own, kept⟩ : ∃ others, Inside plan bound analysis maxDepth _ others ∧ _ :=
        blocked.inside_own there
      exact ⟨others, own, fun region member _ => kept region (turns.retains stays member)⟩
    · exact ⟨p.blocks, .own reached within rfl, .refl⟩
  | around reached jumps place =>
    cases blocked.around_at reached jumps (place ▸ operation)
    cases target
    obtain ⟨others, own, kept⟩ : ∃ others, Inside plan bound analysis maxDepth _ others ∧ _ :=
      blocked.inside_own reached
    exact ⟨others, blocked.target reached index ▸ own, fun region member _ => kept region member⟩
  | entering reached known split place =>
    cases blocked.enters_at reached split (place ▸ operation)
    cases target
  | opening reached known split inside place =>
    have found := blocked.opens_at reached split inside (place ▸ operation)
    cases (prologue_straight (List.mem_of_getElem? found)).2.1.symm.trans target
  | @restoring n start entry member seated first inside place =>
    have found := blocked.restores_at member first inside (place ▸ operation)
    rcases n with _ | _ | _ | _ | n <;> cases found <;> cases target

private theorem Blocked.local_of (blocked : Blocked plan bound analysis) {r : Region}
    (known : r ∈ analysis.regions) : r.scratch = plan.scratch r.id ∧ 0 ≤ plan.scratch r.id ∧
      plan.function.localCount ≤ r.scratch.toInt.toNat := by
  have placing := blocked.stable.placing blocked.planned known
  obtain ⟨same, outside⟩ := placing.scratch blocked.legacy
  exact ⟨same, same ▸ (placing.room blocked.legacy).1, outside⟩

private theorem Blocked.local_apart (blocked : Blocked plan bound analysis) {r s : Region}
    (known : r ∈ analysis.regions) (also : s ∈ analysis.regions)
    (same : r.scratch.toInt.toNat = s.scratch.toInt.toNat) : r.id = s.id := by
  obtain ⟨here, positive, _⟩ := blocked.local_of known
  obtain ⟨there, above, _⟩ := blocked.local_of also
  rw [here, there] at same
  exact scratch_injective positive above same

/-- While a handler runs, no operation changes the local in which it has saved. -/
theorem Inside.spares (blocked : Blocked plan bound analysis)
    (here : Inside plan bound analysis maxDepth ip blocks) {op : Operation}
    (operation : (routineOf plan bound analysis maxDepth).ops[ip]? = some op) {r : Region}
    (known : r ∈ analysis.regions) (runs : ⟨r.id, true⟩ ∈ blocks) :
    touched? op ≠ some r.scratch.toInt.toNat := by
  cases here with
  | own reached inside place =>
    obtain ⟨_, _, _, _, stands⟩ := blocked.instruction reached maxDepth
    have member := List.mem_of_getElem? (stands.found inside (place ▸ operation))
    have ordinary := ownAt_ordinary (blocked.followable reached).checked member
    rw [(blocked.local_of known).1]
    exact blocked.spares reached ordinary.touches ⟨r.id, true⟩ runs
  | around reached jumps place =>
    cases blocked.around_at reached jumps (place ▸ operation)
    intro touched
    cases touched
  | entering reached other split place =>
    cases blocked.enters_at reached split (place ▸ operation)
    intro touched
    cases touched
  | @opening j n o q before rest s below reached other split inside place under =>
    have found := blocked.opens_at reached split inside (place ▸ operation)
    rw [Region.prologue, (blocked.stable.placing blocked.planned other).dialect, blocked.legacy] at found
    by_cases stores : n = 1
    · subst stores
      cases found
      intro touched
      have same := blocked.local_apart other known (Option.some.inj touched)
      have seated := blocked.seated reached
      rw [under] at seated
      exact seated.apart blocked.separate runs same.symm
    · rcases n with _ | _ | _ | _ | _ | _ | _ | _ | _ | n <;> cases found <;>
        first
        | exact absurd rfl stores
        | intro touched
          cases touched
  | @restoring n start entry member seated first inside place =>
    have found := blocked.restores_at member first inside (place ▸ operation)
    rcases n with _ | _ | _ | _ | n <;> cases found <;>
      · intro touched
        cases touched

/-- Where the local of a handler is written, the handler starts to run. -/
theorem Inside.stores (blocked : Blocked plan bound analysis)
    (here : Inside plan bound analysis maxDepth ip blocks) {r : Region} (known : r ∈ analysis.regions)
    (operation : (routineOf plan bound analysis maxDepth).ops[ip]? = some (.storeLocal r.scratch)) :
    ∃ others, Inside plan bound analysis maxDepth (ip + 1) others ∧ ⟨r.id, true⟩ ∈ others := by
  cases here with
  | own reached inside place =>
    obtain ⟨_, _, _, _, stands⟩ := blocked.instruction reached maxDepth
    have member := List.mem_of_getElem? (stands.found inside (place ▸ operation))
    have within := (ownAt_ordinary (blocked.followable reached).checked member).touches _ rfl
    have outside := (blocked.local_of known).2.2
    omega
  | around reached jumps place =>
    cases blocked.around_at reached jumps (place ▸ operation)
  | entering reached other split place =>
    cases blocked.enters_at reached split (place ▸ operation)
  | @opening j n o q before rest s below reached other split inside place under =>
    have found := blocked.opens_at reached split inside (place ▸ operation)
    have length : s.prologue.length = 9 := by
      rw [Region.prologue, (blocked.stable.placing blocked.planned other).dialect, blocked.legacy]
      rfl
    rw [Region.prologue, (blocked.stable.placing blocked.planned other).dialect, blocked.legacy] at found
    obtain ⟨rfl, same⟩ : n = 1 ∧ s.scratch = r.scratch := by
      rcases n with _ | _ | _ | _ | _ | _ | _ | _ | _ | n <;> simp at found
      exact ⟨rfl, found⟩
    have equal := blocked.local_apart other known (congrArg (·.toInt.toNat) same)
    exact ⟨_, .opening reached other split (n := 2) (by omega) (by omega) under,
      equal ▸ List.mem_cons_self⟩
  | @restoring n start entry member seated first inside place =>
    have found := blocked.restores_at member first inside (place ▸ operation)
    rcases n with _ | _ | _ | _ | n <;> cases found

/-- What raises is protected by blocks in which all handlers run that do not end there. -/
theorem Inside.raises (blocked : Blocked plan bound analysis)
    (here : Inside plan bound analysis maxDepth ip blocks) {op : Operation}
    (operation : (routineOf plan bound analysis maxDepth).ops[ip]? = some op) {locals : Array Value}
    (troubled : Troubled locals op) :
    ∃ others, Seated plan bound analysis others ∧
      Guards (contextOf plan analysis) (cleanupsOf plan bound analysis) others
        (((routineOf plan bound analysis maxDepth).regionAt? (Int64.ofNat ip)).map fun region =>
          ⟨region.handler, region.depth⟩) ∧
      Retains plan bound analysis maxDepth ip blocks others := by
  cases here with
  | @own i m o p reached inside place =>
    obtain ⟨_, protection, guarded, _, stands⟩ := blocked.instruction reached maxDepth
    have found := stands.found inside (place ▸ operation)
    obtain ⟨_, _, protects⟩ := stands _ _ found
    simp only [Guarded, show (contextOf plan analysis).plan.dialect = .legacy from blocked.legacy]
      at guarded
    rw [place, protects]
    exact ⟨p.blocks, blocked.seated reached, guarded, fun _ member _ => member⟩
  | around reached jumps place =>
    cases blocked.around_at reached jumps (place ▸ operation)
    exact troubled.elim
  | entering reached known split place =>
    cases blocked.enters_at reached split (place ▸ operation)
    exact troubled.elim
  | @opening j n o q before rest r below reached known split inside place under =>
    obtain ⟨_, protection, guarded, stands, _⟩ := blocked.instruction reached maxDepth
    have found := blocked.opens_at reached split inside (place ▸ operation)
    rw [split] at stands
    obtain ⟨_, _, protects⟩ := stands.append.2.append.1 _ _ found
    simp only [Guarded, show (contextOf plan analysis).plan.dialect = .legacy from blocked.legacy]
      at guarded
    rw [place, protects]
    refine ⟨q.blocks, blocked.seated reached, guarded, fun region member _ => ?_⟩
    rw [under]
    split at member
    · exact List.mem_cons_of_mem _ member
    · exact member
  | @restoring n start entry member seated first inside place =>
    obtain ⟨_, _, _, _, guards, stands, defined⟩ := blocked.cleanup member maxDepth
    cases first.symm.trans defined
    have found := stands.found inside (place ▸ operation)
    obtain ⟨_, _, protects⟩ := stands _ _ found
    rw [place, protects]
    refine ⟨entry.below, seated.below, guards, fun region runs still => ?_⟩
    rcases n with _ | _ | n
    · cases found
      exact troubled.elim
    · rcases List.mem_cons.mp runs with same | below
      · exact absurd (.unwound member (congrArg Block.region same).symm first rfl) still
      · exact below
    · rwa [if_neg (by omega)] at runs

/-- An exception that is caught comes to a handler or to a cleanup, inside the blocks of all handlers that
run. -/
theorem Seated.caught_inside (blocked : Blocked plan bound analysis) (seated : Seated plan bound analysis blocks)
    {f g : Frame}
    (guards : Guards (contextOf plan analysis) (cleanupsOf plan bound analysis) blocks (protectionOf f))
    (own : f.routine = routineOf plan bound analysis maxDepth) {exception : Nat}
    (received : receive exception f = .caught g) :
    ∃ others, Inside plan bound analysis maxDepth g.ip others ∧
      ∀ region, ⟨region, true⟩ ∈ blocks → ⟨region, true⟩ ∈ others := by
  obtain ⟨protection, target, found, defined, _, _, _, rfl⟩ := receive_caught received
  rw [own] at defined
  generalize same : protectionOf f = protected_ at guards
  rw [protectionOf, found, Option.map_some] at same
  cases guards with
  | free | uncaught => cases same
  | @caught region below label catches =>
    have handler : protection.handler = label := congrArg Protection.handler (Option.some.inj same)
    rw [handler] at defined
    obtain ⟨r, _, j, o, q, present, _, reached, place, under⟩ := seated _ _ List.suffix_rfl
    have id : r.id = region := (regionIn?_spec blocked.numbered present).1
    have known := regionIn?_mem present
    obtain ⟨before, rest, split, first⟩ :=
      blocked.prologue known (id ▸ catches) reached place maxDepth
    refine ⟨below, .entering reached known split
      (Option.some.inj (first.symm.trans defined)).symm (id ▸ under), fun other member => ?_⟩
    rcases List.mem_cons.mp member with same | inside
    · cases same
    · exact inside
  | @unwound cleanup member running =>
    have handler : protection.handler = cleanup.label :=
      congrArg Protection.handler (Option.some.inj same)
    rw [handler] at defined
    exact ⟨_, .restoring member seated defined (n := 0) (by omega) rfl, fun _ => id⟩

section
variable {start c d : Config} {f : Frame}

/-- The frame of an activation, which executes or waits for a call, is inside some blocks. -/
inductive Abides (plan : Plan) (bound : Array Bound) (analysis : Analysis.State) (maxDepth : Int64)
    (start c : Config) : Frame → List Block → Prop
  | executing {blocks : List Block} (waiting : c.waiting = start.waiting)
      (own : c.frame.routine = routineOf plan bound analysis maxDepth)
      (inside : Inside plan bound analysis maxDepth c.frame.ip blocks) :
      Abides plan bound analysis maxDepth start c c.frame blocks
  | calling {above : List Frame} {f : Frame} {inv : Invocation} {blocks : List Block}
      (waiting : c.waiting = above ++ f :: start.waiting)
      (own : f.routine = routineOf plan bound analysis maxDepth) (started : 0 < f.ip)
      (operation : (routineOf plan bound analysis maxDepth).ops[f.ip - 1]? = some (.invoke inv))
      (inside : Inside plan bound analysis maxDepth (f.ip - 1) blocks) :
      Abides plan bound analysis maxDepth start c f blocks

private theorem Finishes.operation (blocked : Blocked plan bound analysis) {region : Int64}
    (finishes : Finishes plan bound analysis maxDepth region ip) {inv : Invocation} :
    (routineOf plan bound analysis maxDepth).ops[ip]? ≠ some (.invoke inv) := by
  intro operation
  cases finishes with
  | @left i o p below reached leaves under last =>
    obtain ⟨following, _, _, _, stands⟩ := blocked.instruction reached maxDepth
    have code : ownAt plan bound analysis i o p =
        markOf analysis o ++ [.pop, .pop, .pop, restored plan p.shape, .setHandled] :=
      ownAt_leaves (blocked.followable reached) blocked.legacy leaves
    obtain ⟨m, rfl⟩ : ∃ m, ip = ownStart plan bound analysis i o + m :=
      ⟨ip - ownStart plan bound analysis i o, by simp [code] at following; omega⟩
    have member := List.mem_of_getElem? (stands.found (by omega) operation)
    have other : restored plan p.shape ≠ .invoke inv := by
      unfold restored
      split <;> nofun
    rw [code, List.mem_append] at member
    rcases member with marked | listed
    · cases mem_markOf marked
    · simp only [List.mem_cons, List.not_mem_nil, or_false] at listed
      rcases listed with same | same | same | same | same
      · cases same
      · cases same
      · cases same
      · exact other same.symm
      · cases same
  | @unwound entry start member block first last =>
    subst last
    cases blocked.restores_at member first (by omega) operation

private theorem Inside.catches (blocked : Blocked plan bound analysis)
    (here : Inside plan bound analysis maxDepth ip blocks) {op : Operation}
    (operation : (routineOf plan bound analysis maxDepth).ops[ip]? = some op) {locals : Array Value}
    (troubled : Troubled locals op) {h : Frame} (own : h.routine = routineOf plan bound analysis maxDepth)
    (place : h.ip - 1 = ip) {exception : Nat} (received : receive exception h = .caught d.frame)
    (waiting : d.waiting = start.waiting) :
    ∃ others, Abides plan bound analysis maxDepth start d d.frame others ∧
      Retains plan bound analysis maxDepth ip blocks others ∧ d.frame.locals = h.locals := by
  obtain ⟨guarding, seated, guards, retains⟩ := here.raises blocked operation troubled
  rw [← own, ← place] at guards
  obtain ⟨others, inside, kept⟩ := seated.caught_inside blocked guards own received
  refine ⟨others, .executing waiting ((receive_routine received).trans own) inside,
    fun region runs still => kept region (retains region runs still), ?_⟩
  obtain ⟨_, _, _, _, _, _, _, frame⟩ := receive_caught received
  rw [frame]

private theorem Inside.executes (blocked : Blocked plan bound analysis)
    (here : Inside plan bound analysis maxDepth c.frame.ip blocks) (waiting : c.waiting = start.waiting)
    (own : c.frame.routine = routineOf plan bound analysis maxDepth) (goes : Goes setup c d)
    (within : start.waiting.length ≤ d.waiting.length) :
    ∃ g others, Abides plan bound analysis maxDepth start d g others ∧ ∀ r ∈ analysis.regions,
      ⟨r.id, true⟩ ∈ blocks → ¬ Finishes plan bound analysis maxDepth r.id c.frame.ip →
      ⟨r.id, true⟩ ∈ others ∧
        g.locals[r.scratch.toInt.toNat]? = c.frame.locals[r.scratch.toInt.toNat]? := by
  obtain ⟨o, st, e, issued, move⟩ := goes_cases goes
  have effects := execute_within setup st e o
  have operation := issued.operation
  rw [own] at operation
  have count := congrArg List.length waiting
  cases move with
  | next done kept =>
    rw [done] at effects
    obtain ⟨same, _, _, moves, _⟩ := effects
    have routine := same.trans (issued.routine.trans own)
    obtain ⟨others, inside, retains⟩ : ∃ others,
        Inside plan bound analysis maxDepth d.frame.ip others ∧
        Retains plan bound analysis maxDepth c.frame.ip blocks others := by
      rcases moves with ⟨through, falls⟩ | ⟨label, target, index⟩
      · rw [through, issued.ip]
        exact here.onward blocked operation falls
      · rw [issued.routine.trans own] at index
        exact here.jumps blocked operation target index
    refine ⟨_, others, .executing (kept.trans waiting) routine inside, fun r known runs still => ?_⟩
    refine ⟨retains r.id runs still, ?_⟩
    rw [execute_locals done (here.spares blocked operation known runs), issued.locals]
  | @enter g done below =>
    rw [done] at effects
    obtain ⟨inv, rfl, _, _, frame, _⟩ := effects
    have same : g.routine = routineOf plan bound analysis maxDepth ∧ g.ip = c.frame.ip + 1 ∧
        g.locals = c.frame.locals := by
      rw [frame]
      exact ⟨issued.routine.trans own, issued.ip, issued.locals⟩
    obtain ⟨routine, last, locals⟩ := same
    have waits : d.waiting = [] ++ g :: start.waiting := below.trans (congrArg (g :: ·) waiting)
    refine ⟨g, blocks, .calling waits routine (by omega) (by rw [last]; exact operation)
      (by rw [last]; exact here), fun r _ runs _ => ⟨runs, by rw [locals]⟩⟩
  | back done below =>
    have shorter := congrArg List.length below
    rw [List.length_cons] at shorter
    omega
  | @raise _ _ h _ done offered received =>
    rw [done] at effects
    obtain ⟨_, _, _, frame⟩ := effects
    obtain ⟨rfl, same⟩ := offered.stays (by omega)
    have left : h.routine = routineOf plan bound analysis maxDepth ∧ h.ip - 1 = c.frame.ip ∧
        h.locals = c.frame.locals := by
      rw [frame]
      exact ⟨issued.routine.trans own, by rw [issued.ip]; rfl, issued.locals⟩
    obtain ⟨routine, place, locals⟩ := left
    obtain ⟨others, inside, retains, kept⟩ := here.catches blocked operation (execute_troubled done)
      routine place received (same.trans waiting)
    exact ⟨_, others, inside, fun r _ runs still => ⟨retains r.id runs still, by rw [kept, locals]⟩⟩

private theorem Inside.awaits (blocked : Blocked plan bound analysis) {above : List Frame} {inv : Invocation}
    (here : Inside plan bound analysis maxDepth (f.ip - 1) blocks)
    (waiting : c.waiting = above ++ f :: start.waiting)
    (own : f.routine = routineOf plan bound analysis maxDepth) (started : 0 < f.ip)
    (operation : (routineOf plan bound analysis maxDepth).ops[f.ip - 1]? = some (.invoke inv))
    (goes : Goes setup c d) (within : start.waiting.length ≤ d.waiting.length) :
    ∃ g others, Abides plan bound analysis maxDepth start d g others ∧ ∀ r ∈ analysis.regions,
      ⟨r.id, true⟩ ∈ blocks → ⟨r.id, true⟩ ∈ others ∧
        g.locals[r.scratch.toInt.toNat]? = f.locals[r.scratch.toInt.toNat]? := by
  have still : ∀ region, ¬ Finishes plan bound analysis maxDepth region (f.ip - 1) :=
    fun region finishes => finishes.operation blocked operation
  have continues : ∀ {frames}, d.waiting = frames ++ f :: start.waiting →
      Abides plan bound analysis maxDepth start d f blocks :=
    fun more => .calling more own started operation here
  obtain ⟨_, _, _, _, move⟩ := goes_cases goes
  cases move with
  | next done kept => exact ⟨f, blocks, continues (kept.trans waiting), fun r _ runs => ⟨runs, rfl⟩⟩
  | @enter g done below =>
    have split : d.waiting = (g :: above) ++ f :: start.waiting := by
      rw [below, waiting]
      rfl
    exact ⟨f, blocks, continues split, fun r _ runs => ⟨runs, rfl⟩⟩
  | back done below calling pushed =>
    rw [waiting] at below
    cases above with
    | nil =>
      simp only [List.nil_append, List.cons.injEq] at below
      obtain ⟨rfl, rest⟩ := below
      have frame := pushResults_next pushed
      have same : d.frame.routine = f.routine ∧ d.frame.ip = f.ip - 1 + 1 ∧
          d.frame.locals = f.locals := by
        rw [frame]
        exact ⟨rfl, by dsimp only; omega, rfl⟩
      obtain ⟨routine, place, locals⟩ := same
      obtain ⟨others, inside, retains⟩ := here.onward blocked operation rfl
      exact ⟨_, others, .executing rest.symm (routine.trans own) (place ▸ inside),
        fun r _ runs => ⟨retains r.id runs (still r.id), by rw [locals]⟩⟩
    | cons caller above =>
      simp only [List.cons_append, List.cons.injEq] at below
      exact ⟨f, blocks, continues below.2.symm, fun r _ runs => ⟨runs, rfl⟩⟩
  | raise done offered received =>
    rw [waiting] at offered
    rcases offered_split offered within with ⟨frames, more⟩ | ⟨rfl, rest⟩
    · exact ⟨f, blocks, continues more, fun r _ runs => ⟨runs, rfl⟩⟩
    · have troubled : Troubled #[] (.invoke inv) := trivial
      obtain ⟨others, inside, retains, kept⟩ := here.catches blocked operation troubled own rfl received rest
      exact ⟨_, others, inside, fun r _ runs => ⟨retains r.id runs (still r.id), by rw [kept]⟩⟩

/-- A step that stays in the activation keeps it inside the blocks of the handlers that run and do not end,
and keeps what they have saved. -/
theorem Abides.step (blocked : Blocked plan bound analysis)
    (abides : Abides plan bound analysis maxDepth start c f blocks) (goes : Goes setup c d)
    (within : start.waiting.length ≤ d.waiting.length) :
    ∃ g others, Abides plan bound analysis maxDepth start d g others ∧ ∀ r ∈ analysis.regions,
      ⟨r.id, true⟩ ∈ blocks → (c.waiting.length = start.waiting.length →
        ¬ Finishes plan bound analysis maxDepth r.id c.frame.ip) →
      ⟨r.id, true⟩ ∈ others ∧ g.locals[r.scratch.toInt.toNat]? = f.locals[r.scratch.toInt.toNat]? := by
  cases abides with
  | executing waiting own here =>
    obtain ⟨g, others, further, keeps⟩ := here.executes blocked waiting own goes within
    have count := congrArg List.length waiting
    exact ⟨g, others, further, fun r known runs still => keeps r known runs (still count)⟩
  | calling waiting own started operation here =>
    obtain ⟨g, others, further, keeps⟩ := here.awaits blocked waiting own started operation goes within
    exact ⟨g, others, further, fun r known runs _ => keeps r known runs⟩

theorem Stays.abides (blocked : Blocked plan bound analysis)
    (begins : ∃ f blocks, Abides plan bound analysis maxDepth start start f blocks)
    (stays : Stays setup start c) : ∃ f blocks, Abides plan bound analysis maxDepth start c f blocks := by
  induction stays with
  | refl => exact begins
  | step _ goes inside ih =>
    obtain ⟨f, blocks, abides⟩ := ih
    obtain ⟨g, others, further, _⟩ := abides.step blocked goes inside
    exact ⟨g, others, further⟩

/-- The handler of a region runs in an activation: it has saved a value in the local of its region, and
has not ended since. -/
inductive Running (setup : Setup) (plan : Plan) (bound : Array Bound) (analysis : Analysis.State)
    (maxDepth : Int64) (start : Config) (r : Region) (v : Value) : Config → Prop
  | saves {c d : Config} (stays : Stays setup start c)
      (executing : c.waiting.length = start.waiting.length)
      (operation : c.frame.routine.ops[c.frame.ip]? = some (.storeLocal r.scratch)) (goes : Goes setup c d)
      (inside : start.waiting.length ≤ d.waiting.length)
      (saved : d.frame.locals[r.scratch.toInt.toNat]? = some v) :
      Running setup plan bound analysis maxDepth start r v d
  | goes {c d : Config} (before : Running setup plan bound analysis maxDepth start r v c)
      (goes : Goes setup c d) (inside : start.waiting.length ≤ d.waiting.length)
      (still : c.waiting.length = start.waiting.length →
        ¬ Finishes plan bound analysis maxDepth r.id c.frame.ip) :
      Running setup plan bound analysis maxDepth start r v d

/-- While the handler of a region runs, the activation is inside its block, and its local holds what it
has saved. -/
theorem Running.abides (blocked : Blocked plan bound analysis)
    (begins : ∃ f blocks, Abides plan bound analysis maxDepth start start f blocks) {r : Region}
    (known : r ∈ analysis.regions) {v : Value}
    (running : Running setup plan bound analysis maxDepth start r v c) :
    ∃ f blocks, Abides plan bound analysis maxDepth start c f blocks ∧ ⟨r.id, true⟩ ∈ blocks ∧
      f.locals[r.scratch.toInt.toNat]? = some v := by
  induction running with
  | @saves c d stays executing operation goes inside saved =>
    obtain ⟨f, blocks, abides⟩ := stays.abides blocked begins
    cases abides with
    | executing waiting own here =>
      obtain ⟨o, st, e, issued, move⟩ := goes_cases goes
      cases issued.operation.symm.trans operation
      have effects := execute_within setup st e (.storeLocal r.scratch)
      rw [own] at operation
      obtain ⟨others, further, runs⟩ := here.stores blocked known operation
      cases move with
      | next done kept =>
        rw [done] at effects
        obtain ⟨same, _, _, moves, _⟩ := effects
        rcases moves with ⟨through, _⟩ | ⟨_, target, _⟩
        · refine ⟨_, others, .executing (kept.trans waiting) (same.trans (issued.routine.trans own)) ?_,
            runs, saved⟩
          rw [through, issued.ip]
          exact further
        · cases target
      | enter done =>
        rw [done] at effects
        obtain ⟨_, none, _⟩ := effects
        cases none
      | back done =>
        rw [done] at effects
        cases effects.2.2
      | raise done => exact (execute_troubled done).elim
    | calling waiting =>
      rw [waiting] at executing
      simp only [List.length_append, List.length_cons] at executing
      omega
  | goes _ goes inside still ih =>
    obtain ⟨f, blocks, abides, runs, saved⟩ := ih
    obtain ⟨g, others, further, keeps⟩ := abides.step blocked goes inside
    obtain ⟨runs, same⟩ := keeps r known runs still
    exact ⟨g, others, further, runs, same.trans saved⟩

end

private theorem Lowers.begins_inside {fn : Function} {l : Lowered} (lowers : Lowers fn l plan bound analysis)
    (blocked : Blocked plan bound analysis) (st : Machine.State) (args : List Value) (depth : Nat)
    (waiting : List Frame) : ∃ f blocks, Abides plan bound analysis l.routine.maxDepth
      (.call st l.routine args depth waiting) (.call st l.routine args depth waiting) f blocks := by
  obtain ⟨p, point, _⟩ := blocked.stable.entry
  have inside : 0 < bound.size := blocked.planned.size ▸ blocked.planned.positive
  have reached : Reached bound analysis 0 bound[0] p := ⟨Array.getElem?_eq_getElem inside, point⟩
  have first : leadStart plan bound analysis 0 = 0 := by
    simp only [leadStart, place, stage]
    exact congrArg Array.size (labelledHandlers_labelling blocked.numbered).emitted
  have here : (Config.call st l.routine args depth waiting).frame.ip =
      ownStart plan bound analysis 0 bound[0] := by
    rw [ownStart, first, lowers.bare blocked.legacy reached first]
    rfl
  obtain ⟨others, own, _⟩ : ∃ others, Inside plan bound analysis l.routine.maxDepth _ others ∧ _ :=
    blocked.inside_own reached
  exact ⟨_, others, .executing rfl lowers.routine (here ▸ own)⟩

/-- Every region has a local of its own. From when its handler has saved the register until it ends, the
local keeps what was saved, and the code that is executed does not write to it. -/
structure KeepsSaved (setup : Setup) (plan : Plan) (bound : Array Bound) (analysis : Analysis.State)
    (l : Lowered) : Prop where
  apart : ∀ r ∈ analysis.regions, ∀ s ∈ analysis.regions,
    r.scratch.toInt.toNat = s.scratch.toInt.toNat → r = s
  kept : ∀ (st : Machine.State) (args : List Value) (depth : Nat) (waiting : List Frame),
    ∀ r ∈ analysis.regions, ∀ v c, c.waiting.length = waiting.length →
      Running setup plan bound analysis l.routine.maxDepth (.call st l.routine args depth waiting) r v c →
      c.frame.locals[r.scratch.toInt.toNat]? = some v ∧
        ∀ op, c.frame.routine.ops[c.frame.ip]? = some op → touched? op ≠ some r.scratch.toInt.toNat

private theorem Lowers.keeps_saved {fn : Function} {l : Lowered} (lowers : Lowers fn l plan bound analysis)
    (blocked : Blocked plan bound analysis) : KeepsSaved setup plan bound analysis l where
  apart r known s also same := blocked.numbered.unique known also (blocked.local_apart known also same)
  kept st args depth waiting r known v c executing running := by
    obtain ⟨f, blocks, abides, runs, saved⟩ :=
      running.abides blocked (lowers.begins_inside blocked st args depth waiting) known
    cases abides with
    | executing _ own here =>
      exact ⟨saved, fun op operation => here.spares blocked (own ▸ operation) known runs⟩
    | calling longer =>
      rw [longer] at executing
      simp only [Config.call, List.length_append, List.length_cons] at executing
      omega

/-- The discipline of blocks. Whatever a legacy function has recorded at any moment of its analysis, the
blocks are stacked. When the analysis ends, its cleanups end as well, and no region has two of them.
When the function is lowered and its offsets can be labels, no handler that runs loses what it has
saved. -/
theorem block_discipline {fn : Function} (ready : Ready fn plan bound) (legacy : plan.dialect = .legacy)
    (distinct : (fn.instructions.toList.map Instruction.offset).Nodup) :
    (∀ st, Recorded plan bound st → ∀ j p, st.point? j = some p → Stacked plan bound st p.blocks) ∧
      ∀ analysis, Analysis.analyze plan bound = .ok analysis →
        Drains (contextOf plan analysis) (instructions (contextOf plan analysis)
          (labelledHandlers plan analysis).1 0 false bound.toList) 0 (emit plan bound analysis) ∧
        ((emit plan bound analysis).cleanups.toList.map fun entry => entry.block.region).Nodup ∧
        ∀ l events, lower fn = (.ok l, events) → (∀ inst ∈ fn.instructions.toList, 0 ≤ inst.offset) →
          ∀ setup, KeepsSaved setup plan bound analysis l := by
  refine ⟨fun st recorded j p known => recorded.stacked ready legacy distinct known, ?_⟩
  intro analysis analysed
  refine ⟨cleanups_drain .., cleanups_apart ready legacy distinct analysed, ?_⟩
  intro l events lowered positive setup
  obtain ⟨plan', bound', analysis', lowers⟩ := lower_lowers lowered
  obtain ⟨again, ended⟩ := prepare_ready lowers.prepared
  cases ready.drafted.symm.trans again.drafted
  have same : bound = bound' := by
    have equal := ready.bindings.symm.trans again.bindings
    exact Array.toList_inj.mp (Except.ok.inj equal)
  subst same
  cases analysed.symm.trans ended
  exact lowers.keeps_saved (lowers.blocked ⟨positive, distinct⟩ legacy)

section
variable {start : Config} {r : Region} {v : Value}

/-- No instruction leaves a handler, and the cleanups of a region stand at one index. -/
private def endsOnce (plan : Plan) (bound : Array Bound) (analysis : Analysis.State) (maxDepth region : Int64)
    (index : Nat) : Bool :=
  (bound.toList.all fun o => o.opcode ≠ .popExcept) &&
    (cleanupsOf plan bound analysis).toList.all fun entry => entry.block.region ≠ region ||
      (routineOf plan bound analysis maxDepth).labelIndex? entry.label == some index

private theorem Finishes.at_cleanup {region : Int64} {index : Nat}
    (once : endsOnce plan bound analysis maxDepth region index = true)
    (finishes : Finishes plan bound analysis maxDepth region ip) : ip = index + 1 := by
  obtain ⟨never, cleanup⟩ := Bool.and_eq_true_iff.mp once
  cases finishes with
  | left reached leaves =>
    have stays := List.all_eq_true.mp never _ (Array.mem_of_getElem? reached.found).val
    simp [leaves] at stays
  | unwound member block first last =>
    have found := List.all_eq_true.mp cleanup _ member.val
    simp only [block, ne_eq, not_true_eq_false, decide_false, Bool.false_or, beq_iff_eq] at found
    rw [last, Option.some.inj (first.symm.trans found)]

/-- After so many steps, an operation is executed, and for some more steps control is not where the handler
of a region ends. -/
private def runsOn (start : Config) (first more index : Nat) : Bool :=
  let before := start.later {} first
  before.waiting.isEmpty && before.frame.ip != (start.later {} (first + 1)).frame.ip &&
    (List.range more).all fun m => (start.later {} (first + 1 + m)).frame.ip != index + 1

private theorem running_of_runsOn {first more last index : Nat} (alone : start.waiting = [])
    (count : first + 1 + more = last)
    (operation : (start.later {} first).frame.routine.ops[(start.later {} first).frame.ip]? =
      some (.storeLocal r.scratch))
    (saved : (start.later {} (first + 1)).frame.locals[r.scratch.toInt.toNat]? = some v)
    (runs : runsOn start first more index = true)
    (finishes : ∀ ip, Finishes plan bound analysis maxDepth r.id ip → ip = index + 1) :
    Running {} plan bound analysis maxDepth start r v (start.later {} last) := by
  subst count
  simp only [runsOn, Bool.and_eq_true, bne_iff_ne, List.all_eq_true, List.mem_range] at runs
  obtain ⟨⟨empty, moves⟩, still⟩ := runs
  have inside : ∀ d : Config, start.waiting.length ≤ d.waiting.length := by simp [alone]
  induction more with
  | zero =>
    rw [Nat.add_zero]
    rw [Config.later] at moves saved ⊢
    unfold Config.after at moves saved ⊢
    split at moves
    · next stepped =>
      simp only [stepped] at saved ⊢
      exact .saves ((reaches_later ..).stays alone)
        (by rw [List.isEmpty_iff.mp empty, alone]) operation stepped (inside _) saved
    · exact absurd rfl moves
  | succ more ih =>
    have before := ih fun m less => still m (by omega)
    rw [← Nat.add_assoc, Config.later]
    unfold Config.after
    split
    · next stepped =>
      exact .goes before stepped (inside _) fun _ ends => still more (by omega) (finishes _ ends)
    · exact before

end

private theorem one : (1 : Int64).toInt.toNat = 1 := by decide

/-- The blocks of a handler that runs inside a block, and what it has saved when it is about to raise. -/
theorem rescued_stacked : ∃ plan bound analysis l events, Ready rescued plan bound ∧
    plan.dialect = .legacy ∧ lower rescued = (.ok l, events) ∧
    (∃ p, analysis.point? 4 = some p ∧ p.blocks = [⟨2, true⟩, ⟨1, false⟩] ∧
      Stacked plan bound analysis p.blocks) ∧
    (emit plan bound analysis).cleanups.size = 2 ∧
    ((emit plan bound analysis).cleanups.toList.map fun entry => entry.block.region).Nodup ∧
    ∃ r c, r ∈ analysis.regions ∧ Running {} plan bound analysis l.routine.maxDepth
        (.call { bareState with handled := .int 5 } l.routine [] 1 []) r (.int 5) c ∧
      c.frame.ip = 16 ∧ c.frame.locals[r.scratch.toInt.toNat]? = some (.int 5) := by
  obtain ⟨_, _, _, l, events, _, lowered, routine, _⟩ := rescued_lowered
  have checked : lowersTo rescued (fun plan bound analysis _ => plan.dialect == .legacy &&
      (analysis.point? 4).any (·.blocks == [⟨2, true⟩, ⟨1, false⟩]) &&
      (analysis.regions[1]?).any (fun r : Region => r.scratch == 1 && endsOnce plan bound analysis 4 r.id 30) &&
      (emit plan bound analysis).cleanups.size == 2) = true := by decide +kernel
  obtain ⟨plan, bound, analysis, _, _, prepared, _, holds⟩ := lowersTo_spec checked
  simp only [Bool.and_eq_true, beq_iff_eq, Option.any_eq_true] at holds
  obtain ⟨⟨⟨legacy, p, point, blocks⟩, r, found, scratch, ends⟩, two⟩ := holds
  obtain ⟨operation, saved, runs, place, alone⟩ :
      let start := Config.call { bareState with handled := .int 5 } rescuedRoutine [] 1 []
      (start.later {} 5).frame.routine.ops[(start.later {} 5).frame.ip]? =
          some (Operation.storeLocal 1) ∧
        (start.later {} (5 + 1)).frame.locals[1]? = some (Value.int 5) ∧ runsOn start 5 10 30 = true ∧
        (start.later {} 16).frame.ip = 16 ∧ (start.later {} 16).waiting = [] :=
    ⟨by cbv, by cbv, by cbv, by cbv, by cbv⟩
  obtain ⟨ready, analysed⟩ := prepare_ready prepared
  have discipline := block_discipline ready legacy rescued_offsets.distinct
  obtain ⟨_, apart, keeps⟩ := discipline.2 analysis analysed
  have known := List.mem_of_getElem? found
  have running : Running {} plan bound analysis l.routine.maxDepth
      (.call { bareState with handled := .int 5 } l.routine [] 1 []) r (.int 5)
      ((Config.call { bareState with handled := .int 5 } rescuedRoutine [] 1 []).later {} 16) := by
    rw [routine]
    exact running_of_runsOn rfl (by decide) (by rw [scratch]; exact operation)
      (by rw [scratch, one]; exact saved) runs fun ip finishes => finishes.at_cleanup ends
  have kept := (keeps l events lowered rescued_offsets.positive {}).kept _ _ _ _ r known _ _
    (congrArg List.length alone) running
  exact ⟨plan, bound, analysis, l, events, ready, legacy, lowered, ⟨p, point, blocks,
    discipline.1 analysis (.visited (analyze_visited analysed)) 4 p point⟩, two, apart, r, _, known, running,
    place, kept.1⟩

/-- A function with an instruction at the offset -1, which is also the label of its handler. -/
def reentering : Function where
  name := "f"
  version := ⟨3, 9⟩
  argCount := 1
  localNames := #["a"]
  names := #["g"]
  instructions := #[{ offset := 0, code := Opcode.setupFinally.code, arg := 8 },
    { offset := 2, code := Opcode.loadGlobal.code },
    { offset := 4, code := Opcode.popBlock.code },
    { offset := 6, code := Opcode.returnValue.code },
    { offset := -1, code := Opcode.returnValue.code },
    { offset := 8, code := Opcode.popTop.code },
    { offset := 10, code := Opcode.popTop.code },
    { offset := 12, code := Opcode.deleteFast.code },
    { offset := 14, code := Opcode.jumpAbsolute.code, arg := -1 }]

/-- A jump to an offset that is also the label of a handler enters this handler while it runs, and what it
has saved is lost. -/
theorem reentering_overwrites : ∃ plan bound analysis l events, Ready reentering plan bound ∧
    plan.dialect = .legacy ∧ (reentering.instructions.toList.map Instruction.offset).Nodup ∧
    Analysis.analyze plan bound = .ok analysis ∧ lower reentering = (.ok l, events) ∧
    ¬ KeepsSaved {} plan bound analysis l := by
  have checked : lowersTo reentering (fun plan bound analysis l =>
      let start := Config.call bareState l.routine [.bool false] 1 []
      plan.dialect == .legacy && (analysis.regions[0]?).any (fun r : Region => r.scratch == 1 &&
        endsOnce plan bound analysis 3 r.id 19) && l.routine.maxDepth == 3 &&
        (start.later {} 19).waiting.isEmpty &&
        ((start.later {} 3).frame.routine.ops[(start.later {} 3).frame.ip]?).any (alike (.storeLocal 1)) &&
        ((start.later {} (3 + 1)).frame.locals[1]?).any (fun v => alike (.const v) (.const .none)) &&
        runsOn start 3 15 19 &&
        ((start.later {} 19).frame.locals[1]?).any (isException 0)) = true := by decide +kernel
  obtain ⟨plan, bound, analysis, l, events, prepared, finished, holds⟩ := lowersTo_spec checked
  simp only [Bool.and_eq_true, beq_iff_eq, List.isEmpty_iff, Option.any_eq_true] at holds
  obtain ⟨⟨⟨⟨⟨⟨⟨legacy, r, found, scratch, ends⟩, maxDepth⟩, alone⟩, o, operation, saves⟩, v, saved, known⟩,
    runs⟩, w, lost, other⟩ := holds
  obtain rfl : v = .none := Operation.const.inj (alike_eq known)
  cases alike_eq saves
  have lowered := lower_of_finish prepared finished
  obtain ⟨ready, analysed⟩ := prepare_ready prepared
  refine ⟨plan, bound, analysis, l, events, ready, legacy, by decide +kernel, analysed, lowered, fun keeps => ?_⟩
  have kept := keeps.kept bareState [.bool false] 1 [] r (List.mem_of_getElem? found) .none
  have outside : (Config.call bareState l.routine [.bool false] 1 []).waiting = [] := rfl
  generalize Config.call bareState l.routine [.bool false] 1 [] = start at *
  rw [maxDepth, scratch, one] at kept
  have running : Running {} plan bound analysis 3 start r .none (start.later {} 19) :=
    running_of_runsOn outside (by decide) (by rw [scratch]; exact operation)
      (by rw [scratch, one]; exact saved) runs
      fun ip finishes => finishes.at_cleanup ends
  cases lost.symm.trans (kept _ (congrArg List.length alone) running).1
  cases other

end Lowering.Proofs
