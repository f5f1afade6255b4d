import Lowering.Proofs.BlockDepths
import Lowering.Proofs.Extents
import Lowering.Proofs.ModernDispatch
import Lowering.Proofs.PostFixpoint

/-! The handler table of a lowered function. It lists the regions whose handlers are reached, in whatever
way; but a row agrees with the shape at its handler just if its region is live. Only then has the analysis
found its depth and its extent, and only then does its exception state stand on the stack. -/

namespace Lowering.Proofs
open Shape Guest

variable {plan : Plan} {bound : Array Bound} {st analysis : Analysis.State}

private theorem state_bare {r : Region} : ∀ slot ∈ r.state, slot.known = none := by
  intro slot member
  unfold Region.state at member
  split at member
  · simp only [List.mem_cons, List.not_mem_nil, or_false] at member
    rcases member with rfl | rfl | rfl <;> rfl
  · split at member <;> simp only [List.mem_cons, List.not_mem_nil, or_false] at member
    · rcases member with rfl | rfl <;> rfl
    · rw [member]
      rfl

private theorem widens_owned {a b : List Slot} (widens : List.Forall₂ Widens a b)
    (owned : ∀ slot ∈ a, slot.known = none ∧ slot.region ≠ 0) : b = a := by
  induction widens with
  | nil => rfl
  | @cons x y _ _ head _ ih =>
    obtain ⟨bare, owner⟩ := owned x List.mem_cons_self
    rw [ih fun slot member => owned slot (List.mem_cons_of_mem _ member)]
    cases head with
    | fades kind region known =>
      rw [bare] at known
      have forgotten := known.none
      cases x
      cases y
      cases kind
      cases region
      cases bare
      cases forgotten
      rfl
    | object free => exact absurd free owner

private theorem Covers.state {j : Nat} {r : Region} {stamp : Nat} {s : Stack} {blocks : List Block}
    {q : Point} (covers : Covers st j ⟨s.pushAll stamp r.state, blocks⟩) (known : st.point? j = some q)
    (owner : r.id ≠ 0) :
    q.shape.depth = s.depth + r.state.length ∧ q.shape.slots.drop s.depth = r.state := by
  have depth : q.shape.depth = s.depth + r.state.length := by
    rw [covers.depth known, pushAll_eq]
    simp [Stack.depth, Nat.add_comm]
  refine ⟨depth, ?_⟩
  obtain ⟨t, present, _, widens⟩ := covers
  cases known.symm.trans present
  have top := List.forall₂_take r.state.length widens.cells
  rw [pushAll_eq, List.take_left' (by simp), ← List.map_reverse, List.forall₂_map_left_iff] at top
  have front : (q.shape.cells.take r.state.length).map Cell.slot = r.state.reverse := by
    refine widens_owned ?_ fun slot member => ?_
    · rwa [List.forall₂_map_right_iff]
    · have member := List.mem_reverse.mp member
      exact ⟨state_bare slot member, state_region member ▸ owner⟩
  have above : q.shape.cells.length - s.depth = r.state.length := by
    rw [← Stack.depth, depth]
    omega
  rw [Stack.slots, List.drop_reverse, List.length_map, above, ← List.map_take, front, List.reverse_reverse]

/-- In a function with an exception table, exception state is owned by regions that some instruction raises
into. -/
private theorem Linked.tagged (planned : Planned plan bound) (stable : Stable plan bound analysis)
    (modern : plan.dialect = .modern) {j : Nat} {q : Point} (linked : Linked plan bound analysis j)
    (known : analysis.point? j = some q) {cell : Cell} (member : cell ∈ q.shape.cells)
    (tagged : cell.slot.region ≠ 0) : ∃ i o p, Reached bound analysis i o p ∧
      plan.protecting i = cell.slot.region ∧ o.opcode.mayRaise = true := by
  have numbered := planned.numbered.later stable.regions
  -- Owned slots are passed on along the links, back to the exception that has pushed them.
  induction linked generalizing q cell with
  | entry =>
    obtain ⟨_, present, _, widens⟩ := stable.entry
    cases known.symm.trans present
    obtain ⟨_, none, _⟩ := widens.origin member
    cases none
  | @step i j p _ before leads ih =>
    obtain ⟨edge, carried⟩ := leads.edge planned stable before
    obtain ⟨_, same, _, _, present, _, widens⟩ := carried.covered planned stable
    cases same
    cases known.symm.trans present
    generalize some j = target at carried
    obtain ⟨source, carries, kept⟩ := widens.origin member
    rw [← kept.region] at tagged ⊢
    have inherited : ∀ {p' : Point}, analysis.point? i = some p' → Inherits p'.shape edge.shape →
        ∃ i o p, Reached bound analysis i o p ∧ plan.protecting i = source.slot.region ∧
          o.opcode.mayRaise = true := by
      intro p' present inherits
      cases before.symm.trans present
      obtain ⟨own, inside, same⟩ := (inherits source carries).resolve_left tagged
      rw [← same] at tagged ⊢
      exact ih before inside tagged
    cases carried with
    | falls _ present flows => exact inherited present (flow_inherits flows).1
    | branch _ present flows _ listed plain => exact inherited present ((flow_inherits flows).2 _ listed plain)
    | setup found _ flows listed handler =>
      have setup := ((flow_edges flows).2 _ listed).2.2 handler
      cases modern.symm.trans (planned.setup_legacy found setup)
    | @raises o p' r stamp found present protects raises =>
      simp only [caughtPoint, pushAll_eq] at carries
      rcases List.mem_append.mp carries with pushed | kept
      · obtain ⟨slot, listed, rfl⟩ := List.mem_map.mp (List.mem_reverse.mp pushed)
        refine ⟨i, o, p', ⟨found, present⟩, ?_, raises⟩
        simp only [Analysis.protecting?, modern] at protects
        exact (regionIn?_spec numbered protects).1.symm.trans (state_region listed).symm
      · cases before.symm.trans present
        exact ih before (List.mem_of_mem_drop kept) tagged

/-- A row of the handler table agrees with the shape at its handler: the region protects something, and its
exception state stands right on top of what it keeps. -/
structure Tallies (l : Lowered) (r : Region) : Prop where
  depth : 0 ≤ r.depth
  span : r.start < r.stop
  level : r.entryDepth.toInt = r.depth.toInt + r.slotCount
  entry : ∃ s, l.entry? r.handler = some s ∧ (s.depth : Int) = r.entryDepth.toInt ∧
    s.slots.drop r.depth.toInt.toNat = r.state

/-- A region is live when an instruction leads to its handler as one that catches exceptions. Where regions
are set up, that is done by setting it up, so that any instruction will do that is reached inside it; one at
the very end of the machine's numbers, which ends before it starts, does not count. Where regions are
tabled, it takes an instruction that may raise. -/
inductive Live (fn : Function) (r : Region) : Prop
  | setUp {plan : Plan} {bound : Array Bound} {analysis : Analysis.State} {i : Nat} {o : Bound} {p : Point}
      (prepared : prepare fn = .ok (plan, bound, analysis)) (legacy : plan.dialect = .legacy)
      (reached : Reached bound analysis i o p) (inside : ⟨r.id, false⟩ ∈ p.blocks)
      (ends : o.inst.offset < Analysis.stopOf fn i o.inst.offset) : Live fn r
  | tabled {plan : Plan} {bound : Array Bound} {analysis : Analysis.State} {i : Nat} {o : Bound} {p : Point}
      (prepared : prepare fn = .ok (plan, bound, analysis)) (modern : plan.dialect = .modern)
      (reached : Reached bound analysis i o p) (protects : plan.protecting i = r.id)
      (raises : o.opcode.mayRaise = true) : Live fn r

section
variable {fn : Function} {l : Lowered} {r : Region}

private theorem lowered_regions {events : List Lowering.Event} (lowered : lower fn = (.ok l, events))
    (prepared : prepare fn = .ok (plan, bound, analysis)) :
    l.regions = analysis.regions.filter fun r => Emission.reached fn analysis r.handler := by
  unfold lower at lowered
  simp only [prepared] at lowered
  split at lowered
  · cases lowered
  · next made events finished =>
    cases lowered
    unfold finish at finished
    dsimp only at finished
    split at finished
    · cases finished
    · split at finished
      · cases finished
      · split at finished <;> cases finished
        rfl

private theorem Lowers.handler_entry (lowers : Lowers fn l plan bound analysis) (offsets : OwnOffsets fn)
    (member : r ∈ analysis.regions) {q : Point}
    (known : analysis.point? (Analysis.indexOf plan.function r.handler) = some q) :
    l.entry? r.handler = some q.shape := by
  obtain ⟨j, index⟩ :=
    Option.isSome_iff_exists.mp (lowers.stable.placing lowers.planned member).handler
  have place : Analysis.indexOf plan.function r.handler = j := by simp [Analysis.indexOf, index]
  obtain ⟨o, there, same⟩ := lowers.settled.located index (place ▸ known)
  have found := (lowers.planned.bounds there.found).1
  rw [lowers.function] at found
  rw [← same]
  exact entry_found offsets lowers.entries found there.point

private theorem Lowers.entry_point (lowers : Lowers fn l plan bound analysis) {offset : Int64} {s : Stack}
    (entry : l.entry? offset = some s) : ∃ j q, analysis.point? j = some q ∧ q.shape = s := by
  unfold Lowered.entry? at entry
  obtain ⟨⟨place, shape⟩, found, rfl⟩ := Option.map_eq_some_iff.mp entry
  have listed := List.mem_reverse.mp (List.mem_of_find?_eq_some found)
  rw [lowers.entries, List.mem_filterMap] at listed
  obtain ⟨⟨inst, j⟩, _, same⟩ := listed
  obtain ⟨q, known, equal⟩ := Option.map_eq_some_iff.mp same
  exact ⟨j, q, known, congrArg Prod.snd equal⟩

private theorem Numbered.owner {regions : List Region} (numbered : Numbered regions)
    (member : r ∈ regions) : r.id ≠ 0 := by
  intro zero
  have found := numbered.find member
  rw [zero] at found
  cases found

private theorem Lowers.slotCount (lowers : Lowers fn l plan bound analysis) (member : r ∈ analysis.regions) :
    r.state.length = r.slotCount := by
  have numbered := lowers.planned.numbered.later lowers.stable.regions
  obtain ⟨draft, before, later⟩ := regionIn?_earlier lowers.stable.regions (numbered.find member)
  have drafted := lowers.planned.regions draft (regionIn?_mem before)
  unfold Region.state Region.slotCount
  cases dialect : r.dialect with
  | legacy =>
    have legacy : plan.dialect = .legacy := drafted.own.symm.trans (later.dialect.symm.trans dialect)
    rw [later.lasti, (drafted.legacy legacy).1]
    rfl
  | modern => cases r.lasti <;> rfl

private theorem Lowers.tallies (lowers : Lowers fn l plan bound analysis) (offsets : OwnOffsets fn)
    (member : r ∈ analysis.regions) {stamp : Nat} {s : Stack} {blocks : List Block}
    (covers : Covers analysis (Analysis.indexOf plan.function r.handler) ⟨s.pushAll stamp r.state, blocks⟩)
    (positive : 0 ≤ r.depth) (kept : s.depth = r.depth.toInt.toNat) (span : r.start < r.stop)
    (level : r.entryDepth = r.depth + Int64.ofNat r.slotCount) : Tallies l r := by
  have numbered := lowers.planned.numbered.later lowers.stable.regions
  have slots := lowers.slotCount member
  have ⟨q, known, _⟩ := covers
  obtain ⟨depth, state⟩ := covers.state known (numbered.owner member)
  have small := (lowers.stable.sane _ q known).1
  simp only [addressable] at small
  have above : (0 : Int) ≤ r.depth.toInt := by simpa [Int64.le_iff_toInt_le] using positive
  have entry : r.entryDepth.toInt = r.depth.toInt + r.slotCount := by
    rw [level, ← ofNat_toNat positive, ← Int64.ofNat_add, Int64.toInt_ofNat_of_lt (by omega),
      Int64.toInt_ofNat_of_lt (by omega)]
    push_cast
    rfl
  refine ⟨positive, span, entry, q.shape, lowers.handler_entry offsets member known, ?_, kept ▸ state⟩
  rw [entry, depth, slots, kept]
  omega

private theorem stopOf_after (increasing : (fn.instructions.toList.map Instruction.offset).Pairwise (· < ·))
    {i : Nat} {inst : Instruction} (found : fn.instructions[i]? = some inst) (positive : 0 ≤ inst.offset)
    (ends : 0 ≤ Analysis.stopOf fn i inst.offset) : inst.offset < Analysis.stopOf fn i inst.offset := by
  unfold Analysis.stopOf at ends ⊢
  cases following : fn.instructions[i + 1]? with
  | some next =>
    obtain ⟨first, rfl⟩ := Array.getElem?_eq_some_iff.mp found
    obtain ⟨second, rfl⟩ := Array.getElem?_eq_some_iff.mp following
    have ordered := List.pairwise_iff_getElem.mp increasing i (i + 1) (by simpa using first)
      (by simpa using second) (Nat.lt_succ_self i)
    simpa using ordered
  | none =>
    simp only [following, Int64.le_iff_toInt_le, Int64.lt_iff_toInt_lt, Int64.toInt_add, Int64.toInt_zero,
      Int64.reduceToInt, Int.bmod] at positive ends ⊢
    have upper := inst.offset.toInt_lt
    split at ends <;> split <;> omega

private theorem Lowers.live_tallies (lowers : Lowers fn l plan bound analysis) (offsets : OwnOffsets fn)
    (member : r ∈ analysis.regions) (live : Live fn r) : Tallies l r := by
  have numbered := lowers.planned.numbered.later lowers.stable.regions
  obtain ⟨ready, analysed⟩ := prepare_ready lowers.prepared
  obtain ⟨visited, idle⟩ := analyze_idle analysed
  have function := lowers.function
  cases live with
  | @setUp _ _ _ i o p prepared legacy reached inside ends =>
    cases prepared.symm.trans lowers.prepared
    have extents := visited.extents ready legacy
      fun i o found => (lowers.planned.separate (function ▸ offsets)).positive i o found
    have spans : Spans plan i o r := by
      rcases extents.spans i o p reached with queued | spans
      · rw [idle] at queued
        cases queued
      · exact spans r member inside
    obtain ⟨before, below, split⟩ := List.append_of_mem inside
    obtain ⟨k, q, ⟨o', r', found, setup, opens, id⟩, known, _⟩ :=
      ((Recorded.visited visited).orderly lowers.planned legacy).based i p reached.point _ below
        (split ▸ List.suffix_append before _)
    obtain ⟨s, stamp, blocks, present, depth, covers⟩ :=
      (lowers.blocked offsets legacy).fixes ⟨found, known⟩ setup opens
    have same : Plan.regionIn? analysis.regions r'.id = some r := id ▸ numbered.find member
    cases same.symm.trans present
    have small := (lowers.stable.sane k q known).1
    have positive : 0 ≤ r.depth := depth ▸ height_positive small
    simp only [addressable] at small
    refine lowers.tallies offsets member covers positive ?_ ?_ (extents.level r member positive)
    · rw [depth, Stack.height, Int64.toInt_ofNat_of_lt (by omega), Int.toNat_natCast]
    · have start := spans.start
      have stop := spans.stop
      rw [function] at stop
      rw [Int64.lt_iff_toInt_lt] at ends ⊢
      rw [Int64.le_iff_toInt_le] at start stop
      omega
  | @tabled _ _ _ i o p prepared modern reached protects raises =>
    cases prepared.symm.trans lowers.prepared
    have protected_ : Analysis.protecting? plan analysis i p = some r := by
      simp only [Analysis.protecting?, modern, protects]
      exact numbered.find member
    obtain ⟨small, rooted, _⟩ := lowers.stable.sane i p reached.point
    obtain ⟨_, positive, _⟩ := protecting?_spec lowers.planned lowers.stable.regions rooted protected_
    obtain ⟨deep, edge⟩ :=
      (lowers.stable.processed i o p reached.found reached.point).raises r protected_
    obtain ⟨_, stamp, covers⟩ := edge raises
    have declared := visited.declared lowers.planned modern (ofFunction_declared ready.drafted modern) r member
    refine lowers.tallies offsets member covers positive ?_ declared.span declared.level
    simp only [addressable] at small
    have below : r.depth.toInt.toNat ≤ p.shape.depth := toNat_le_of_not_lt (by omega) deep
    simp only [Stack.depth, Stack.truncate, List.length_drop] at below ⊢
    omega

private theorem Lowers.tallies_live (lowers : Lowers fn l plan bound analysis) (offsets : OwnOffsets fn)
    (increasing : (fn.instructions.toList.map Instruction.offset).Pairwise (· < ·))
    (member : r ∈ analysis.regions) (tallies : Tallies l r) : Live fn r := by
  have numbered := lowers.planned.numbered.later lowers.stable.regions
  obtain ⟨ready, analysed⟩ := prepare_ready lowers.prepared
  have function := lowers.function
  cases dialect : plan.dialect with
  | legacy =>
    have positive : ∀ (i : Nat) (o : Bound), bound[i]? = some o → 0 ≤ o.inst.offset :=
      fun i o found => (lowers.planned.separate (function ▸ offsets)).positive i o found
    have extents := (analyze_visited analysed).extents ready dialect positive
    have start := extents.start r member
    have span := tallies.span
    rw [Int64.le_iff_toInt_le] at start
    rw [Int64.lt_iff_toInt_lt] at span
    rcases extents.stop r member with never | ⟨i, o, p, reached, inside, stop⟩
    · rw [never] at span
      omega
    · have found := (lowers.planned.bounds reached.found).1
      rw [function] at found stop
      refine .setUp lowers.prepared dialect reached inside
        (stopOf_after increasing found (positive i o reached.found) ?_)
      rw [← stop, Int64.le_iff_toInt_le]
      simp only [Int64.reduceToInt, Int64.toInt_zero] at start ⊢
      omega
  | modern =>
    obtain ⟨s, entry, _, state⟩ := tallies.entry
    obtain ⟨slot, owned⟩ : ∃ slot, slot ∈ r.state := by
      unfold Region.state
      split
      · exact ⟨_, List.mem_cons_self⟩
      · split <;> exact ⟨_, List.mem_cons_self⟩
    obtain ⟨j, q, known, rfl⟩ := lowers.entry_point entry
    have listed : slot ∈ q.shape.slots := List.mem_of_mem_drop (state ▸ owned)
    obtain ⟨cell, inside, rfl⟩ := List.mem_map.mp (List.mem_reverse.mp listed)
    have owner := state_region owned
    obtain ⟨i, o, p, reached, protects, raises⟩ := (lowers.stable.sane j q known).2.2.tagged lowers.planned
      lowers.stable dialect known inside (owner ▸ numbered.owner member)
    exact .tabled lowers.prepared dialect reached (protects.trans owner) raises

/-- Every row of the handler table of a lowered function has a shape at its handler. It tallies with that
shape just if its region is live. -/
theorem handlers_tally {events : List Lowering.Event}
    (positive : ∀ inst ∈ fn.instructions.toList, 0 ≤ inst.offset)
    (increasing : (fn.instructions.toList.map Instruction.offset).Pairwise (· < ·))
    (lowered : lower fn = (.ok l, events)) (listed : r ∈ l.regions) :
    (∃ s, l.entry? r.handler = some s) ∧ (Tallies l r ↔ Live fn r) := by
  obtain ⟨plan, bound, analysis, lowers⟩ := lower_lowers lowered
  have distinct : (fn.instructions.toList.map Instruction.offset).Nodup := by
    refine increasing.imp fun less same => ?_
    rw [same] at less
    exact Int64.lt_irrefl less
  have offsets : OwnOffsets fn := ⟨positive, distinct⟩
  rw [lowered_regions lowered lowers.prepared] at listed
  obtain ⟨member, reached⟩ := List.mem_filter.mp listed
  exact ⟨Option.isSome_iff_exists.mp ((entry_reached offsets lowers r.handler).mpr reached),
    lowers.tallies_live offsets increasing member, lowers.live_tallies offsets member⟩

end

/-- A function that sets a region up, and then jumps over the instruction that sets up another one, to where
the handler of that one starts. -/
def leaping : Function where
  name := "f"
  version := ⟨3, 9⟩
  constants := #[.int 1]
  instructions := #[{ offset := 0, code := Opcode.setupFinally.code, arg := 6 },
    { offset := 2, code := Opcode.popBlock.code },
    { offset := 4, code := Opcode.jumpForward.code, arg := 12 },
    { offset := 6, code := Opcode.popExcept.code },
    { offset := 8, code := Opcode.jumpForward.code, arg := 12 },
    { offset := 10, code := Opcode.setupFinally.code, arg := 12 },
    { offset := 12, code := Opcode.loadConst.code }, { offset := 14, code := Opcode.returnValue.code }]

private theorem lower_leaping : ∃ l events, lower leaping = (.ok l, events) ∧
    l.regions = [⟨1, .legacy, 2, 4, 6, 0, false, 3, 0⟩, ⟨2, .legacy, -1, -1, 12, -1, false, 0, 1⟩] ∧
    (l.entry? 6).map Stack.slots =
      some [.owned .excType 1, .owned .excValue 1, .owned .excTraceback 1] := by
  have checked : lowersTo leaping (fun _ _ _ l =>
      l.regions == [⟨1, .legacy, 2, 4, 6, 0, false, 3, 0⟩, ⟨2, .legacy, -1, -1, 12, -1, false, 0, 1⟩] &&
        (l.entry? 6).map Stack.slots ==
          some [.owned .excType 1, .owned .excValue 1, .owned .excTraceback 1]) = true := by
    decide +kernel
  obtain ⟨_, _, _, l, events, prepared, finished, holds⟩ := lowersTo_spec checked
  simp only [Bool.and_eq_true, beq_iff_eq] at holds
  exact ⟨l, events, lower_of_finish prepared finished, holds⟩

theorem leaping_tallies : ∃ l events r, lower leaping = (.ok l, events) ∧ r ∈ l.regions ∧ Tallies l r ∧
    Live leaping r := by
  obtain ⟨l, events, lowered, regions, slots⟩ := lower_leaping
  obtain ⟨s, entry, state⟩ := Option.map_eq_some_iff.mp slots
  have tallies : Tallies l ⟨1, .legacy, 2, 4, 6, 0, false, 3, 0⟩ := by
    refine ⟨by decide, by decide, by decide, s, entry, ?_, state⟩
    have depth : s.depth = 3 := by
      have length := congrArg List.length state
      simpa [Stack.slots, Stack.depth] using length
    rw [depth]
    rfl
  have listed : ⟨1, .legacy, 2, 4, 6, 0, false, 3, 0⟩ ∈ l.regions := regions ▸ List.mem_cons_self
  have rows := handlers_tally (by decide) (by decide) lowered listed
  exact ⟨l, events, _, lowered, listed, tallies, rows.2.mp tallies⟩

/-- The second region is in the table, though its depth and its extent were never found. -/
theorem leaping_strays : ∃ l events r, lower leaping = (.ok l, events) ∧ r ∈ l.regions ∧
    r.depth = -1 ∧ r.start = -1 ∧ r.stop = -1 ∧ ¬ Tallies l r := by
  obtain ⟨l, events, lowered, regions, _⟩ := lower_leaping
  refine ⟨l, events, ⟨2, .legacy, -1, -1, 12, -1, false, 0, 1⟩, lowered, by simp [regions], rfl, rfl, rfl,
    fun tallies => ?_⟩
  exact absurd tallies.depth (by decide)

end Lowering.Proofs
