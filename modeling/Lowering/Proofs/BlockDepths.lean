import Lowering.Proofs.TableDepths

/-! Depths in a function with blocks. Its walk need not get to every instruction that the analysis gets to,
since a handler is analysed as soon as it is set up; but wherever it gets, it finds the depth of the
shape. -/

namespace Lowering.Proofs
open Host Shape Guest Emission

variable {plan : Plan} {bound : Array Bound} {analysis : Analysis.State} {maxDepth : Int64} {d : Depths}
  {i j : Nat} {o o' : Bound} {p q : Point}

/-- The handler of a region is reached with the exception state above what the region keeps. -/
structure Landing (bound : Array Bound) (analysis : Analysis.State) (r : Region) (j : Nat) (o : Bound)
    (q : Point) : Prop where
  member : r ∈ analysis.regions
  positive : 0 ≤ r.depth
  reached : Reached bound analysis j o q
  place : o.inst.offset = r.handler
  depth : q.shape.depth = r.depth.toInt.toNat + r.state.length

theorem RegionLater.state {r later : Region} (same : RegionLater r later) : later.state = r.state := by
  unfold Region.state
  rw [same.dialect, same.lasti, same.id]

/-- What sets a region up has fixed its depth, and its edge to the handler carries the exception state. -/
theorem Blocked.fixes (blocked : Blocked plan bound analysis) (reached : Reached bound analysis i o p)
    (setup : o.opcode = .setupFinally) {r : Region} (found : plan.setupRegion? o.inst.offset = some r) :
    ∃ s stamp blocks, (contextOf plan analysis).region? r.id = some s ∧ s.depth = p.shape.height ∧
      Covers analysis (Analysis.indexOf plan.function s.handler) ⟨p.shape.pushAll stamp s.state, blocks⟩ := by
  have processed := blocked.stable.processed i o p reached.found reached.point
  obtain ⟨_, s, same, present, depth⟩ := processed.fixes setup
  cases same.symm.trans found
  obtain ⟨stamp, flow, next, flows, _, branches, _⟩ := processed.flows
  have edge : ∃ e ∈ flow.branches, e.target = o.arg ∧ e.shape = p.shape.pushAll stamp r.state := by
    simp only [Bound.flow, setup, found] at flows
    cases flows
    exact ⟨_, List.mem_singleton_self _, rfl, rfl⟩
  obtain ⟨e, listed, target, shape⟩ := edge
  obtain ⟨_, covers⟩ := branches e listed
  have known : Plan.regionIn? plan.regions r.id = some r := by
    unfold Plan.setupRegion? at found
    split at found
    · cases found
    · exact blocked.planned.numbered.find (regionIn?_mem found)
  obtain ⟨s', again, later⟩ := regionIn?_later blocked.stable.regions known
  cases present.symm.trans again
  rw [target, shape, ← later.state, ← blocked.handler i o r reached.found setup found, ← later.handler] at covers
  exact ⟨s, stamp, _, present, depth, covers⟩

/-- The handler of a region that is set up is reached. -/
theorem Blocked.lands (blocked : Blocked plan bound analysis) (reached : Reached bound analysis i o p)
    (setup : o.opcode = .setupFinally) {r : Region} (found : plan.setupRegion? o.inst.offset = some r) :
    ∃ s j o' q, (contextOf plan analysis).region? r.id = some s ∧ Landing bound analysis s j o' q := by
  obtain ⟨s, stamp, blocks, present, depth, covers⟩ := blocked.fixes reached setup found
  obtain ⟨j, o', q, _, index, there, place, _⟩ := blocked.catches (regionIn?_mem present) covers
  have point : analysis.point? (Analysis.indexOf plan.function s.handler) = some q := by
    simpa [Analysis.indexOf, index] using there.point
  have small := (blocked.stable.sane i p reached.point).1
  simp only [addressable] at small
  have level : s.depth.toInt.toNat = p.shape.depth := by
    rw [depth, Stack.height, Int64.toInt_ofNat_of_lt (by omega), Int.toNat_natCast]
  refine ⟨s, j, o', q, present, regionIn?_mem present, ?_, there, place, ?_⟩
  · rw [depth, Stack.height]
    exact Int64.zero_le_ofNat_of_lt (by omega)
  · rw [covers.depth point, level, pushAll_eq]
    simp [Stack.depth, Nat.add_comm]

/-- The handlers of some blocks are reached. -/
def Landed (plan : Plan) (bound : Array Bound) (analysis : Analysis.State) (blocks : List Block) : Prop :=
  ∀ b ∈ blocks, ∃ r j o q, (contextOf plan analysis).region? b.region = some r ∧
    Landing bound analysis r j o q

theorem Blocked.landed (blocked : Blocked plan bound analysis) (reached : Reached bound analysis i o p) :
    Landed plan bound analysis p.blocks := by
  refine blocked.invariant nofun ?_ ?_ ?_ reached
  · intro i o p r running reached setup found below b member
    rcases List.mem_cons.mp member with rfl | old
    · exact blocked.lands reached setup found
    · exact below b old
  · intro b below landed other member
    exact landed other (.tail _ member)
  · intro b below landed other member
    rcases List.mem_cons.mp member with rfl | old
    · exact landed b List.mem_cons_self
    · exact landed other (.tail _ old)

theorem ownAt_mark (plan : Plan) (bound : Array Bound) (analysis : Analysis.State) (i : Nat) (o : Bound)
    (p : Point) : ownAt plan bound analysis i o p =
      markOf analysis o ++ o.expand plan (iterationLabel plan bound analysis i o p) p.shape := rfl

theorem mem_markOf {op : Operation} (member : op ∈ markOf analysis o) : op = .label o.inst.offset := by
  unfold markOf at member
  split at member
  · exact List.mem_singleton.mp member
  · cases member

/-- A part of the code: the blocks that protect it, the depths at which it may be entered, through the
labels at its head, and the ways in which it may be left. -/
structure Part where
  start : Nat
  operations : List Operation
  blocks : List Block
  head : Nat
  entry : Nat → Prop
  way : Option Label → Nat → Prop

/-- The parts of a function with blocks. An iteration is also left at the label that it jumps to when it
goes on. -/
inductive PartOf (plan : Plan) (bound : Array Bound) (analysis : Analysis.State) (maxDepth : Int64) :
    Part → Prop
  | lead {i : Nat} {o : Bound} {p : Point} (reached : Reached bound analysis i o p) :
      PartOf plan bound analysis maxDepth ⟨leadStart plan bound analysis i,
        leadAt plan bound analysis i o, p.blocks, 0, fun _ => True,
        fun exit depth => (exit = none ∨ exit = some o.inst.offset) ∧ depth = p.shape.depth⟩
  | own {i : Nat} {o : Bound} {p : Point} {stamp : Nat} {flow : Flow} {next : List Block}
      (reached : Reached bound analysis i o p) (flows : o.flow plan stamp p.shape = .ok flow)
      (edges : Edges plan analysis i o p flow next) :
      PartOf plan bound analysis maxDepth ⟨ownStart plan bound analysis i o,
        ownAt plan bound analysis i o p, p.blocks, (markOf analysis o).length, fun n => n = p.shape.depth,
        fun exit depth => Way (iterationLabel plan bound analysis i o p) o flow exit depth ∨
          (exit = none ∧ flow.falls = true ∧ depth = flow.next.depth)⟩
  | cleanup {i : Nat} {o : Bound} {p : Point} {entry : Cleanup} {start : Nat}
      (reached : Reached bound analysis i o p) (part : entry.below <:+ p.blocks)
      (member : entry ∈ cleanupsOf plan bound analysis)
      (found : (routineOf plan bound analysis maxDepth).labelIndex? entry.label = some start) :
      PartOf plan bound analysis maxDepth ⟨start, restore (contextOf plan analysis) entry, entry.below,
        0, fun _ => True, fun _ _ => False⟩

/-- The walk may be at an index with a depth: in some part, which it will leave in a known way. -/
def Berth (plan : Plan) (bound : Array Bound) (analysis : Analysis.State) (maxDepth : Int64)
    (k n : Nat) : Prop :=
  ∃ part m, PartOf plan bound analysis maxDepth part ∧ m < part.operations.length ∧
    k = part.start + m ∧ n ≤ addressable + 1 + 2 * m ∧ (m ≤ part.head → part.entry n) ∧
    ∀ exit depth, Quits (part.operations.drop m) n exit depth → part.way exit depth

/-- Where a part stands, and how it is protected. -/
theorem Blocked.part (blocked : Blocked plan bound analysis) {part : Part}
    (parts : PartOf plan bound analysis maxDepth part) : ∃ origin protection,
      Stands (routineOf plan bound analysis maxDepth) part.start part.operations origin protection ∧
      Guards (contextOf plan analysis) (cleanupsOf plan bound analysis) part.blocks protection ∧
      ∃ i o p, Reached bound analysis i o p ∧ part.blocks <:+ p.blocks := by
  have guards : ∀ {i : Nat} {p : Point} {protection : Option Protection},
      Guarded (contextOf plan analysis) (cleanupsOf plan bound analysis) i p protection →
      Guards (contextOf plan analysis) (cleanupsOf plan bound analysis) p.blocks protection := by
    intro i p protection guarded
    unfold Guarded at guarded
    rwa [show (contextOf plan analysis).plan.dialect = .legacy from blocked.legacy] at guarded
  cases parts with
  | @lead i o p reached =>
    obtain ⟨_, protection, guarded, stands, _⟩ := blocked.instruction reached maxDepth
    exact ⟨_, protection, stands, guards guarded, i, o, p, reached, List.suffix_rfl⟩
  | @own i o p _ _ _ reached =>
    obtain ⟨_, protection, guarded, _, stands⟩ := blocked.instruction reached maxDepth
    exact ⟨_, protection, stands, guards guarded, i, o, p, reached, List.suffix_rfl⟩
  | @cleanup i o p entry start reached part member found =>
    obtain ⟨first, origin, protection, _, guards, stands, again⟩ := blocked.cleanup member maxDepth
    cases found.symm.trans again
    exact ⟨origin, protection, stands, guards, i, o, p, reached, part⟩

theorem PartOf.depthAfter_head {part : Part} (parts : PartOf plan bound analysis maxDepth part) {m n : Nat}
    {op : Operation} (head : m < part.head) (found : part.operations[m]? = some op) : depthAfter n op = n := by
  cases parts with
  | lead | cleanup => cases head
  | @own i o p =>
    dsimp only at head found
    rw [ownAt_mark, List.getElem?_append_left head] at found
    rw [mem_markOf (List.mem_of_getElem? found)]
    rfl

/-- The operands and results of a part can be counted. -/
theorem PartOf.fair (settled : Settled plan bound analysis)
    (countable : ∀ (i : Nat) (o : Bound), bound[i]? = some o → Countable o) {part : Part}
    (parts : PartOf plan bound analysis maxDepth part) : part.operations.all Proofs.fair = true := by
  cases parts with
  | lead => exact lead_fair ..
  | own reached => exact settled.fair reached (countable _ _ reached.found)
  | cleanup => rfl

private theorem Quits.after {operations rest : List Operation} {n depth : Nat} {exit : Option Label}
    (quits : Quits (operations ++ rest) n exit depth) (straight : operations.all passes = true) :
    Quits rest (operations.foldl depthAfter n) exit depth := by
  have same : Mirrors rest (operations.foldl depthAfter n) (Quits rest (operations.foldl depthAfter n)) :=
    ⟨fun _ _ => id, fun _ _ _ => id⟩
  exact (Mirrors.append operations straight fun _ => same).sound exit depth quits

private theorem quits_mark (analysis : Analysis.State) (o : Bound) (m : Nat) {rest : List Operation}
    {n depth : Nat} {exit : Option Label} :
    Quits ((markOf analysis o).drop m ++ rest) n exit depth ↔ Quits rest n exit depth := by
  have label : Quits (.label o.inst.offset :: rest) n exit depth ↔ Quits rest n exit depth := by
    constructor
    · intro quits
      have split : Quits ([Operation.label o.inst.offset] ++ rest) n exit depth := quits
      exact split.after rfl
    · intro quits
      exact ⟨Int.natCast_nonneg n, .inr ⟨rfl, quits⟩⟩
  unfold markOf
  split
  · cases m with
    | zero => exact label
    | succ m =>
      rw [List.drop_succ_cons, List.drop_nil]
      rfl
  · rw [List.drop_nil]
    rfl

private theorem lead_quits {c : Context} {offset : Int64} {regions : List Region} {n depth : Nat}
    {exit : Option Label} (quits : Quits (lead c offset true regions) n exit depth) :
    (exit = none ∨ exit = some offset) ∧ depth = n := by
  cases regions with
  | nil =>
    obtain ⟨rfl, rfl⟩ := quits
    exact ⟨.inl rfl, rfl⟩
  | cons r rest =>
    obtain ⟨_, ⟨_, rfl, rfl⟩ | ⟨falls, _⟩⟩ := quits
    · exact ⟨.inr rfl, rfl⟩
    · cases falls

theorem Blocked.berth_fallen (blocked : Blocked plan bound analysis) (reached : Reached bound analysis i o p)
    (falls : (stage (contextOf plan analysis) (labelledHandlers plan analysis).1 bound i).2 = true)
    (berth : Berth plan bound analysis maxDepth (ownStart plan bound analysis i o) p.shape.depth) :
    Berth plan bound analysis maxDepth (leadStart plan bound analysis i) p.shape.depth := by
  by_cases empty : leadAt plan bound analysis i o = []
  · simpa [ownStart, empty] using berth
  · have small := (blocked.stable.sane i p reached.point).1
    refine ⟨_, 0, .lead reached, List.length_pos_iff.mpr empty, rfl, by omega, fun _ => trivial, ?_⟩
    intro exit depth quits
    rw [List.drop_zero] at quits
    dsimp only at quits
    rw [leadAt, falls] at quits
    exact lead_quits quits

/-- An instruction that falls through has the depth of its successor. -/
theorem Settled.level (settled : Settled plan bound analysis) (reached : Reached bound analysis i o p)
    {stamp : Nat} {flow : Flow} {next : List Block} (flows : o.flow plan stamp p.shape = .ok flow)
    (edges : Edges plan analysis i o p flow next) (falls : flow.falls = true) :
    ∃ o' q, Reached bound analysis (i + 1) o' q ∧ q.shape.depth = flow.next.depth ∧
      (stage (contextOf plan analysis) (labelledHandlers plan analysis).1 bound (i + 1)).2 = true := by
  have through : o.opcode.terminates = false := by
    have same := (flow_edges flows).1
    rw [falls] at same
    simpa using same.symm
  obtain ⟨o', q, there, _, staged⟩ := settled.successor reached through
  exact ⟨o', q, there, (edges.falls falls).2.depth there.point, staged⟩

/-- An instruction without operations behind its label is fallen through, at the same depth. -/
theorem Blocked.passed (blocked : Blocked plan bound analysis) (reached : Reached bound analysis i o p)
    {m : Nat} (head : m ≤ (markOf analysis o).length)
    (beyond : ¬ m < (ownAt plan bound analysis i o p).length) :
    ∃ o' q, Reached bound analysis (i + 1) o' q ∧ q.shape.depth = p.shape.depth ∧
      (stage (contextOf plan analysis) (labelledHandlers plan analysis).1 bound (i + 1)).2 = true ∧
      ownStart plan bound analysis i o + m = leadStart plan bound analysis (i + 1) := by
  have following := (blocked.instruction reached 0).1
  rw [ownAt_mark, List.length_append] at beyond following
  have empty : o.expand plan (iterationLabel plan bound analysis i o p) p.shape = [] :=
    List.length_eq_zero_iff.mp (by omega)
  obtain ⟨stamp, flow, next, flows, edges⟩ := blocked.processed reached
  have quits : Quits (ownAt plan bound analysis i o p) p.shape.depth none p.shape.depth := by
    rw [ownAt_mark, empty]
    exact (quits_mark analysis o 0).mpr ⟨rfl, rfl⟩
  obtain ⟨falls, depth, _⟩ | ⟨e, _, _, jumps, _⟩ :=
    way_iff.mp ((blocked.mirrors reached flows).sound none _ quits)
  · obtain ⟨o', q, there, level, staged⟩ := blocked.level reached flows edges falls
    exact ⟨o', q, there, level.trans depth.symm, staged, by omega⟩
  · cases jumps

theorem Blocked.berth (blocked : Blocked plan bound analysis) (reached : Reached bound analysis i o p)
    {m : Nat} (head : m ≤ (markOf analysis o).length) :
    Berth plan bound analysis maxDepth (ownStart plan bound analysis i o + m) p.shape.depth := by
  obtain ⟨n, distance⟩ : ∃ n, bound.size - i = n := ⟨_, rfl⟩
  induction n generalizing i o p m with
  | zero =>
    have inside := (Array.getElem?_eq_some_iff.mp reached.found).1
    omega
  | succ n ih =>
    by_cases short : m < (ownAt plan bound analysis i o p).length
    · obtain ⟨stamp, flow, next, flows, edges⟩ := blocked.processed reached
      have small := (blocked.stable.sane i p reached.point).1
      refine ⟨_, m, .own reached flows edges, short, rfl, by omega, fun _ => rfl,
        fun exit depth quits => .inl ((blocked.mirrors reached flows).sound exit depth ?_)⟩
      dsimp only at quits
      rw [ownAt_mark, List.drop_append_of_le_length head, quits_mark] at quits
      exact (quits_mark analysis o 0).mpr quits
    · obtain ⟨o', q, there, level, staged, place⟩ := blocked.passed reached head short
      rw [place, ← level]
      exact blocked.berth_fallen there staged (ih there (Nat.zero_le _) (by omega))

theorem Blocked.berth_after (blocked : Blocked plan bound analysis) {part : Part}
    (parts : PartOf plan bound analysis maxDepth part) {depth : Nat} (way : part.way none depth) :
    Berth plan bound analysis maxDepth (part.start + part.operations.length) depth := by
  cases parts with
  | lead reached =>
    obtain ⟨_, rfl⟩ := way
    exact blocked.berth (m := 0) reached (Nat.zero_le _)
  | @own _ _ _ _ flow _ reached flows edges =>
    have through : flow.falls = true ∧ depth = flow.next.depth := by
      rcases way with way | ⟨_, falls, level⟩
      · obtain ⟨falls, level, _⟩ | ⟨e, _, _, jumps, _⟩ := way_iff.mp way
        · exact ⟨falls, level⟩
        · cases jumps
      · exact ⟨falls, level⟩
    obtain ⟨o', q, there, level, staged⟩ := blocked.level reached flows edges through.1
    dsimp only
    rw [← (blocked.instruction reached maxDepth).1, through.2, ← level]
    exact blocked.berth_fallen there staged (blocked.berth (m := 0) there (Nat.zero_le _))
  | cleanup => exact way.elim

theorem Blocked.berth_jump (blocked : Blocked plan bound analysis) {part : Part}
    (parts : PartOf plan bound analysis maxDepth part) {label : Label} {depth target : Nat}
    (way : part.way (some label) depth)
    (found : (routineOf plan bound analysis maxDepth).labelIndex? label = some target) :
    Berth plan bound analysis maxDepth target depth := by
  cases parts with
  | lead reached =>
    obtain ⟨same, rfl⟩ := way
    cases Option.some.inj (same.resolve_left nofun)
    rw [blocked.target reached found]
    exact blocked.berth (m := 0) reached (Nat.zero_le _)
  | @own i o p stamp flow next reached flows edges =>
    rcases way with way | ⟨other, _⟩
    · cases way with
      | again falls iterates =>
        -- The label at the end of an iteration.
        obtain ⟨before, _, split⟩ := ownAt_iteration plan bound analysis i p iterates
        obtain ⟨_, _, _, _, stands⟩ := blocked.instruction reached maxDepth
        have last := stands before.length _ (by rw [split]; exact List.getElem?_concat_length)
        obtain ⟨o', q, there, level, _⟩ := blocked.level reached flows edges falls
        have small := (blocked.stable.sane (i + 1) q there.point).1
        refine ⟨_, before.length, .own reached flows edges, by dsimp only; rw [split]; simp,
          Option.some.inj (found.symm.trans (blocked.label last.1)), by omega, fun head => ?_,
          fun exit depth quits => ?_⟩
        · have length := congrArg List.length split
          simp only [ownAt_mark, Bound.expand, iterates, List.length_append, List.length_cons,
            List.length_nil] at length
          dsimp only at head
          omega
        · dsimp only at quits
          rw [split, List.drop_left] at quits
          obtain ⟨_, ⟨jumps, _⟩ | ⟨_, rfl, rfl⟩⟩ := quits
          · cases jumps
          · exact .inr ⟨rfl, falls, rfl⟩
      | branch listed plain =>
        obtain ⟨_, covers⟩ := edges.branches _ listed plain
        obtain ⟨same, jumps, _⟩ := (flow_edges flows).2 _ listed
        have somewhere := jumps_somewhere (blocked.followable reached).checked jumps
        rw [← same] at somewhere
        obtain ⟨o', q, there, place, _⟩ := blocked.offset somewhere covers
        rw [← place] at found
        rw [blocked.target there found]
        have arrives : Berth plan bound analysis maxDepth _ q.shape.depth :=
          blocked.berth (m := 0) there (Nat.zero_le _)
        rwa [covers.depth there.point] at arrives
    · cases other
  | cleanup => exact way.elim

theorem Blocked.berth_raise (blocked : Blocked plan bound analysis) (reached : Reached bound analysis i o p)
    {blocks : List Block} (part : blocks <:+ p.blocks) {handler : Label} {depth : Int64}
    (guards : Guards (contextOf plan analysis) (cleanupsOf plan bound analysis) blocks
      (some ⟨handler, depth⟩)) {target : Nat}
    (found : (routineOf plan bound analysis maxDepth).labelIndex? handler = some target) :
    0 ≤ depth ∧ Berth plan bound analysis maxDepth target (depth.toInt.toNat + 1) := by
  cases guards with
  | @caught region below _ labelled =>
    obtain ⟨r, j, o', q, known, landing⟩ := blocked.landed reached _ (part.subset List.mem_cons_self)
    have known : (contextOf plan analysis).region? region = some r := known
    have small := (blocked.stable.sane j q landing.reached.point).1
    have same := (regionIn?_spec blocked.numbered known).1
    rw [depthOf, known, Option.map_some, Option.getD_some]
    refine ⟨landing.positive, ?_⟩
    rw [← same] at labelled
    obtain ⟨before, rest, split, first⟩ :=
      blocked.prologue landing.member labelled landing.reached landing.place maxDepth
    have depth := landing.depth
    refine ⟨_, before.length, .lead landing.reached, by dsimp only; rw [split]; simp,
      Option.some.inj (found.symm.trans first), by omega, fun _ => trivial, ?_⟩
    dsimp only
    rw [split, List.drop_left, ← List.cons_append]
    intro exit depth quits
    have later := quits.after (prologue_passes r)
    rw [List.foldl_cons, show depthAfter _ (.label handler) = r.depth.toInt.toNat + 1 from rfl, prologue_level,
      ← landing.depth] at later
    exact lead_quits later
  | @unwound cleanup member running =>
    obtain ⟨r, j, o', q, known, landing⟩ := blocked.landed reached _ (part.subset List.mem_cons_self)
    have small := (blocked.stable.sane j q landing.reached.point).1
    have depth := landing.depth
    rw [depthOf, known, Option.map_some, Option.getD_some]
    refine ⟨landing.positive, _, 0, .cleanup reached ((List.suffix_cons _ _).trans part) member found,
      Nat.zero_lt_succ _, rfl, by omega, fun _ => trivial, ?_⟩
    intro exit depth quits
    simp [restore, Quits, Operation.target?, Operation.terminates] at quits

/-- The walk may start at the first operation. A prologue there finds no exception, so that the walk gets
stuck in it. -/
theorem Blocked.berth_entry (blocked : Blocked plan bound analysis) (reached : Reached bound analysis 0 o p) :
    Berth plan bound analysis maxDepth 0 0 := by
  have depth : p.shape.depth = 0 := blocked.stable.entry.depth reached.point
  have first := blocked.first
  cases handlers : handlersAt (contextOf plan analysis) o.inst.offset with
  | nil =>
    have arrives : Berth plan bound analysis maxDepth _ _ :=
      blocked.berth (m := 0) reached (Nat.zero_le _)
    rw [depth, ownStart, first, leadAt, handlers] at arrives
    exact arrives
  | cons r rest =>
    have member : r ∈ analysis.regions := (mem_handlersAt.mp (handlers ▸ List.mem_cons_self)).1
    have dialect : r.dialect = .legacy :=
      (blocked.stable.placing blocked.planned member).dialect.trans blocked.legacy
    have code : leadAt plan bound analysis 0 o =
        .label (((contextOf plan analysis).catch? r.id).getD 0) :: r.prologue ++
          lead (contextOf plan analysis) o.inst.offset true rest := by
      rw [leadAt, handlers, lead]
      rfl
    refine ⟨_, 0, .lead reached, by dsimp only; rw [code]; simp, first.symm, by omega, fun _ => trivial, ?_⟩
    dsimp only
    rw [code, Region.prologue, dialect]
    intro exit depth quits
    have starved : Quits ([Operation.label _, .getHandled, .storeLocal r.scratch] ++ _) 0 exit depth := quits
    have enough : (1 : Int) ≤ (0 : Nat) := (starved.after rfl).1
    omega

private theorem Berth.operation (blocked : Blocked plan bound analysis)
    (countable : ∀ (i : Nat) (o : Bound), bound[i]? = some o → Countable o) {k n : Nat} {op : Operation}
    (berth : Berth plan bound analysis maxDepth k n)
    (found : (routineOf plan bound analysis maxDepth).ops[k]? = some op)
    (enough : ¬ Int64.ofNat n < op.pops) :
    Int64.ofNat n - op.pops + op.pushes = Int64.ofNat (depthAfter n op) ∧ op.pops.toInt ≤ n ∧
      ∃ part m, PartOf plan bound analysis maxDepth part ∧ m < part.operations.length ∧
        k = part.start + m ∧ depthAfter n op ≤ addressable + 1 + 2 * (m + 1) ∧
        (m + 1 ≤ part.head → part.entry (depthAfter n op)) ∧
        ∀ exit depth, Quits (op :: part.operations.drop (m + 1)) n exit depth →
          part.way exit depth := by
  obtain ⟨part, m, parts, inside, rfl, low, entry, ways⟩ := berth
  obtain ⟨origin, protection, stands, _⟩ := blocked.part parts
  have present := stands.found inside found
  obtain ⟨_, rfl⟩ := List.getElem?_eq_some_iff.mp present
  have size := blocked.size maxDepth
  have short := stands.short
  simp only [addressable] at size low
  have fair := List.all_eq_true.mp (parts.fair blocked.toSettled countable) _ (List.getElem_mem inside)
  have taken := (enough_iff (by omega)).mp enough
  obtain ⟨after, few⟩ := depthAfter_fits fair taken
  refine ⟨after, taken, part, m, parts, inside, rfl, by simp only [addressable]; omega, fun head => ?_, ?_⟩
  · rw [parts.depthAfter_head head present]
    exact entry (Nat.le_of_lt head)
  · rw [← List.drop_eq_getElem_cons inside]
    exact ways

/-- Wherever the walk may be, it goes on to where it may be. -/
theorem Blocked.closed (blocked : Blocked plan bound analysis)
    (countable : ∀ (i : Nat) (o : Bound), bound[i]? = some o → Countable o)
    (reached : Reached bound analysis 0 o p) (maxDepth : Int64) :
    Closed (routineOf plan bound analysis maxDepth) fun k depth =>
      ∃ n, depth = Int64.ofNat n ∧ Berth plan bound analysis maxDepth k n where
  entry := ⟨0, rfl, blocked.berth_entry reached⟩
  raises := by
    rintro k _ region target ⟨n, rfl, part, m, parts, inside, rfl, _⟩ _ covering found
    obtain ⟨origin, protection, stands, guards, i, o, p, here, part⟩ := blocked.part parts
    have protects := (stands m _ (List.getElem?_eq_getElem inside)).2.2
    rw [covering, Option.map_some] at protects
    obtain ⟨positive, berth⟩ := blocked.berth_raise here part (protects ▸ guards) found
    refine ⟨_, ?_, berth⟩
    rw [Int64.ofNat_add, ofNat_toNat positive]
    rfl
  jumps := by
    rintro k _ op label target ⟨n, rfl, berth⟩ operation enough named found
    obtain ⟨after, taken, part, m, parts, _, _, _, _, ways⟩ :=
      berth.operation blocked countable operation enough
    have way : part.way (some label) (depthAfter n op) :=
      ways _ _ ⟨taken, .inl ⟨by rw [named]; rfl, named.symm, rfl⟩⟩
    exact ⟨_, after, blocked.berth_jump parts way found⟩
  falls := by
    rintro k _ op ⟨n, rfl, berth⟩ operation enough falls
    obtain ⟨after, taken, part, m, parts, inside, rfl, low, entry, ways⟩ :=
      berth.operation blocked countable operation enough
    refine ⟨_, after, ?_⟩
    have onward : ∀ exit depth, Quits (part.operations.drop (m + 1)) (depthAfter n op) exit depth →
        part.way exit depth := fun exit depth quits => ways exit depth ⟨taken, .inr ⟨falls, quits⟩⟩
    by_cases more : m + 1 < part.operations.length
    · exact ⟨part, m + 1, parts, more, rfl, low, entry, onward⟩
    · rw [List.drop_eq_nil_of_le (by omega)] at onward
      have berth := blocked.berth_after parts (onward none _ ⟨rfl, rfl⟩)
      rwa [show part.operations.length = m + 1 by omega] at berth

private theorem PartOf.covers (setting : Setting plan bound analysis) {part : Part} {m : Nat}
    (parts : PartOf plan bound analysis maxDepth part) (inside : m < part.operations.length)
    (reached : Reached bound analysis i o p) (lower : leadStart plan bound analysis i ≤ part.start + m)
    (upper : part.start + m < leadStart plan bound analysis (i + 1)) :
    (part.start = leadStart plan bound analysis i ∧ part.operations = leadAt plan bound analysis i o ∧
      part.way = fun exit depth => (exit = none ∨ exit = some o.inst.offset) ∧ depth = p.shape.depth) ∨
    (part.start = ownStart plan bound analysis i o ∧ part.head = (markOf analysis o).length ∧
      part.entry = fun n => n = p.shape.depth) := by
  cases parts with
  | @lead j o' q there =>
    have next := (setting.instruction there maxDepth).1
    dsimp only at *
    have same : i = j := leadStart_unique lower upper (by omega) (by rw [next, ownStart]; omega)
    subst same
    cases reached.found.symm.trans there.found
    cases reached.point.symm.trans there.point
    exact .inl ⟨rfl, rfl, rfl⟩
  | @own j o' q _ _ _ there =>
    have next := (setting.instruction there maxDepth).1
    dsimp only at *
    have same : i = j := leadStart_unique lower upper (by rw [ownStart]; omega) (by omega)
    subst same
    cases reached.found.symm.trans there.found
    cases reached.point.symm.trans there.point
    exact .inr ⟨rfl, rfl, rfl⟩
  | cleanup _ _ member found =>
    obtain ⟨start, _, _, after, _, _, again⟩ := setting.cleanup member maxDepth
    cases found.symm.trans again
    have within := (Array.getElem?_eq_some_iff.mp reached.found).1
    have order : leadStart plan bound analysis (i + 1) ≤ leadStart plan bound analysis bound.size :=
      place_mono within
    dsimp only at *
    omega

private theorem Berth.around (setting : Setting plan bound analysis)
    (reached : Reached bound analysis i o p)
    (staged : (stage (contextOf plan analysis) (labelledHandlers plan analysis).1 bound i).2 = true)
    (some : leadAt plan bound analysis i o ≠ []) {n : Nat}
    (berth : Berth plan bound analysis maxDepth (leadStart plan bound analysis i) n) :
    n = p.shape.depth := by
  obtain ⟨part, m, parts, inside, place, _, _, ways⟩ := berth
  have following := (setting.instruction reached maxDepth).1
  have longer := List.length_pos_iff.mpr some
  rw [ownStart] at following
  rcases parts.covers setting inside reached (by omega) (by omega) with ⟨start, code, way⟩ | ⟨start, _⟩
  · have first : m = 0 := by omega
    rw [way, code, first, List.drop_zero] at ways
    cases handlers : handlersAt (contextOf plan analysis) o.inst.offset with
    | nil =>
      rw [leadAt, handlers] at some
      exact absurd rfl some
    | cons r rest =>
      rw [leadAt, handlers, staged] at ways
      exact (ways (Option.some o.inst.offset) n ⟨Int.natCast_nonneg n, .inl ⟨rfl, rfl, rfl⟩⟩).2
  · rw [ownStart] at start
    omega

theorem Blocked.berth_depth (blocked : Blocked plan bound analysis)
    (reached : Reached bound analysis i o p) {m n : Nat} (head : m ≤ (markOf analysis o).length)
    (berth : Berth plan bound analysis maxDepth (ownStart plan bound analysis i o + m) n) :
    n = p.shape.depth := by
  obtain ⟨distance, same⟩ : ∃ distance, bound.size - i = distance := ⟨_, rfl⟩
  induction distance generalizing i o p m with
  | zero =>
    have inside := (Array.getElem?_eq_some_iff.mp reached.found).1
    omega
  | succ distance ih =>
    by_cases short : m < (ownAt plan bound analysis i o p).length
    · obtain ⟨part, m', parts, inside, place, _, entry, _⟩ := berth
      have following := (blocked.instruction reached maxDepth).1
      rcases parts.covers blocked.toSetting inside reached (by rw [← place, ownStart]; omega) (by omega)
        with ⟨start, code, _⟩ | ⟨start, labels, depth⟩
      · rw [code] at inside
        rw [start, ownStart] at place
        omega
      · rw [labels, depth] at entry
        exact entry (by omega)
    · obtain ⟨o', q, there, level, staged, place⟩ := blocked.passed reached head short
      rw [place] at berth
      rw [← level]
      by_cases none : leadAt plan bound analysis (i + 1) o' = []
      · exact ih there (Nat.zero_le _) (by simpa [ownStart, none] using berth) (by omega)
      · exact berth.around blocked.toSetting there staged none

/-- In a function with blocks the walk gets to an instruction with the depth of its shape, or it does not
get there. -/
theorem Blocked.walked (blocked : Blocked plan bound analysis)
    (countable : ∀ (i : Nat) (o : Bound), bound[i]? = some o → Countable o)
    (accepted : Depths.ofRoutine (routineOf plan bound analysis maxDepth) = .ok d)
    (reached : Reached bound analysis i o p) {m : Nat} (head : m ≤ (markOf analysis o).length) :
    d.before[ownStart plan bound analysis i o + m]? = some (-1) ∨
      d.before[ownStart plan bound analysis i o + m]? = some (Int64.ofNat p.shape.depth) := by
  have some := blocked.present maxDepth
  obtain ⟨first, q, entry, _⟩ := @Setting.entry (fun _ => true) _ _ _ blocked.toSetting
  have closed := blocked.closed countable entry maxDepth
  have inside : ownStart plan bound analysis i o + m < d.before.size := by
    have berth : Berth plan bound analysis maxDepth _ _ := blocked.berth reached head
    obtain ⟨part, m', parts, within, place, _⟩ := berth
    obtain ⟨_, _, stands, _⟩ := blocked.part parts
    rw [(ofRoutine_agrees some accepted).size, place]
    exact (Array.getElem?_eq_some_iff.mp (stands m' _ (List.getElem?_eq_getElem within)).1).1
  have found := Array.getElem?_eq_getElem inside
  rcases ofRoutine_closed closed some accepted _ _ found with missing | ⟨n, depth, berth⟩
  · exact .inl (missing ▸ found)
  · rw [blocked.berth_depth reached head berth] at depth
    exact .inr (depth ▸ found)

end Lowering.Proofs
