import Lowering.Proofs.Dispatch
import Lowering.Proofs.HandlerExit

/-! Control in a lowered legacy function, whatever its helpers answer. -/

namespace Lowering.Proofs
open Machine Host Shape Guest Emission

variable {plan : Plan} {bound : Array Bound} {analysis : Analysis.State} {maxDepth : Int64}

/-- What an operation of an instruction may do: it jumps where the instruction does or within it, it
changes no local but those of the function, and only where exception state is entered or left does
it set the register of the handled exception. -/
structure Ordinary (plan : Plan) (fresh : Label) (o : Bound) (op : Operation) : Prop where
  jumps : ∀ label, op.target? = some label →
    (label = o.arg ∧ o.opcode.jumps = true ∧ o.opcode ≠ .setupFinally) ∨
    (label = fresh ∧ o.opcode = .forIter)
  touches : ∀ i, touched? op = some i → i < plan.function.localCount
  sets : op = .setHandled → o.opcode = .popExcept ∨ o.opcode = .pushExcInfo

/-- The operation neither jumps nor changes a local or the register. -/
private def inert : Operation → Bool
  | .goto _ | .ifTrue _ | .ifFalse _ | .storeLocal _ | .deleteLocal _ | .setHandled => false
  | _ => true

private theorem Ordinary.inert {fresh : Label} {o : Bound} {op : Operation}
    (quiet : Proofs.inert op = true) : Ordinary plan fresh o op := by
  cases op <;> first | (cases quiet; done) | exact ⟨nofun, nofun, nofun⟩

private theorem Ordinary.jump {fresh : Label} {o : Bound} {op : Operation} {opcode : Opcode}
    (same : o.opcode = opcode) (target : op.target? = some o.arg) (jumps : opcode.jumps = true)
    (other : opcode ≠ .setupFinally) (spares : touched? op = none) : Ordinary plan fresh o op where
  jumps label found := .inl ⟨(Option.some.inj (target.symm.trans found)).symm, same ▸ jumps, same ▸ other⟩
  touches _ touched := absurd (spares.symm.trans touched) nofun
  sets set := by rw [set] at target; cases target

private theorem Ordinary.store {fresh : Label} {o : Bound} {op : Operation} (straight : op.target? = none)
    (spares : touched? op = some o.arg.toInt.toNat) (other : op ≠ .setHandled)
    (inside : Bound.inRange "local" o.arg plan.function.localCount = none) : Ordinary plan fresh o op where
  jumps _ target := absurd (straight.symm.trans target) nofun
  touches i touched := by
    rw [spares, Option.some.injEq] at touched
    unfold Bound.inRange at inside
    split at inside
    · cases inside
    · next within =>
      simp only [Bool.or_eq_true, decide_eq_true_eq, not_or] at within
      omega
  sets same := absurd same other

theorem expand_ordinary {fresh : Label} {o : Bound} {s : Stack}
    (checked : Bound.check plan.function o = none) :
    ∀ op ∈ o.expand plan fresh s, Ordinary plan fresh o op := by
  have operand : Bound.badOperand plan.function o = none := by
    unfold Bound.check at checked
    split at checked
    · cases checked
    · exact checked
  have quiet : ∀ operations : List Operation, operations.all inert = true →
      ∀ op ∈ operations, Ordinary plan fresh o op :=
    fun _ all op member => .inert (List.all_eq_true.mp all op member)
  cases opcode : o.opcode <;> simp only [Bound.expand, Bound.badOperand, opcode] at operand ⊢
  case storeFast | deleteFast =>
    simpa using .store rfl rfl (by rintro ⟨⟩) operand
  case jumpForward | jumpAbsolute | jumpBackward =>
    simpa using .jump opcode rfl rfl (by decide) rfl
  case popJumpIfFalse | popJumpIfTrue | jumpIfNotExcMatch =>
    simp only [List.forall_mem_cons, List.not_mem_nil, false_implies, implies_true, and_true]
    repeat' apply And.intro
    all_goals first | exact .inert rfl | exact .jump opcode rfl rfl (by decide) rfl
  case forIter =>
    have inside : Ordinary plan fresh o (.ifTrue fresh) :=
      ⟨fun _ target => .inr ⟨(Option.some.inj target).symm, opcode⟩, by rintro _ ⟨⟩, by rintro ⟨⟩⟩
    simp only [List.forall_mem_cons, List.not_mem_nil, false_implies, implies_true, and_true]
    repeat' apply And.intro
    all_goals first | exact .inert rfl | exact inside | exact .jump opcode rfl rfl (by decide) rfl
  case popExcept =>
    intro op member
    refine ⟨?_, ?_, fun _ => .inl opcode⟩
    all_goals
      intro _ found
      unfold Plan.leave at member
      split at member
      · rw [List.mem_singleton.mp member] at found
        cases found
      · simp only [List.mem_append, List.mem_replicate, List.mem_cons, List.not_mem_nil, or_false]
          at member
        rcases member with ⟨_, rfl⟩ | rfl | rfl
        · cases found
        · split at found <;> cases found
        · cases found
  case pushExcInfo =>
    have sets : Ordinary plan fresh o .setHandled := ⟨by rintro _ ⟨⟩, by rintro _ ⟨⟩, fun _ => .inr opcode⟩
    simp only [List.forall_mem_cons, List.not_mem_nil, false_implies, implies_true, and_true]
    exact ⟨.inert rfl, .inert rfl, .inert rfl, sets⟩
  case reraise =>
    unfold Guest.reraise
    split
    · exact quiet _ rfl
    · split <;> exact quiet _ rfl
  case raiseVarargs =>
    split
    · exact quiet _ rfl
    · split <;> exact quiet _ rfl
  case loadGlobal | loadAttr => split <;> exact quiet _ rfl
  all_goals exact quiet _ rfl

theorem expand_ends (plan : Plan) (fresh : Label) {o : Bound} (s : Stack)
    (ends : o.opcode.terminates = true) :
    ∃ before, ∃ op : Operation, o.expand plan fresh s = before ++ [op] ∧ op.terminates = true := by
  cases opcode : o.opcode <;> rw [opcode] at ends <;>
    first | (cases ends; done) | simp only [Bound.expand, opcode]
  case reraise =>
    unfold Guest.reraise
    split
    · exact ⟨[.pop, .swap 1, .pop], _, rfl, rfl⟩
    · split
      · exact ⟨[], _, rfl, rfl⟩
      · exact ⟨[.swap 1, .pop], _, rfl, rfl⟩
  case raiseVarargs =>
    split
    · exact ⟨[.getHandled], _, rfl, rfl⟩
    · split
      · exact ⟨[_], _, rfl, rfl⟩
      · exact ⟨[_], _, rfl, rfl⟩
  all_goals exact ⟨[], _, rfl, rfl⟩

theorem ownAt_ordinary {i : Nat} {o : Bound} {p : Point} (checked : Bound.check plan.function o = none)
    {op : Operation} (member : op ∈ ownAt plan bound analysis i o p) :
    Ordinary plan (iterationLabel plan bound analysis i o p) o op := by
  rcases mem_own member with rfl | expanded
  · exact .inert rfl
  · exact expand_ordinary checked op expanded

/-- Control falls through an instruction without operations. -/
theorem ownAt_empty {i : Nat} {o : Bound} {p : Point} (empty : ownAt plan bound analysis i o p = []) :
    o.opcode.terminates = false := by
  by_contra ends
  obtain ⟨before, op, expanded, _⟩ := expand_ends plan (iterationLabel plan bound analysis i o p)
    p.shape (Bool.not_eq_false _ ▸ ends)
  unfold ownAt own at empty
  rw [show (contextOf plan analysis).plan = plan from rfl, expanded] at empty
  simp at empty

/-- Control falls through an instruction whose last operation it falls through. -/
theorem ownAt_ends {i m : Nat} {o : Bound} {p : Point} {op : Operation}
    (found : (ownAt plan bound analysis i o p)[m]? = some op)
    (last : m + 1 = (ownAt plan bound analysis i o p).length) (falls : op.terminates = false) :
    o.opcode.terminates = false := by
  by_contra ends
  obtain ⟨before, other, expanded, stops⟩ := expand_ends plan (iterationLabel plan bound analysis i o p)
    p.shape (Bool.not_eq_false _ ▸ ends)
  have split : ∃ front, ownAt plan bound analysis i o p = front ++ [other] := by
    unfold ownAt own
    rw [show (contextOf plan analysis).plan = plan from rfl, expanded, ← List.append_assoc]
    exact ⟨_, rfl⟩
  obtain ⟨front, split⟩ := split
  rw [split, List.length_append, List.length_singleton] at last
  rw [split, show m = front.length by omega, List.getElem?_concat_length] at found
  cases found
  cases stops.symm.trans falls

theorem pushExcInfo_modern {v : Version} {dialect : Dialect} {behavior : Behavior}
    (resolved : resolve? .pushExcInfo v = some (dialect, behavior)) : dialect = .modern := by
  have version := resolve?_dialect resolved
  obtain ⟨rule, listed, opcode, since, _⟩ := resolve?_rule resolved
  have rules : ∀ rule ∈ policy, rule.opcode = .pushExcInfo →
      rule = ⟨.pushExcInfo, .exceptionTable, .zero, { exceptionSlots := 1 }⟩ := by decide
  rw [rules rule listed opcode] at since
  unfold dialectOf? at version
  rw [if_pos since] at version
  exact (Option.some.inj version).symm

/-- Only where a handler is left does a legacy function set the register. -/
theorem Settled.sets (settled : Settled plan bound analysis) (legacy : plan.dialect = .legacy) {i : Nat}
    {o : Bound} {p : Point} (reached : Reached bound analysis i o p)
    (member : .setHandled ∈ ownAt plan bound analysis i o p) : o.opcode = .popExcept := by
  rcases (ownAt_ordinary (settled.followable reached).checked member).sets rfl with leaves | enters
  · exact leaves
  · obtain ⟨_, made⟩ := settled.planned.bounds reached.found
    have resolved := (ofInstruction_spec made).2.2.1
    have dialect := resolve?_dialect resolved
    rw [settled.planned.dialect, legacy] at dialect
    rw [enters] at resolved
    cases (Option.some.inj dialect).trans (pushExcInfo_modern resolved)

/-- Indices between the same instructions. -/
theorem leadStart_unique {i j k : Nat} (lower : leadStart plan bound analysis i ≤ k)
    (upper : k < leadStart plan bound analysis (i + 1)) (above : leadStart plan bound analysis j ≤ k)
    (below : k < leadStart plan bound analysis (j + 1)) : i = j := by
  have order : ∀ {a b : Nat}, a ≤ b → leadStart plan bound analysis a ≤ leadStart plan bound analysis b :=
    place_mono
  rcases Nat.lt_trichotomy i j with less | same | more
  · have before := order (show i + 1 ≤ j from less)
    omega
  · exact same
  · have before := order (show j + 1 ≤ i from more)
    omega

/-- The instruction that control falls into. -/
theorem Settled.successor (settled : Settled plan bound analysis) {i : Nat} {o : Bound} {p : Point}
    (reached : Reached bound analysis i o p) (falls : o.opcode.terminates = false) :
    ∃ o' q, Reached bound analysis (i + 1) o' q ∧ Turns plan o p.blocks q.blocks ∧
      (stage (contextOf plan analysis) (labelledHandlers plan analysis).1 bound (i + 1)).2 = true := by
  obtain ⟨stamp, flow, next, flows, edges⟩ := settled.processed reached
  have through : flow.falls = true := by
    rw [(flow_edges flows).1, falls]
    rfl
  obtain ⟨inside, q, point, blocks, _⟩ := edges.falls through
  have continues := (settled.stable.processed i o p reached.found reached.point).falls
  rw [falls] at continues
  exact ⟨_, q, ⟨Array.getElem?_eq_getElem (settled.planned.size ▸ inside), point⟩,
    blocks ▸ edges.turns, stage_falls reached.found reached.point continues⟩

/-- An instruction that jumps does so to an instruction that is reached, and that has a label. -/
theorem Setting.branch (setting : Setting plan bound analysis) {i : Nat} {o : Bound} {p : Point}
    (reached : Reached bound analysis i o p) (jumps : o.opcode.jumps = true)
    (other : o.opcode ≠ .setupFinally) : ∃ j o' q, Reached bound analysis j o' q ∧
      o'.inst.offset = o.arg ∧ o.arg ∈ analysis.targets ∧ Turns plan o p.blocks q.blocks := by
  obtain ⟨stamp, flow, next, flows, edges⟩ := setting.processed reached
  obtain ⟨e, listed, same⟩ := flow_jumps flows jumps
  have plain : e.handler = false := by
    cases handler : e.handler with
    | false => rfl
    | true => exact absurd (((flow_edges flows).2 e listed).2.2 handler) other
  obtain ⟨target, covers⟩ := edges.branches e listed plain
  rw [same] at target covers
  have checked := (setting.followable reached).checked
  obtain ⟨o', q, there, place, _⟩ := setting.offset (jumps_somewhere checked jumps) covers
  obtain ⟨_, point, blocks, _⟩ := covers
  have known := there.point.symm.trans point
  cases known
  exact ⟨_, o', q, there, place, target, blocks ▸ edges.turns⟩

/-- Where an operation of an instruction jumps: to another instruction, or to the end of an iteration. -/
theorem Setting.jumps (setting : Setting plan bound analysis) {i : Nat} {o : Bound} {p : Point}
    (reached : Reached bound analysis i o p) {op : Operation}
    (member : op ∈ ownAt plan bound analysis i o p) {label : Label} (target : op.target? = some label)
    {ip : Nat} (found : (routineOf plan bound analysis maxDepth).labelIndex? label = some ip) :
    (∃ j o' q, Reached bound analysis j o' q ∧ Turns plan o p.blocks q.blocks ∧
      ip = ownStart plan bound analysis j o') ∨
    (o.opcode = .forIter ∧ ∃ m < (ownAt plan bound analysis i o p).length,
      ip = ownStart plan bound analysis i o + m) := by
  have checked := (setting.followable reached).checked
  rcases (ownAt_ordinary checked member).jumps label target with ⟨rfl, jumps, other⟩ | ⟨rfl, iterates⟩
  · obtain ⟨j, o', q, there, place, _, turns⟩ := setting.branch reached jumps other
    rw [← place] at found
    exact .inl ⟨j, o', q, there, turns, setting.target there found⟩
  · obtain ⟨before, _, split⟩ := ownAt_iteration plan bound analysis i p iterates
    obtain ⟨_, _, _, _, stands⟩ := setting.instruction reached maxDepth
    have last := stands before.length _ (by rw [split]; exact List.getElem?_concat_length)
    have place := found.symm.trans (setting.label last.1)
    exact .inr ⟨iterates, before.length, by rw [split]; simp, Option.some.inj place⟩

/-- A legacy function: what sets a block up names the handler of its region. -/
structure Blocked (plan : Plan) (bound : Array Bound) (analysis : Analysis.State) : Prop
    extends Setting plan bound analysis where
  legacy : plan.dialect = .legacy
  handler : ∀ (i : Nat) (o : Bound) (r : Region), bound[i]? = some o → o.opcode = .setupFinally →
    plan.setupRegion? o.inst.offset = some r → r.handler = o.arg

/-- The regions of a legacy function are those that its instructions open. -/
theorem ofFunction_scanned {fn : Function} (drafted : Plan.ofFunction fn = .ok plan)
    (legacy : plan.dialect = .legacy) : plan.regions = (Plan.scanSetups fn).map Prod.snd ∧
      plan.setups = (Plan.scanSetups fn).map fun entry => (entry.1, entry.2.id) := by
  unfold Plan.ofFunction at drafted
  split at drafted
  · cases drafted
  · unfold Plan.ofLegacy at drafted
    split at drafted
    · cases drafted
      exact ⟨rfl, rfl⟩
    · cases drafted
  · unfold Plan.ofModern at drafted
    split at drafted <;> cases drafted
    cases legacy

theorem setupRegion?_scanned {fn : Function} (drafted : Plan.ofFunction fn = .ok plan)
    (legacy : plan.dialect = .legacy) (numbered : Numbered plan.regions) {offset : Int64} {r : Region}
    (found : plan.setupRegion? offset = some r) : (offset, r) ∈ Plan.scanSetups fn := by
  obtain ⟨regions, setups⟩ := ofFunction_scanned drafted legacy
  unfold Plan.setupRegion? at found
  split at found
  · cases found
  · next other id search =>
    have listed := List.mem_of_find?_eq_some search
    have same := List.find?_some search
    rw [setups, List.mem_reverse] at listed
    obtain ⟨⟨place, region⟩, scanned, equal⟩ := List.mem_map.mp listed
    cases equal
    have known := numbered.find (regions ▸ List.mem_map_of_mem scanned : region ∈ plan.regions)
    cases known.symm.trans found
    rwa [← eq_of_beq same]

private theorem setupRegion?_handler {fn : Function} (offsets : OwnOffsets fn)
    (drafted : Plan.ofFunction fn = .ok plan) (legacy : plan.dialect = .legacy)
    (numbered : Numbered plan.regions) {inst : Instruction} (member : inst ∈ fn.instructions.toList)
    {r : Region} (found : plan.setupRegion? inst.offset = some r) : r.handler = inst.arg := by
  have scanned := setupRegion?_scanned drafted legacy numbered found
  simp only [Plan.scanSetups, List.mem_map, Prod.mk.injEq] at scanned
  obtain ⟨⟨other, k⟩, present, same, rfl⟩ := scanned
  have kept := (List.mem_filter.mp (List.fst_mem_of_mem_zipIdx present)).1
  rw [List.inj_on_of_nodup_map offsets.distinct kept member same]

theorem Setting.blocked {fn : Function} (setting : Setting plan bound analysis) (offsets : OwnOffsets fn)
    (prepared : prepare fn = .ok (plan, bound, analysis)) (legacy : plan.dialect = .legacy) :
    Blocked plan bound analysis where
  toSetting := setting
  legacy := legacy
  handler i o r found _ opens := by
    have present := (setting.planned.bounds found).1
    rw [(prepare_planned prepared).1] at present
    have member : o.inst ∈ fn.instructions.toList := (Array.mem_of_getElem? present).val
    exact setupRegion?_handler offsets (prepare_drafted prepared) legacy setting.planned.numbered member
      opens

theorem Lowers.blocked {fn : Function} {l : Lowered} (lowers : Lowers fn l plan bound analysis)
    (offsets : OwnOffsets fn) (legacy : plan.dialect = .legacy) : Blocked plan bound analysis :=
  (lowers.setting offsets).blocked offsets lowers.prepared legacy

/-- A region of which the handler is reached while some blocks are below its own. -/
def Seat (plan : Plan) (bound : Array Bound) (analysis : Analysis.State) (region : Int64)
    (below : List Block) : Prop :=
  ∃ r label j o q, Plan.regionIn? analysis.regions region = some r ∧
    (contextOf plan analysis).catch? region = some label ∧ Reached bound analysis j o q ∧
    o.inst.offset = r.handler ∧ q.blocks = ⟨region, true⟩ :: below

/-- Every block of a list stands on the blocks with which its handler is entered. -/
def Seated (plan : Plan) (bound : Array Bound) (analysis : Analysis.State) (blocks : List Block) : Prop :=
  ∀ b below, b :: below <:+ blocks → Seat plan bound analysis b.region below

theorem Seat.unique (separate : Separate bound) {region : Int64} {a b : List Block}
    (first : Seat plan bound analysis region a) (second : Seat plan bound analysis region b) : a = b := by
  obtain ⟨r, _, i, o, p, found, _, here, place, blocks⟩ := first
  obtain ⟨s, _, j, o', q, also, _, there, other, under⟩ := second
  have same := found.symm.trans also
  cases same
  have index := separate.distinct i j o o' here.found there.found (place.trans other.symm)
  subst index
  have point := here.point.symm.trans there.point
  cases point
  have equal := blocks.symm.trans under
  exact (List.cons.inj equal).2

theorem Seated.below {b : Block} {below : List Block} (seated : Seated plan bound analysis (b :: below)) :
    Seated plan bound analysis below :=
  fun _ _ part => seated _ _ (part.trans (List.suffix_cons _ _))

theorem Seated.cons {b : Block} {below : List Block} (seat : Seat plan bound analysis b.region below)
    (seated : Seated plan bound analysis below) : Seated plan bound analysis (b :: below) := by
  intro other under part
  rcases List.suffix_cons_iff.mp part with same | inside
  · cases same
    exact seat
  · exact seated _ _ inside

theorem Seated.seat {b : Block} {blocks : List Block} (seated : Seated plan bound analysis blocks)
    (member : b ∈ blocks) : ∃ below, Seat plan bound analysis b.region below := by
  obtain ⟨before, below, rfl⟩ := List.append_of_mem member
  exact ⟨below, seated b below (List.suffix_append before _)⟩

/-- No region has two blocks. -/
theorem Seated.apart (separate : Separate bound) {b other : Block} {below : List Block}
    (seated : Seated plan bound analysis (b :: below)) (member : other ∈ below) :
    other.region ≠ b.region := by
  intro same
  obtain ⟨before, under, rfl⟩ := List.append_of_mem member
  have inner : Seat plan bound analysis other.region under :=
    seated.below _ _ (List.suffix_append before _)
  have outer := seated b _ List.suffix_rfl
  rw [same] at inner
  have lengths := congrArg List.length (inner.unique separate outer)
  simp only [List.length_append, List.length_cons] at lengths
  omega

/-- A block that is set up stands on the blocks with which its handler is entered. -/
theorem Blocked.opens (blocked : Blocked plan bound analysis) {i : Nat} {o : Bound} {p : Point}
    (reached : Reached bound analysis i o p) (setup : o.opcode = .setupFinally) {r : Region}
    (found : plan.setupRegion? o.inst.offset = some r) : Seat plan bound analysis r.id p.blocks := by
  obtain ⟨stamp, flow, next, flows, _, branches, _⟩ :=
    (blocked.stable.processed i o p reached.found reached.point).flows
  have edge : ∃ e ∈ flow.branches, e.target = o.arg ∧ e.handler = true := by
    simp only [Bound.flow, setup, found] at flows
    cases flows
    exact ⟨_, List.mem_singleton_self _, rfl, rfl⟩
  obtain ⟨e, listed, target, handler⟩ := edge
  obtain ⟨_, covers⟩ := branches e listed
  have known : Plan.regionIn? plan.regions r.id = some r := by
    unfold Plan.setupRegion? at found
    split at found
    · cases found
    · exact blocked.planned.numbered.find (regionIn?_mem found)
  obtain ⟨s, present, later⟩ := regionIn?_later blocked.stable.regions known
  rw [target, ← blocked.handler i o r reached.found setup found, ← later.handler] at covers
  obtain ⟨j, o', q, label, _, there, place, blocks, labelled⟩ :=
    blocked.catches (regionIn?_mem present) covers
  rw [later.id] at labelled
  refine ⟨s, label, j, o', q, present, labelled, there, place, blocks.trans ?_⟩
  simp only [edgeBlocks, handler, found, if_true]

/-- What holds of no blocks, and is kept when a block is set up, closed, or starts to run, holds of the
blocks of every instruction that is reached. -/
theorem Blocked.invariant (blocked : Blocked plan bound analysis) {holds : List Block → Prop}
    (none : holds [])
    (opens : ∀ {i : Nat} {o : Bound} {p : Point} {r : Region} (running : Bool),
      Reached bound analysis i o p → o.opcode = .setupFinally →
      plan.setupRegion? o.inst.offset = some r → holds p.blocks → holds (⟨r.id, running⟩ :: p.blocks))
    (closes : ∀ {b : Block} {below : List Block}, holds (b :: below) → holds below)
    (runs : ∀ {b : Block} {below : List Block}, holds (b :: below) → holds (⟨b.region, true⟩ :: below))
    {i : Nat} {o : Bound} {p : Point} (reached : Reached bound analysis i o p) : holds p.blocks := by
  have linked := (blocked.stable.sane i p reached.point).2.2
  have point := reached.point
  clear reached
  -- On the normal paths of an instruction.
  have onward : ∀ {i : Nat} {o : Bound} {p : Point} {next : List Block}, Reached bound analysis i o p →
      Turns plan o p.blocks next → holds p.blocks → holds next := by
    intro i o p next reached turns before
    have opened : ∀ r, o.opcode = .setupFinally → plan.setupRegion? o.inst.offset = some r →
        holds (⟨r.id, false⟩ :: p.blocks) := fun _ setup found => opens false reached setup found before
    generalize p.blocks = blocks at turns before opened
    cases turns with
    | opens setup found => exact opened _ setup found
    | closes | leaves => exact closes before
    | keeps => exact before
  induction linked generalizing p with
  | entry =>
    obtain ⟨q, known, blocks, _⟩ := blocked.stable.entry
    cases point.symm.trans known
    rw [blocks]
    exact none
  | @step i j before _ known leads ih =>
    have earlier := ih known
    cases leads with
    | @falls o found through =>
      obtain ⟨stamp, flow, next, flows, turns, _, further⟩ :=
        (blocked.stable.processed i o before found known).flows
      have falls : flow.falls = true := by
        rw [(flow_edges flows).1, through]
        rfl
      obtain ⟨_, q, there, blocks, _⟩ := further falls
      cases point.symm.trans there
      rw [blocks]
      exact onward ⟨found, known⟩ turns earlier
    | @jumps o found jumps =>
      obtain ⟨stamp, flow, next, flows, turns, branches, _⟩ :=
        (blocked.stable.processed i o before found known).flows
      obtain ⟨e, listed, target⟩ := flow_jumps flows jumps
      obtain ⟨_, q, there, blocks, _⟩ := branches e listed
      rw [target] at there
      cases point.symm.trans there
      rw [blocks]
      unfold edgeBlocks
      split
      · next handler =>
        obtain ⟨r, opened, _⟩ := flow_handler flows listed handler
        rw [opened]
        exact opens true ⟨found, known⟩ (((flow_edges flows).2 e listed).2.2 handler) opened earlier
      · exact onward ⟨found, known⟩ turns earlier
    | @raises o p' r found again protects raises =>
      cases known.symm.trans again
      obtain ⟨_, rooted, _⟩ := blocked.stable.sane i before known
      obtain ⟨_, _, dialect, _⟩ :=
        protecting?_spec blocked.planned blocked.stable.regions rooted protects
      obtain ⟨_, _, q, there, blocks, _⟩ :=
        ((blocked.stable.processed i o before found known).raises r protects).2 raises
      cases point.symm.trans there
      simp only [caughtPoint, dialect, blocked.legacy] at blocks
      simp only [Analysis.protecting?, blocked.legacy] at protects
      rw [blocks]
      -- The blocks that run in front of the one that catches are left behind.
      have part : ∀ part : List Block, part <:+ before.blocks → holds part := by
        generalize before.blocks = whole at earlier
        intro part inside
        induction whole with
        | nil => exact List.eq_nil_of_suffix_nil inside ▸ none
        | cons b below ih =>
          rcases List.suffix_cons_iff.mp inside with rfl | inner
          · exact earlier
          · exact ih (closes earlier) inner
      have kept := part (setupBlocks before.blocks) (List.dropWhile_suffix _)
      split at protects
      · cases protects
      · next b below setup =>
        rw [setup] at kept ⊢
        rw [(regionIn?_spec blocked.numbered protects).1]
        exact runs kept

/-- The blocks of every instruction that is reached are seated. -/
theorem Blocked.seated (blocked : Blocked plan bound analysis) {i : Nat} {o : Bound} {p : Point}
    (reached : Reached bound analysis i o p) : Seated plan bound analysis p.blocks := by
  refine blocked.invariant ?_ ?_ Seated.below ?_ reached
  · intro b below part
    cases List.eq_nil_of_suffix_nil part
  · intro i o p r running reached setup found seated
    exact .cons (blocked.opens reached setup found) seated
  · intro b below seated
    exact .cons (seated b below List.suffix_rfl) seated.below

end Lowering.Proofs
