import Lowering.Proofs.Charts
import Lowering.Proofs.Handlers

/-! The chart of a lowered function. Its pieces are the operations of every instruction, the prologues
in front of it, and the cleanups; control goes from one to the other along the edges that the
analysis followed. -/

namespace Lowering.Proofs
open Machine Host Shape Guest Emission

/-- A function whose analysis is stable and whose routine can be addressed. -/
structure Settled (plan : Plan) (bound : Array Bound) (analysis : Analysis.State) : Prop where
  planned : Planned plan bound
  stable : Stable plan bound analysis
  small : (emissionOf plan bound analysis).builder.emitted.size ≤ addressable

/-- Such a function whose instructions have offsets of their own. -/
structure Setting (plan : Plan) (bound : Array Bound) (analysis : Analysis.State) : Prop
    extends Settled plan bound analysis where
  separate : Separate bound

section
variable (plan : Plan) (bound : Array Bound) (analysis : Analysis.State)

/-- The routine of a function, whatever depth is noted in it. -/
def routineOf (maxDepth : Int64) : Routine :=
  { (emissionOf plan bound analysis).builder.build with maxDepth }

/-- The cleanups of a function. -/
def cleanupsOf : Array Cleanup := (emissionOf plan bound analysis).cleanups

/-- The index at which an instruction, with the prologues in front of it, starts. -/
def leadStart (i : Nat) : Nat :=
  place (contextOf plan analysis) (labelledHandlers plan analysis).1 bound i

/-- The prologues in front of an instruction. -/
def leadAt (i : Nat) (o : Bound) : List Operation :=
  lead (contextOf plan analysis) o.inst.offset
    (stage (contextOf plan analysis) (labelledHandlers plan analysis).1 bound i).2
    (handlersAt (contextOf plan analysis) o.inst.offset)

/-- The label that an iteration takes for itself. -/
def iterationLabel (i : Nat) (o : Bound) (p : Point) : Label :=
  freshAt (contextOf plan analysis) (labelledHandlers plan analysis).1 bound i o p

/-- The operations of an instruction. -/
def ownAt (i : Nat) (o : Bound) (p : Point) : List Operation :=
  own (contextOf plan analysis) (iterationLabel plan bound analysis i o p) o p

/-- The index at which the operations of an instruction start. -/
def ownStart (i : Nat) (o : Bound) : Nat :=
  leadStart plan bound analysis i + (leadAt plan bound analysis i o).length

end

variable {absent : Nat → Bool} {plan : Plan} {bound : Array Bound} {analysis : Analysis.State}
  {maxDepth : Int64}

theorem Settled.numbered (setting : Settled plan bound analysis) : Numbered analysis.regions :=
  setting.planned.numbered.later setting.stable.regions

/-- The instruction at an index and what is known there. -/
structure Reached (bound : Array Bound) (analysis : Analysis.State) (i : Nat) (o : Bound) (p : Point) :
    Prop where
  found : bound[i]? = some o
  point : analysis.point? i = some p

theorem Settled.instruction (setting : Settled plan bound analysis) {i : Nat} {o : Bound} {p : Point}
    (reached : Reached bound analysis i o p) (maxDepth : Int64) :
    leadStart plan bound analysis (i + 1) =
        ownStart plan bound analysis i o + (ownAt plan bound analysis i o p).length ∧
      ∃ protection,
        Guarded (contextOf plan analysis) (cleanupsOf plan bound analysis) i p protection ∧
        Stands (routineOf plan bound analysis maxDepth) (leadStart plan bound analysis i)
          (leadAt plan bound analysis i o) o.inst.offset protection ∧
        Stands (routineOf plan bound analysis maxDepth) (ownStart plan bound analysis i o)
          (ownAt plan bound analysis i o p) o.inst.offset protection := by
  obtain ⟨next, protection, guarded, stands⟩ :=
    instruction_stands setting.small reached.found reached.point
  obtain ⟨first, second⟩ := stands.append
  refine ⟨?_, protection, guarded, first, second⟩
  rw [leadStart, next, chunk, List.length_append, ← Nat.add_assoc]
  rfl

/-- A label is found where it stands. -/
theorem Setting.label (setting : Setting plan bound analysis) {label : Label} {ip : Nat}
    (defined : (routineOf plan bound analysis maxDepth).ops[ip]? = some (.label label)) :
    (routineOf plan bound analysis maxDepth).labelIndex? label = some ip := by
  obtain ⟨_, _, tidy⟩ := emissionOf_tidy setting.separate setting.numbered
    (setting.planned.size ▸ setting.planned.small) setting.small
  refine labelIndex?_of_nodup ?_ defined
  have ops : (routineOf plan bound analysis maxDepth).ops.toList =
      opsOf (emissionOf plan bound analysis) := by
    simp [routineOf, Builder.build, opsOf]
  rw [ops]
  exact tidy.nodup

/-- Where a cleanup stands. -/
theorem Setting.cleanup (setting : Setting plan bound analysis) {entry : Cleanup}
    (member : entry ∈ cleanupsOf plan bound analysis) (maxDepth : Int64) :
    ∃ start origin protection, leadStart plan bound analysis bound.size ≤ start ∧
      Guards (contextOf plan analysis) (cleanupsOf plan bound analysis) entry.below protection ∧
      Stands (routineOf plan bound analysis maxDepth) start (restore (contextOf plan analysis) entry)
        origin protection ∧
      (routineOf plan bound analysis maxDepth).labelIndex? entry.label = some start := by
  obtain ⟨n, present⟩ := Array.mem_iff_getElem?.mp member
  obtain ⟨start, origin, protection, after, guards, stands⟩ := cleanup_stands setting.small present
  have here : Stands (routineOf plan bound analysis maxDepth) start
    (restore (contextOf plan analysis) entry) origin protection := stands
  exact ⟨start, origin, protection, after, guards, here, setting.label (here 0 _ rfl).1⟩

/-- An instruction that is jumped to has its offset as a label. -/
theorem Setting.marked (setting : Setting plan bound analysis) {i : Nat} {o : Bound} {p : Point}
    (reached : Reached bound analysis i o p) (target : o.inst.offset ∈ analysis.targets) :
    (routineOf plan bound analysis maxDepth).labelIndex? o.inst.offset =
      some (ownStart plan bound analysis i o) := by
  obtain ⟨_, _, _, _, stands⟩ := setting.instruction reached maxDepth
  have first : (ownAt plan bound analysis i o p)[0]? = some (Operation.label o.inst.offset) := by
    have contained : (contextOf plan analysis).analysis.targets.contains o.inst.offset = true := by
      simpa [contextOf] using target
    rw [ownAt, own, if_pos contained]
    rfl
  exact setting.label (stands 0 _ first).1

/-- A label of a jump stands in front of the instruction with that offset. -/
theorem Setting.target (setting : Setting plan bound analysis) {i : Nat} {o : Bound} {p : Point}
    (reached : Reached bound analysis i o p) {ip : Nat}
    (found : (routineOf plan bound analysis maxDepth).labelIndex? o.inst.offset = some ip) :
    ip = ownStart plan bound analysis i o := by
  obtain ⟨_, _, tidy⟩ := emissionOf_tidy setting.separate setting.numbered
    (setting.planned.size ▸ setting.planned.small) setting.small
  obtain ⟨_, defined⟩ := findLabel_some found
  have listed : o.inst.offset ∈ labelsOf (opsOf (emissionOf plan bound analysis)) := by
    refine mem_labelsOf.mpr ?_
    have member := Array.mem_of_getElem? defined
    simpa [routineOf, Builder.build, opsOf] using member
  obtain ⟨target, _⟩ := tidy.guest _ listed (setting.separate.positive i o reached.found)
  rw [setting.marked reached target] at found
  exact (Option.some.inj found).symm

/-- The instruction with an offset. -/
theorem Settled.located (setting : Settled plan bound analysis) {offset : Int64} {j : Nat} {p : Point}
    (index : plan.function.indexOf? offset = some j) (point : analysis.point? j = some p) :
    ∃ o, Reached bound analysis j o p ∧ o.inst.offset = offset := by
  obtain ⟨inside, here, _⟩ := Array.findIdx?_eq_some_iff_getElem.mp index
  obtain ⟨o, found⟩ : ∃ o, bound[j]? = some o :=
    ⟨_, Array.getElem?_eq_getElem (setting.planned.size ▸ inside)⟩
  have same := (setting.planned.bounds found).1
  rw [Array.getElem?_eq_getElem inside, Option.some.injEq] at same
  exact ⟨o, ⟨found, point⟩, by rw [← same]; simpa using here⟩

theorem Setting.offset (setting : Setting plan bound analysis) {offset : Int64}
    (somewhere : (plan.function.indexOf? offset).isSome) {q : Point}
    (covers : Covers analysis (Analysis.indexOf plan.function offset) q) :
    ∃ o p, Reached bound analysis (Analysis.indexOf plan.function offset) o p ∧
      o.inst.offset = offset ∧
      ∀ absent, OutlineRefines (outlineAt absent plan q) (outlineAt absent plan p) := by
  obtain ⟨p, point, blocks, refines⟩ := covers
  obtain ⟨j, index⟩ := Option.isSome_iff_exists.mp somewhere
  have place : Analysis.indexOf plan.function offset = j := by simp [Analysis.indexOf, index]
  rw [place] at point ⊢
  obtain ⟨o, there, same⟩ := setting.located index point
  exact ⟨o, p, there, same, fun _ => outlineAt_refines blocks refines.refines⟩

theorem Settled.followable (setting : Settled plan bound analysis) {i : Nat} {o : Bound} {p : Point}
    (reached : Reached bound analysis i o p) : Followable plan o p := by
  obtain ⟨_, made⟩ := setting.planned.bounds reached.found
  obtain ⟨_, _, resolved, checked⟩ := ofInstruction_spec made
  obtain ⟨_, rooted, _⟩ := setting.stable.sane i p reached.point
  have dialect : o.dialect = plan.dialect := by
    have version := resolve?_dialect resolved
    rw [setting.planned.dialect] at version
    exact (Option.some.inj version).symm
  refine ⟨⟨checked, dialect, fun leaves => dialect ▸ exceptionSlots_eq leaves resolved⟩,
    fun cell member tagged legacy => ?_⟩
  obtain ⟨r, found⟩ := rooted.shape cell member tagged
  have placing := setting.stable.placing setting.planned (regionIn?_mem found)
  obtain ⟨place, outside⟩ := placing.scratch legacy
  rw [(regionIn?_spec setting.numbered found).1] at place
  exact place ▸ outside

/-- A prologue is left for its instruction, at its end or by a jump. -/
def leadExits (absent : Nat → Bool) (plan : Plan) (o : Bound) (p : Point) : Exits where
  through out := OutlineRefines out (outlineAt absent plan p)
  branch label out := label = o.inst.offset ∧ OutlineRefines out (outlineAt absent plan p)
  raise _ := False

/-- What an instruction leaves when it raises. -/
structure Raised (absent : Nat → Bool) (plan : Plan) (o : Bound) (p : Point) (out : Outline) : Prop where
  raises : o.opcode.mayRaise = true
  kept : out = { outlineAt absent plan p with stack := out.stack }
  stack : Alike (outlineAt absent plan p).stack out.stack

theorem Raised.caught {o : Bound} {p : Point} {out : Outline} (raised : Raised absent plan o p out)
    (depth : Int64) : out.caught depth = Outline.push { outlineAt absent plan p with
      stack := out.stack.drop (out.stack.length - depth.toInt.toNat) } (.ofKind .exception) := by
  obtain ⟨stack, locals, missing⟩ := out
  have kept := raised.kept
  simp only [Outline.mk.injEq, true_and] at kept
  obtain ⟨rfl, rfl⟩ := kept
  rfl

/-- A cleanup is only left by what it raises, on behalf of an instruction. -/
def cleanupExits (absent : Nat → Bool) (plan : Plan) (o : Bound) (p : Point) : Exits where
  through _ := False
  branch _ _ := False
  raise := Raised absent plan o p

/-- The edges of an instruction lead where their shapes are covered. -/
structure Edges (plan : Plan) (analysis : Analysis.State) (i : Nat) (o : Bound) (p : Point)
    (flow : Flow) (next : List Block) : Prop where
  turns : Turns plan o p.blocks next
  branches : ∀ e ∈ flow.branches, e.handler = false → e.target ∈ analysis.targets ∧
    Covers analysis (Analysis.indexOf plan.function e.target) ⟨e.shape, next⟩
  falls : flow.falls = true → i + 1 < plan.function.instructions.size ∧
    Covers analysis (i + 1) ⟨flow.next, next⟩

/-- The pieces of a function. -/
inductive PieceOf (absent : Nat → Bool) (plan : Plan) (bound : Array Bound)
    (analysis : Analysis.State) (maxDepth : Int64) : Piece → Prop
  | lead {i : Nat} {o : Bound} {p : Point} {origin : Int64} {protection : Option Protection}
      (reached : Reached bound analysis i o p)
      (stands : Stands (routineOf plan bound analysis maxDepth) (leadStart plan bound analysis i)
        (leadAt plan bound analysis i o) origin protection) :
      PieceOf absent plan bound analysis maxDepth ⟨leadStart plan bound analysis i,
        leadAt plan bound analysis i o, protection, fun _ => True, leadExits absent plan o p⟩
  | own {i : Nat} {o : Bound} {p : Point} {protection : Option Protection} {stamp : Nat} {flow : Flow}
      {next : List Block} (reached : Reached bound analysis i o p)
      (stands : Stands (routineOf plan bound analysis maxDepth) (ownStart plan bound analysis i o)
        (ownAt plan bound analysis i o p) o.inst.offset protection)
      (guarded : Guarded (contextOf plan analysis) (cleanupsOf plan bound analysis) i p protection)
      (flows : o.flow plan stamp p.shape = .ok flow) (edges : Edges plan analysis i o p flow next) :
      PieceOf absent plan bound analysis maxDepth ⟨ownStart plan bound analysis i o,
        ownAt plan bound analysis i o p, protection, fun out => out = outlineAt absent plan p,
        flowExits absent plan (iterationLabel plan bound analysis i o p) o p flow next⟩
  | cleanup {i : Nat} {o : Bound} {p : Point} {entry : Cleanup} {start : Nat} {origin : Int64}
      {protection : Option Protection} (reached : Reached bound analysis i o p)
      (legacy : plan.dialect = .legacy)
      (part : entry.below <:+ p.blocks) (setup : setupBlocks entry.below = setupBlocks p.blocks)
      (after : leadStart plan bound analysis bound.size ≤ start)
      (stands : Stands (routineOf plan bound analysis maxDepth) start
        (restore (contextOf plan analysis) entry) origin protection)
      (guards : Guards (contextOf plan analysis) (cleanupsOf plan bound analysis) entry.below
        protection) :
      PieceOf absent plan bound analysis maxDepth ⟨start, restore (contextOf plan analysis) entry, protection,
        fun _ => True, cleanupExits absent plan o p⟩

theorem lead_arrives (c : Context) {o : Bound} {p : Point} {out : Outline} (regions : List Region)
    (refines : OutlineRefines out (outlineAt absent plan p)) :
    Follows (leadExits absent plan o p) (lead c o.inst.offset true regions) out := by
  cases regions with
  | nil => exact refines
  | cons r rest =>
    refine ⟨nofun, fun next after => ⟨fun label named => ?_, nofun⟩⟩
    cases after
    cases named
    exact ⟨rfl, refines⟩

/-- The operations of an instruction are followed from what is known before it. -/
theorem Setting.follows (setting : Setting plan bound analysis) {i : Nat} {o : Bound} {p : Point}
    (reached : Reached bound analysis i o p) {stamp : Nat} {flow : Flow} {next : List Block}
    (flows : o.flow plan stamp p.shape = .ok flow)
    (turns : Turns plan o p.blocks next) :
    Follows (flowExits absent plan (iterationLabel plan bound analysis i o p) o p flow next)
      (ownAt plan bound analysis i o p) (outlineAt absent plan p) := by
  have expanded : Follows (flowExits absent plan (iterationLabel plan bound analysis i o p) o p flow next)
      (o.expand plan (iterationLabel plan bound analysis i o p) p.shape) (outlineAt absent plan p) :=
    expand_follows (setting.followable reached) flows fun _ => turns.running
  unfold ownAt own
  split
  · refine ⟨nofun, fun same after => ⟨nofun, fun _ => ?_⟩⟩
    cases after
    exact expanded
  · exact expanded

theorem Settled.processed (setting : Settled plan bound analysis) {i : Nat} {o : Bound} {p : Point}
    (reached : Reached bound analysis i o p) : ∃ stamp flow next,
      o.flow plan stamp p.shape = .ok flow ∧ Edges plan analysis i o p flow next := by
  obtain ⟨stamp, flow, next, flows, turns, branches, falls⟩ :=
    (setting.stable.processed i o p reached.found reached.point).flows
  refine ⟨stamp, flow, next, flows, turns, fun e listed plain => ?_, falls⟩
  obtain ⟨target, covers⟩ := branches e listed
  rw [edgeBlocks, if_neg (by simp [plain])] at covers
  exact ⟨target, covers⟩

/-- Where an instruction is fallen into, given that it can be arrived at. -/
theorem Setting.fallen (setting : Setting plan bound analysis) {i : Nat} {o : Bound} {p : Point}
    {out : Outline} (reached : Reached bound analysis i o p)
    (falls : (stage (contextOf plan analysis) (labelledHandlers plan analysis).1 bound i).2 = true)
    (refines : OutlineRefines out (outlineAt absent plan p))
    (lands : Lands (PieceOf absent plan bound analysis maxDepth) (ownStart plan bound analysis i o) out) :
    Lands (PieceOf absent plan bound analysis maxDepth) (leadStart plan bound analysis i) out := by
  by_cases empty : leadAt plan bound analysis i o = []
  · simpa [ownStart, empty] using lands
  · obtain ⟨_, protection, _, stands, _⟩ := setting.instruction reached maxDepth
    refine Placed.lands ⟨_, 0, .lead reached stands, List.length_pos_iff.mpr empty, rfl,
      fun _ => trivial, ?_⟩
    rw [List.drop_zero, leadAt, falls]
    exact lead_arrives _ _ refines

/-- The next instruction is fallen into. -/
theorem stage_falls {c : Context} {st : Emission.State} {i : Nat} {o : Bound} {p : Point}
    (found : bound[i]? = some o) (point : c.analysis.point? i = some p)
    (falls : c.analysis.falls[i]? = some true) : (stage c st bound (i + 1)).2 = true := by
  rw [stage, found]
  dsimp only
  rw [point]
  simp [falls]

/-- Control can be at every instruction that is reached, with what is known there. Instructions
without operations pass it on. -/
theorem Setting.lands (setting : Setting plan bound analysis) (maxDepth : Int64) {i : Nat} {o : Bound}
    {p : Point} {out : Outline} (reached : Reached bound analysis i o p)
    (refines : OutlineRefines out (outlineAt absent plan p)) :
    Lands (PieceOf absent plan bound analysis maxDepth) (ownStart plan bound analysis i o) out := by
  obtain ⟨n, distance⟩ : ∃ n, bound.size - i = n := ⟨_, rfl⟩
  induction n generalizing i o p out with
  | zero =>
    have inside := (Array.getElem?_eq_some_iff.mp reached.found).1
    omega
  | succ n ih =>
    obtain ⟨stamp, flow, next, flows, edges⟩ := setting.processed reached
    obtain ⟨following, protection, guarded, _, stands⟩ := setting.instruction reached maxDepth
    have follows : Follows (flowExits absent plan _ o p flow next) _ _ :=
      setting.follows reached flows edges.turns
    by_cases empty : ownAt plan bound analysis i o p = []
    · rw [empty] at follows
      obtain ⟨falls, through⟩ := follows
      obtain ⟨inside, q, point, blocks, covered⟩ := edges.falls falls
      obtain ⟨o', found⟩ : ∃ o', bound[i + 1]? = some o' :=
        ⟨_, Array.getElem?_eq_getElem (setting.planned.size ▸ inside)⟩
      have further : OutlineRefines out (outlineAt absent plan q) :=
        (refines.trans through).trans (outlineAt_refines blocks covered.refines)
      have continues := (setting.stable.processed i o p reached.found reached.point).falls
      rw [← (flow_edges flows).1, falls] at continues
      have same : leadStart plan bound analysis (i + 1) = ownStart plan bound analysis i o := by
        rw [following, empty]
        rfl
      rw [← same]
      exact setting.fallen ⟨found, point⟩ (stage_falls reached.found reached.point continues) further
        (ih ⟨found, point⟩ further (by omega))
    · exact ⟨outlineAt absent plan p, refines, _, 0, .own reached stands guarded flows edges,
        List.length_pos_iff.mpr empty, rfl, fun _ => rfl, follows⟩

private theorem lead_split (c : Context) (offset : Int64) (falls : Bool) {regions : List Region}
    {r : Region} (member : r ∈ regions) : ∃ before rest, lead c offset falls regions =
      before ++ .label ((c.catch? r.id).getD 0) :: (r.prologue ++ lead c offset true rest) := by
  induction regions generalizing falls with
  | nil => cases member
  | cons first regions ih =>
    rcases List.mem_cons.mp member with rfl | later
    · exact ⟨if falls then [Operation.goto offset] else [], regions, by rw [lead]; simp⟩
    · obtain ⟨before, rest, split⟩ := ih true later
      refine ⟨(if falls then [Operation.goto offset] else []) ++
        .label ((c.catch? first.id).getD 0) :: first.prologue ++ before, rest, ?_⟩
      rw [lead, split]
      simp

/-- The prologue of a handler stands in front of the instruction at which the handler starts. -/
theorem Setting.prologue (setting : Setting plan bound analysis) {r : Region}
    (member : r ∈ analysis.regions) {handler : Label}
    (labelled : (contextOf plan analysis).catch? r.id = some handler) {j : Nat} {o : Bound} {q : Point}
    (target : Reached bound analysis j o q) (place : o.inst.offset = r.handler) (maxDepth : Int64) :
    ∃ before rest, leadAt plan bound analysis j o = before ++ .label handler ::
        (r.prologue ++ lead (contextOf plan analysis) o.inst.offset true rest) ∧
      (routineOf plan bound analysis maxDepth).labelIndex? handler =
        some (leadStart plan bound analysis j + before.length) := by
  have listed : r ∈ handlersAt (contextOf plan analysis) o.inst.offset :=
    mem_handlersAt.mpr ⟨member, place.symm, handler, labelled⟩
  obtain ⟨before, rest, split⟩ := lead_split (contextOf plan analysis) o.inst.offset
    (stage (contextOf plan analysis) (labelledHandlers plan analysis).1 bound j).2 listed
  rw [labelled, Option.getD_some] at split
  obtain ⟨_, protection, _, stands, _⟩ := setting.instruction target maxDepth
  exact ⟨before, rest, split,
    setting.label (stands before.length (.label handler) (by rw [leadAt, split]; simp)).1⟩

/-- An exception that reaches the handler of the region that protects an instruction arrives at its
prologue with the bottom of the stack of the instruction. -/
theorem Setting.caught (setting : Setting plan bound analysis) {i : Nat} {o : Bound} {p : Point}
    (reached : Reached bound analysis i o p) {r : Region}
    (protects : Analysis.protecting? plan analysis i p = some r) {handler : Label}
    (labelled : (contextOf plan analysis).catch? r.id = some handler) {out : Outline}
    (raised : Raised absent plan o p out) (enough : r.depth.toInt.toNat ≤ out.stack.length) {ip : Nat}
    (found : (routineOf plan bound analysis maxDepth).labelIndex? handler = some ip) :
    Lands (PieceOf absent plan bound analysis maxDepth) ip (out.caught r.depth) := by
  obtain ⟨small, rooted, _⟩ := setting.stable.sane i p reached.point
  obtain ⟨member, _, _, _⟩ :=
    protecting?_spec setting.planned setting.stable.regions rooted protects
  have placing := setting.stable.placing setting.planned member
  obtain ⟨deep, edge⟩ :=
    (setting.stable.processed i o p reached.found reached.point).raises r protects
  obtain ⟨_, stamp, covers⟩ := edge raised.raises
  obtain ⟨o', q, target, place, refines⟩ := setting.offset placing.handler covers
  have depth : (outlineAt absent plan p).stack.length = p.shape.depth := by simp [outlineAt, Stack.depth]
  have below : r.depth.toInt.toNat ≤ (outlineAt absent plan p).stack.length := by
    rw [depth]
    exact toNat_le_of_not_lt (by simp only [addressable] at small; omega) deep
  have bottom := raised.stack.bottom below enough
  have catches : out.caught r.depth = Outline.push { outlineAt absent plan p with
      stack := (outlineAt absent plan p).stack.drop
        ((outlineAt absent plan p).stack.length - r.depth.toInt.toNat) } (.ofKind .exception) := by
    rw [raised.caught, bottom]
  have arrives := (prologued_refines placing stamp p rfl).trans (refines absent)
  obtain ⟨before, rest, split, first⟩ := setting.prologue member labelled target place maxDepth
  obtain ⟨_, protection, _, stands, _⟩ := setting.instruction target maxDepth
  rw [found] at first
  refine Placed.lands ⟨_, before.length, .lead target stands, by rw [split]; simp,
    Option.some.inj first, fun _ => trivial, ?_⟩
  rw [split, List.drop_left, catches]
  refine ⟨by rintro ⟨⟩, fun same after => ⟨by rintro _ ⟨⟩, fun _ => ?_⟩⟩
  cases after
  exact prologue_follows r (lead_arrives _ rest arrives)

/-- The blocks of an instruction name regions. -/
theorem Settled.block (setting : Settled plan bound analysis) {i : Nat} {o : Bound} {p : Point}
    (reached : Reached bound analysis i o p) {b : Block} (member : b ∈ p.blocks) :
    ∃ r ∈ analysis.regions, r.id = b.region ∧ 0 ≤ r.depth ∧
      (contextOf plan analysis).region? b.region = some r := by
  obtain ⟨_, rooted, _⟩ := setting.stable.sane i p reached.point
  obtain ⟨r, found, positive⟩ := rooted.blocks b member
  exact ⟨r, regionIn?_mem found, (regionIn?_spec setting.numbered found).1, positive, found⟩

/-- A handler that runs has saved the exception that was handled before. -/
theorem Setting.saved (setting : Setting plan bound analysis) {i : Nat} {o : Bound} {p : Point}
    (reached : Reached bound analysis i o p) (legacy : plan.dialect = .legacy) {b : Block}
    (member : b ∈ p.blocks) (runs : b.running = true) (slots : List Slot) :
    mayRaise (.loadLocal (((contextOf plan analysis).region? b.region).getD default).scratch)
      { outlineAt absent plan p with stack := slots } = false := by
  obtain ⟨r, known, same, _, found⟩ := setting.block reached member
  obtain ⟨place, outside⟩ := (setting.stable.placing setting.planned known).scratch legacy
  have saved : saves plan p r.scratch.toInt.toNat = true := by
    simp only [saves, legacy, beq_self_eq_true, Bool.true_and, Bool.or_eq_true, List.any_eq_true,
      Bool.and_eq_true, beq_iff_eq]
    exact .inr ⟨b, member, runs, by rw [place, same]⟩
  rw [found, Option.getD_some]
  exact saves_quiet outside saved slots

/-- What becomes of an exception in some of the blocks of an instruction. -/
theorem Setting.guards (setting : Setting plan bound analysis) {i : Nat} {o : Bound} {p : Point}
    (reached : Reached bound analysis i o p) (legacy : plan.dialect = .legacy) {blocks : List Block}
    (part : blocks <:+ p.blocks) (setup : setupBlocks blocks = setupBlocks p.blocks)
    {handler : Label} {depth : Int64}
    (guards : Guards (contextOf plan analysis) (cleanupsOf plan bound analysis) blocks
      (some ⟨handler, depth⟩))
    {out : Outline} (raised : Raised absent plan o p out) (enough : depth.toInt.toNat ≤ out.stack.length)
    {ip : Nat} (found : (routineOf plan bound analysis maxDepth).labelIndex? handler = some ip) :
    Lands (PieceOf absent plan bound analysis maxDepth) ip (out.caught depth) := by
  cases guards with
  | @caught region below label caught =>
    obtain ⟨r, _, same, _, known⟩ := setting.block reached (part.subset List.mem_cons_self)
    have protects : Analysis.protecting? plan analysis i p = some r := by
      simp only [Analysis.protecting?, legacy, ← setup]
      exact known
    have depth : depthOf (contextOf plan analysis) region = r.depth := by
      have known : (contextOf plan analysis).region? region = some r := known
      simp [depthOf, known]
    rw [depth] at enough ⊢
    exact setting.caught reached protects (same ▸ caught) raised enough found
  | unwound member running =>
    next cleanup =>
    obtain ⟨start, origin, protection, after, guards, stands, place⟩ :=
      setting.cleanup member maxDepth
    rw [found] at place
    have below : cleanup.below <:+ p.blocks := (List.suffix_cons _ _).trans part
    have same : setupBlocks cleanup.below = setupBlocks p.blocks := by
      rw [← setup]
      simp [setupBlocks, running]
    have piece : PieceOf absent plan bound analysis maxDepth ⟨start, restore (contextOf plan analysis) cleanup,
        protection, fun _ => True, cleanupExits absent plan o p⟩ :=
      .cleanup reached legacy below same after stands guards
    refine Placed.lands ⟨_, 0, piece, Nat.zero_lt_succ _, Option.some.inj place, fun _ => trivial, ?_⟩
    rw [raised.caught]
    refine restore_follows _ cleanup ?_ ⟨raised.raises, rfl, ?_⟩
    · exact setting.saved reached legacy (part.subset List.mem_cons_self) running _
    · exact raised.stack.suffix (List.drop_suffix _ _)

/-- What becomes of an exception that an instruction raises. -/
theorem Setting.guarded (setting : Setting plan bound analysis) {i : Nat} {o : Bound} {p : Point}
    (reached : Reached bound analysis i o p) {handler : Label} {depth : Int64}
    (guarded : Guarded (contextOf plan analysis) (cleanupsOf plan bound analysis) i p
      (some ⟨handler, depth⟩))
    {out : Outline} (raised : Raised absent plan o p out) (enough : depth.toInt.toNat ≤ out.stack.length)
    {ip : Nat} (found : (routineOf plan bound analysis maxDepth).labelIndex? handler = some ip) :
    Lands (PieceOf absent plan bound analysis maxDepth) ip (out.caught depth) := by
  unfold Guarded at guarded
  cases dialect : plan.dialect with
  | legacy =>
    rw [show (contextOf plan analysis).plan.dialect = .legacy from dialect] at guarded
    exact setting.guards reached dialect List.suffix_rfl rfl guarded raised enough found
  | modern =>
    rw [show (contextOf plan analysis).plan.dialect = .modern from dialect] at guarded
    obtain ⟨r, region, rest⟩ := Option.bind_eq_some_iff.mp guarded.symm
    obtain ⟨label, labelled, same⟩ := Option.map_eq_some_iff.mp rest
    cases same
    have protects : Analysis.protecting? plan analysis i p = some r := by
      simp only [Analysis.protecting?, dialect]
      exact region
    exact setting.caught reached protects labelled raised enough found

/-- The label that an iteration takes for itself stands at its end. -/
theorem ownAt_iteration (plan : Plan) (bound : Array Bound) (analysis : Analysis.State)
    (i : Nat) {o : Bound} (p : Point) (iterates : o.opcode = .forIter) :
    ∃ before, before ≠ [] ∧ ownAt plan bound analysis i o p =
      before ++ [Operation.label (iterationLabel plan bound analysis i o p)] := by
  unfold ownAt own
  simp only [Bound.expand, iterates]
  exact ⟨_ ++ [Operation.dup, _, .ifTrue _, .pop, .pop, .goto o.arg], by simp, by
    rw [List.append_assoc]
    rfl⟩

/-- Control never leaves the pieces of a function. -/
theorem Setting.charted (setting : Setting plan bound analysis) (maxDepth : Int64) :
    Charted (routineOf plan bound analysis maxDepth) (PieceOf absent plan bound analysis maxDepth) where
  stands := by
    rintro piece (⟨_, stands⟩ | ⟨_, stands, _⟩ | ⟨_, _, _, _, _, stands, _⟩)
    all_goals exact ⟨_, stands⟩
  through := by
    rintro piece out (⟨reached, stands⟩ | ⟨reached, stands, guarded, flows, edges⟩ | _) exit
    · exact setting.lands maxDepth reached exit
    · obtain ⟨falls, through⟩ := exit
      obtain ⟨inside, q, point, blocks, covered⟩ := edges.falls falls
      obtain ⟨o', found⟩ : ∃ o', bound[_ + 1]? = some o' :=
        ⟨_, Array.getElem?_eq_getElem (setting.planned.size ▸ inside)⟩
      have further := through.trans (outlineAt_refines blocks covered.refines)
      have continues :=
        (setting.stable.processed _ _ _ reached.found reached.point).falls
      rw [← (flow_edges flows).1, falls] at continues
      have following := (setting.instruction reached maxDepth).1
      dsimp only
      rw [← following]
      exact setting.fallen ⟨found, point⟩ (stage_falls reached.found reached.point continues) further
        (setting.lands maxDepth ⟨found, point⟩ further)
    · exact exit.elim
  branch := by
    rintro piece label out ip (⟨reached, stands⟩ | ⟨reached, stands, guarded, flows, edges⟩ | _) exit
      found
    · obtain ⟨rfl, arrives⟩ := exit
      rw [setting.target reached found]
      exact setting.lands maxDepth reached arrives
    · rcases exit with ⟨e, listed, plain, rfl, arrives⟩ | ⟨iterates, rfl, falls, arrives⟩
      · obtain ⟨_, covers⟩ := edges.branches e listed plain
        obtain ⟨_, made⟩ := setting.planned.bounds reached.found
        obtain ⟨_, _, _, checked⟩ := ofInstruction_spec made
        obtain ⟨same, jumps, _⟩ := (flow_edges flows).2 e listed
        have somewhere := jumps_somewhere checked jumps
        rw [← same] at somewhere
        obtain ⟨o', q, target, place, refines⟩ := setting.offset somewhere covers
        rw [← place] at found
        rw [setting.target target found]
        exact setting.lands maxDepth target (arrives.trans (refines _))
      · obtain ⟨before, some, split⟩ := ownAt_iteration plan bound analysis _ _ iterates
        have last := stands before.length _ (by rw [split]; exact List.getElem?_concat_length)
        have place := setting.label last.1
        rw [found] at place
        refine Placed.lands ⟨_, before.length, .own reached stands guarded flows edges, ?_,
          Option.some.inj place, fun first => ?_, ?_⟩
        · dsimp only
          rw [split]
          simp
        · exact absurd (List.length_eq_zero_iff.mp first) some
        · dsimp only
          rw [split, List.drop_left]
          refine ⟨nofun, fun same after => ⟨nofun, fun _ => ?_⟩⟩
          cases after
          exact ⟨falls, arrives⟩
    · exact exit.elim
  raise := by
    rintro piece out handler depth ip (_ | ⟨reached, _, guarded, _⟩ |
      ⟨reached, legacy, part, setup, _, _, guards⟩) exit protection enough found
    · exact exit.elim
    · obtain ⟨raises, locals, stack⟩ := exit
      dsimp only at protection
      subst protection
      exact setting.guarded reached guarded ⟨raises, locals, stack⟩ enough found
    · dsimp only at protection
      subst protection
      exact setting.guards reached legacy part setup guards exit enough found

end Lowering.Proofs
