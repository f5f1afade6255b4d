import Lowering.Lowered
import Lowering.Proofs.Builders

/-! What is emitted, instruction by instruction: where the operations of every instruction, of every
handler's prologue and of every cleanup stand, and how they are protected. -/

namespace Lowering.Proofs
open Host Guest Emission

/-- The operations emitted so far. -/
def opsOf (st : Emission.State) : List Operation := st.builder.emitted.toList.map Emitted.operation

/-- The state before the instruction with an index is emitted, and whether control falls into it. -/
def stage (c : Context) (st : Emission.State) (bound : Array Bound) : Nat → Emission.State × Bool
  | 0 => (st, false)
  | i + 1 =>
    let before := stage c st bound i
    match bound[i]? with
    | none => before
    | some o =>
      match c.analysis.point? i with
      | none =>
        let event := Event.skippedInstruction o.inst.offset o.opcode.name
        ({ before.1 with events := before.1.events.push event }, false)
      | some p => (instruction c before.1 i o p before.2, c.analysis.falls.getD i false)

theorem instructions_stage (c : Context) (st : Emission.State) (bound : Array Bound) (i : Nat) :
    instructions c (stage c st bound i).1 i (stage c st bound i).2 (bound.toList.drop i) =
      instructions c st 0 false bound.toList := by
  induction i with
  | zero => rfl
  | succ i ih =>
    rw [← ih, stage]
    cases found : bound[i]? with
    | none =>
      have beyond : bound.size ≤ i := by simpa using found
      simp [List.drop_eq_nil_of_le, beyond, show bound.size ≤ i + 1 by omega, instructions]
    | some o =>
      obtain ⟨inside, rfl⟩ := Array.getElem?_eq_some_iff.mp found
      have next : bound.toList.drop i = bound[i] :: bound.toList.drop (i + 1) := by
        rw [List.drop_eq_getElem_cons (by simpa using inside)]
        simp
      rw [next, instructions]
      cases c.analysis.point? i <;> rfl

/-- The depth that a block keeps. -/
def depthOf (c : Context) (region : Int64) : Int64 :=
  ((c.region? region).map Region.depth).getD 0

/-- How operations in some blocks are protected: by the innermost block, or by the cleanup of a
handler that runs. -/
inductive Guards (c : Context) (cleanups : Array Cleanup) : List Block → Option Protection → Prop
  | free : Guards c cleanups [] none
  | caught {region : Int64} {below : List Block} {label : Label}
      (found : c.catch? region = some label) :
      Guards c cleanups (⟨region, false⟩ :: below) (some ⟨label, depthOf c region⟩)
  | uncaught {region : Int64} {below : List Block} (missing : c.catch? region = none) :
      Guards c cleanups (⟨region, false⟩ :: below) none
  | unwound {cleanup : Cleanup} (member : cleanup ∈ cleanups) (running : cleanup.block.running = true) :
      Guards c cleanups (cleanup.block :: cleanup.below)
        (some ⟨cleanup.label, depthOf c cleanup.block.region⟩)

/-- A block whose handler runs is protected by its cleanup. -/
theorem Guards.cleanup {c : Context} {cleanups : Array Cleanup} {b : Block} {below : List Block}
    {protection : Option Protection} (guards : Guards c cleanups (b :: below) protection)
    (running : b.running = true) : ∃ cleanup ∈ cleanups, cleanup.block = b ∧ cleanup.below = below ∧
      protection = some ⟨cleanup.label, depthOf c b.region⟩ := by
  cases guards with
  | caught | uncaught => cases running
  | unwound member => exact ⟨_, member, rfl, rfl, rfl⟩

/-- What guarding leaves as it is: it may ask for one more cleanup, under a new label. -/
structure Guarding (st later : Emission.State) : Prop where
  emitted : later.builder.emitted = st.builder.emitted
  origin : later.builder.origin = st.builder.origin
  name : later.builder.name = st.builder.name
  localCount : later.builder.localCount = st.builder.localCount
  asks : (later.cleanups = st.cleanups ∧ later.builder.nextLabel = st.builder.nextLabel) ∨
    ∃ block below, block.running = true ∧
      later.cleanups = st.cleanups.push ⟨st.builder.nextLabel, block, below⟩ ∧
      later.builder.nextLabel = st.builder.nextLabel - 1

/-- A cleanup keeps its number. -/
theorem Guarding.getElem? {st later : Emission.State} (guarding : Guarding st later) {n : Nat}
    {cleanup : Cleanup} (found : st.cleanups[n]? = some cleanup) :
    later.cleanups[n]? = some cleanup := by
  rcases guarding.asks with ⟨same, _⟩ | ⟨block, below, _, pushed, _⟩
  · rw [same]
    exact found
  · have inside := (Array.getElem?_eq_some_iff.mp found).1
    rw [pushed, Array.getElem?_push, if_neg (by omega)]
    exact found

theorem guardBlocks_guards (c : Context) (st : Emission.State) (blocks : List Block) :
    Guarding st (guardBlocks c st blocks) ∧
      Guards c (guardBlocks c st blocks).cleanups blocks (guardBlocks c st blocks).builder.protection := by
  cases blocks with
  | nil => exact ⟨⟨rfl, rfl, rfl, rfl, .inl ⟨rfl, rfl⟩⟩, .free⟩
  | cons block below =>
    rw [guardBlocks]
    dsimp only
    split
    next runs =>
      split
      next cleanup found =>
        have holds := Array.find?_some found
        simp only [Bool.decide_and, Bool.and_eq_true, decide_eq_true_eq] at holds
        obtain ⟨rfl, rfl⟩ := holds
        exact ⟨⟨rfl, rfl, rfl, rfl, .inl ⟨rfl, rfl⟩⟩,
          .unwound (Array.mem_of_find?_eq_some found) runs⟩
      next missing =>
        have made : (⟨st.builder.nextLabel, block, below⟩ : Cleanup) ∈
            st.cleanups.push ⟨st.builder.nextLabel, block, below⟩ := Array.mem_push_self
        exact ⟨⟨rfl, rfl, rfl, rfl, .inr ⟨block, below, runs, rfl, rfl⟩⟩, .unwound made runs⟩
    next set =>
      obtain ⟨region, running⟩ := block
      cases running with
      | true => exact absurd rfl set
      | false =>
        split
        next label found => exact ⟨⟨rfl, rfl, rfl, rfl, .inl ⟨rfl, rfl⟩⟩, .caught found⟩
        next missing => exact ⟨⟨rfl, rfl, rfl, rfl, .inl ⟨rfl, rfl⟩⟩, .uncaught missing⟩

/-- How the operations of an instruction are protected. -/
def Guarded (c : Context) (cleanups : Array Cleanup) (i : Nat) (p : Point)
    (protection : Option Protection) : Prop :=
  match c.plan.dialect with
  | .legacy => Guards c cleanups p.blocks protection
  | .modern => protection = (c.region? (c.plan.protecting i)).bind fun r =>
      (c.catch? r.id).map fun label => ⟨label, r.depth⟩

theorem guard_guarded (c : Context) (st : Emission.State) (i : Nat) (p : Point) :
    Guarding st (Emission.guard c st i p) ∧
      Guarded c (Emission.guard c st i p).cleanups i p (Emission.guard c st i p).builder.protection := by
  unfold Emission.guard Guarded
  cases c.plan.dialect with
  | legacy => exact guardBlocks_guards c st p.blocks
  | modern =>
    dsimp only
    split
    next missing => exact ⟨⟨rfl, rfl, rfl, rfl, .inl ⟨rfl, rfl⟩⟩, by simp [missing, Builder.unprotect]⟩
    next r found =>
      split
      next label caught =>
        exact ⟨⟨rfl, rfl, rfl, rfl, .inl ⟨rfl, rfl⟩⟩, by simp [found, caught, Builder.protect]⟩
      next missing =>
        exact ⟨⟨rfl, rfl, rfl, rfl, .inl ⟨rfl, rfl⟩⟩, by simp [found, missing, Builder.unprotect]⟩

theorem Guards.grow {c : Context} {cleanups later : Array Cleanup} {blocks : List Block}
    {protection : Option Protection} (guards : Guards c cleanups blocks protection)
    (grown : ∀ cleanup ∈ cleanups, cleanup ∈ later) : Guards c later blocks protection := by
  cases guards with
  | free => exact .free
  | caught found => exact .caught found
  | uncaught missing => exact .uncaught missing
  | unwound member running => exact .unwound (grown _ member) running

theorem Guarded.grow {c : Context} {cleanups later : Array Cleanup} {i : Nat} {p : Point}
    {protection : Option Protection} (guarded : Guarded c cleanups i p protection)
    (grown : ∀ cleanup ∈ cleanups, cleanup ∈ later) : Guarded c later i p protection := by
  unfold Guarded at *
  split
  next legacy =>
    rw [legacy] at guarded
    exact guarded.grow grown
  next modern =>
    rw [modern] at guarded
    exact guarded

/-- The code in front of an instruction: the prologues of the handlers that start there, and jumps
that lead control around them. -/
def lead (c : Context) (offset : Int64) : Bool → List Region → List Operation
  | _, [] => []
  | falls, r :: rest =>
    (if falls then [.goto offset] else []) ++
      .label ((c.catch? r.id).getD 0) :: r.prologue ++ lead c offset true rest

/-- The code in front of an instruction is made of prologues and jumps around them. -/
theorem mem_lead {c : Context} {offset : Int64} {falls : Bool} {regions : List Region}
    {op : Operation} (member : op ∈ lead c offset falls regions) :
    op = .goto offset ∨ ∃ r ∈ regions, op = .label ((c.catch? r.id).getD 0) ∨ op ∈ r.prologue := by
  induction regions generalizing falls with
  | nil => cases member
  | cons r rest ih =>
    rw [lead] at member
    rcases List.mem_append.mp member with first | later
    · rcases List.mem_append.mp first with skip | own
      · split at skip
        · exact .inl (List.mem_singleton.mp skip)
        · cases skip
      · exact .inr ⟨r, List.mem_cons_self, List.mem_cons.mp own⟩
    · rcases ih later with skip | ⟨s, listed, own⟩
      · exact .inl skip
      · exact .inr ⟨s, List.mem_cons_of_mem _ listed, own⟩

theorem prologues_emit (c : Context) (offset : Int64) (falls : Bool) (b : Builder)
    (regions : List Region) :
    prologues c offset falls b regions = b.emit (lead c offset falls regions) := by
  induction regions generalizing falls b with
  | nil => rfl
  | cons r rest ih =>
    rw [prologues, ih, lead]
    cases falls <;> simp [emit_append]

/-- The operations of an instruction itself. -/
def own (c : Context) (fresh : Label) (o : Bound) (p : Point) : List Operation :=
  (if c.analysis.targets.contains o.inst.offset then [.label o.inst.offset] else []) ++
    o.expand c.plan fresh p.shape

/-- An operation of an instruction is its label, or comes from its expansion. -/
theorem mem_own {c : Context} {fresh : Label} {o : Bound} {p : Point} {op : Operation}
    (member : op ∈ own c fresh o p) :
    op = .label o.inst.offset ∨ op ∈ o.expand c.plan fresh p.shape := by
  rcases List.mem_append.mp member with mark | expanded
  · split at mark
    · exact .inl (List.mem_singleton.mp mark)
    · cases mark
  · exact .inr expanded

theorem expand_fresh {o : Bound} (plain : o.opcode ≠ .forIter) (plan : Plan) (fresh other : Label)
    (s : Shape.Stack) : o.expand plan fresh s = o.expand plan other s := by
  unfold Bound.expand
  split <;> first | rfl | exact absurd ‹_› plain

/-- The state in which an instruction is emitted, once its protection is set. -/
def guardedState (c : Context) (st : Emission.State) (i : Nat) (o : Bound) (p : Point) :
    Emission.State :=
  Emission.guard c { st with builder := st.builder.setOrigin o.inst.offset } i p

theorem guardedState_guards (c : Context) (st : Emission.State) (i : Nat) (o : Bound) (p : Point) :
    (guardedState c st i o p).builder.emitted = st.builder.emitted ∧
      (guardedState c st i o p).builder.origin = o.inst.offset ∧
      Guarded c (guardedState c st i o p).cleanups i p (guardedState c st i o p).builder.protection := by
  obtain ⟨guarding, guarded⟩ :=
    guard_guarded c { st with builder := st.builder.setOrigin o.inst.offset } i p
  exact ⟨guarding.emitted, guarding.origin, guarded⟩

theorem instruction_builder (c : Context) (st : Emission.State) (i : Nat) (o : Bound) (p : Point)
    (falls : Bool) :
    (instruction c st i o p falls).builder =
      { (guardedState c st i o p).builder.emit
          (lead c o.inst.offset falls (handlersAt c o.inst.offset) ++
            own c (guardedState c st i o p).builder.nextLabel o p) with
        nextLabel := if o.opcode = .forIter then (guardedState c st i o p).builder.nextLabel - 1
          else (guardedState c st i o p).builder.nextLabel } := by
  have labelled : (if c.analysis.targets.contains o.inst.offset then
      (opening c st i o p falls).builder.emit [Operation.label o.inst.offset]
      else (opening c st i o p falls).builder) =
      (guardedState c st i o p).builder.emit
        (lead c o.inst.offset falls (handlersAt c o.inst.offset) ++
          (if c.analysis.targets.contains o.inst.offset then [Operation.label o.inst.offset] else [])) := by
    simp only [opening, prologues_emit, guardedState]
    split
    · rw [emit_append]
    · rw [List.append_nil]
  simp only [instruction, labelled, own]
  unfold Bound.emit
  split
  next iterates =>
    rw [if_pos iterates]
    simp only [Builder.newLabel, emit_nextLabel, emit_renumbered, emit_append, List.append_assoc]
  next plain =>
    rw [if_neg plain, emit_append, List.append_assoc,
      expand_fresh plain c.plan 0 (guardedState c st i o p).builder.nextLabel]
    simp only [emit_eq]

theorem instruction_cleanups (c : Context) (st : Emission.State) (i : Nat) (o : Bound) (p : Point)
    (falls : Bool) :
    (instruction c st i o p falls).cleanups = (guardedState c st i o p).cleanups := rfl

/-- The operations that an instruction adds, with their origin and protection. -/
theorem instruction_emitted (c : Context) (st : Emission.State) (i : Nat) (o : Bound) (p : Point)
    (falls : Bool) :
    (instruction c st i o p falls).builder.emitted.toList = st.builder.emitted.toList ++
      (lead c o.inst.offset falls (handlersAt c o.inst.offset) ++
        own c (guardedState c st i o p).builder.nextLabel o p).map fun operation =>
        ⟨operation, o.inst.offset, (guardedState c st i o p).builder.protection⟩ := by
  obtain ⟨emitted, origin, _⟩ := guardedState_guards c st i o p
  rw [instruction_builder, emit_eq]
  simp [marked, emitted, origin]

private theorem operation_marked (operations : List Operation) (origin : Int64)
    (protection : Option Protection) :
    (operations.map fun operation => (⟨operation, origin, protection⟩ : Emitted)).map
      Emitted.operation = operations := by
  rw [List.map_map]
  exact List.map_id operations

theorem instruction_ops (c : Context) (st : Emission.State) (i : Nat) (o : Bound) (p : Point)
    (falls : Bool) :
    opsOf (instruction c st i o p falls) = opsOf st ++
      (lead c o.inst.offset falls (handlersAt c o.inst.offset) ++
        own c (guardedState c st i o p).builder.nextLabel o p) := by
  rw [opsOf, instruction_emitted, List.map_append, operation_marked, opsOf]

/-- The operations of a cleanup: the exception that the handler saved becomes the handled one again,
and the exception that arrived is raised again. -/
def restore (c : Context) (entry : Cleanup) : List Operation :=
  [.label entry.label, .loadLocal ((c.region? entry.block.region).getD default).scratch,
    .setHandled, .throw]

/-- The operations of a cleanup, with their origin and protection. -/
theorem cleanup_emitted (c : Context) (st : Emission.State) (entry : Cleanup) :
    ∃ protection,
      (Emission.cleanup c st entry).builder.emitted.toList = st.builder.emitted.toList ++
        (restore c entry).map (fun operation =>
          ⟨operation, ((c.region? entry.block.region).getD default).handler, protection⟩) ∧
      Guards c (Emission.cleanup c st entry).cleanups entry.below protection := by
  let region := (c.region? entry.block.region).getD default
  obtain ⟨guarding, guards⟩ := guardBlocks_guards c
    { st with builder := st.builder.setOrigin region.handler } entry.below
  refine ⟨_, ?_, guards⟩
  have emitted := guarding.emitted
  have origin := guarding.origin
  simp only [Emission.cleanup, emit_eq, marked, restore]
  rw [emitted, origin]
  simp [Builder.setOrigin, region]

theorem cleanup_ops (c : Context) (st : Emission.State) (entry : Cleanup) :
    opsOf (Emission.cleanup c st entry) = opsOf st ++ restore c entry := by
  obtain ⟨protection, emitted, _⟩ := cleanup_emitted c st entry
  rw [opsOf, emitted, List.map_append, operation_marked, opsOf]

end Lowering.Proofs
