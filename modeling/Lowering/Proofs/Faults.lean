import Lowering.Lowered

/-! Faults before the depths of a routine are compared with the shapes of its function. None of them says
that they disagree. -/

namespace Lowering.Proofs
open Host Shape Guest

/-- A fault that does not say that depths disagree. -/
def agrees : Fault → Bool
  | .disagreement .. => false
  | _ => true

/-- Whatever a computation fails with, it does not say that depths disagree. -/
def Agrees {ε α : Type} (cause : ε → Fault) : Except ε α → Prop
  | .error e => agrees (cause e) = true
  | .ok _ => True

theorem Agrees.fault {ε α : Type} {cause : ε → Fault} {result : Except ε α} {e : ε}
    (agree : Agrees cause result) (failed : result = .error e) : agrees (cause e) = true := by
  subst failed
  exact agree

theorem Agrees.bind {ε α β : Type} {cause : ε → Fault} {first : Except ε α} {next : α → Except ε β}
    (agree : Agrees cause first) (later : ∀ a, Agrees cause (next a)) : Agrees cause (first >>= next) := by
  cases first with
  | error e => exact agree
  | ok a => exact later a

section
variable (s : Stack) (stamp : Nat)

private theorem pop_agrees (n : Int64) : Agrees id (s.pop n) := by
  unfold Stack.pop
  split <;> trivial

private theorem peek_agrees (i : Int64) : Agrees id (s.peek i) := by
  unfold Stack.peek
  split
  · trivial
  · split <;> trivial

private theorem top_agrees (n : Int64) : Agrees id (s.top n) := by
  unfold Stack.top
  split <;> trivial

private theorem replace_agrees (n : Int64) (slots : List Slot) :
    Agrees id (Flow.replace stamp s n slots) := by
  unfold Flow.replace
  split
  next failed => exact (pop_agrees s n).fault failed
  next => trivial

private theorem leave_agrees (n : Int64) : Agrees id (Flow.leave s n) := by
  unfold Flow.leave
  split
  next failed => exact (pop_agrees s n).fault failed
  next => trivial

private theorem branch_agrees (target : Int64) : Agrees id (Flow.branch s target) := by
  unfold Flow.branch
  split
  next failed => exact (pop_agrees s 1).fault failed
  next => trivial

private theorem binary_agrees (operator : Option Arithmetic) :
    Agrees id (Flow.binary stamp s operator) := by
  unfold Flow.binary
  split <;> trivial

private theorem checkLeave_agrees (plan : Plan) (dialect : Dialect) (slots : Nat) :
    Agrees id (Flow.checkLeave plan dialect s slots) := by
  unfold Flow.checkLeave
  dsimp only
  repeat' split
  all_goals trivial

private theorem checkParts_agrees (i region : Int64) (kinds : List Kind) :
    Agrees id (Flow.checkParts s i region kinds) := by
  induction kinds generalizing i region with
  | nil => trivial
  | cons kind kinds ih =>
    rw [Flow.checkParts]
    split
    next failed => exact (peek_agrees s i).fault failed
    next =>
      split
      · trivial
      · exact ih _ _

private theorem flow_agrees (plan : Plan) (o : Bound) : Agrees id (o.flow plan stamp s) := by
  cases opcode : o.opcode <;> simp only [Bound.flow, opcode]
  case popTop | storeGlobal | storeAttr | unaryNot | compareOp | isOp | containsOp | buildTuple
      | buildList | callFunction | call | getIter | checkExcMatch | loadAttr =>
    exact replace_agrees ..
  case binaryAdd | binarySubtract | binaryMultiply | binaryOp => exact binary_agrees ..
  case returnValue | reraise | raiseVarargs => exact leave_agrees ..
  case popJumpIfFalse | popJumpIfTrue => exact branch_agrees ..
  case dupTop | copy =>
    split
    next failed => exact (peek_agrees s _).fault failed
    next => trivial
  case rotTwo | swap =>
    split
    next failed => exact (top_agrees s _).fault failed
    next => exact replace_agrees ..
  case unaryNegative | pushExcInfo =>
    split
    next failed => exact (peek_agrees s 0).fault failed
    next => exact replace_agrees ..
  case forIter =>
    split
    next failed => exact (pop_agrees s 1).fault failed
    next => trivial
  case popExcept =>
    split
    next failed => exact (checkLeave_agrees ..).fault failed
    next => exact replace_agrees ..
  case jumpIfNotExcMatch =>
    split
    next failed => exact (checkParts_agrees ..).fault failed
    next => exact branch_agrees ..
  case storeFast | setupFinally => split <;> trivial
  all_goals trivial

private theorem unify_agrees (a b : Stack) : Agrees id (Stack.unify stamp a b) := by
  unfold Stack.unify
  split
  · trivial
  · split <;> trivial

end

section
variable {plan : Plan} {bound : Array Bound} (st : Analysis.State) (i : Nat) (o : Bound) (p : Point)

private theorem merge_agrees (fn : Function) (j : Nat) : Agrees Analysis.Stop.fault (st.merge fn j p) := by
  unfold Analysis.State.merge
  split
  · split <;> trivial
  · split
    · trivial
    · split
      next failed => exact (unify_agrees ..).fault failed
      next =>
        dsimp only
        split <;> trivial

private theorem raise_agrees : Agrees Analysis.Stop.fault (Analysis.raise plan st i o p) := by
  unfold Analysis.raise
  split
  · trivial
  · unfold Analysis.protect
    split
    · trivial
    · dsimp only
      split
      · exact merge_agrees ..
      · trivial

private theorem blocksAfter_agrees : Agrees Analysis.Stop.fault (Analysis.blocksAfter plan st i o p) := by
  unfold Analysis.blocksAfter
  split
  · split
    · trivial
    · dsimp only
      split <;> trivial
  · split <;> trivial
  · split <;> trivial
  · trivial

private theorem follow_agrees (next : List Block) (edges : List Edge) :
    Agrees Analysis.Stop.fault (Analysis.follow plan o p next st edges) := by
  induction edges generalizing st with
  | nil => trivial
  | cons e edges ih =>
    rw [Analysis.follow]
    split
    next failed => exact (merge_agrees ..).fault failed
    next => exact ih _

private theorem carry_agrees : Agrees Analysis.Stop.fault (Analysis.carry plan st i o p) := by
  unfold Analysis.carry
  dsimp only
  split
  next failed => exact (flow_agrees p.shape st.stamp plan o).fault failed
  next =>
    refine .bind trivial fun _ => .bind (blocksAfter_agrees ..) fun _ => .bind (follow_agrees ..) fun _ => ?_
    split
    · split
      · exact merge_agrees ..
      · trivial
    · trivial

private theorem run_agrees (fuel : Nat) :
    Agrees Analysis.Stop.fault (Analysis.run plan bound fuel st) := by
  induction fuel generalizing st with
  | zero => trivial
  | succ fuel ih =>
    rw [Analysis.run]
    split
    · trivial
    · dsimp only
      split
      · split
        next failed =>
          unfold Analysis.process at failed
          split at failed
          next raised =>
            cases failed
            exact (raise_agrees ..).fault raised
          next => exact (carry_agrees ..).fault failed
        next => exact ih _
      · exact ih _

theorem analyze_agrees : Agrees Analysis.Stop.fault (Analysis.analyze plan bound) := by
  unfold Analysis.analyze
  dsimp only
  split
  next failed => exact (merge_agrees ..).fault failed
  next => exact run_agrees ..

end

section
variable (fn : Function)

private theorem addEntries_agrees (regions : List Region) (entries : List TableEntry) :
    Agrees id (Plan.addEntries fn regions entries) := by
  induction entries generalizing regions with
  | nil => trivial
  | cons e rest ih =>
    rw [Plan.addEntries]
    split
    next failed =>
      have one : Agrees id (Plan.addEntry fn regions e) := by
        unfold Plan.addEntry
        repeat' split
        all_goals trivial
      exact one.fault failed
    next => exact ih _

private theorem ofFunction_agrees : Agrees id (Plan.ofFunction fn) := by
  unfold Plan.ofFunction
  split
  · trivial
  · unfold Plan.ofLegacy
    split <;> trivial
  · unfold Plan.ofModern
    split
    next failed => exact (addEntries_agrees ..).fault failed
    next => trivial

private theorem bindAll_agrees (i : Nat) (instructions : List Instruction) :
    Agrees Analysis.Stop.fault (bindAll fn i instructions) := by
  induction instructions generalizing i with
  | nil => trivial
  | cons inst rest ih =>
    rw [bindAll]
    split
    next failed =>
      have one : Agrees id (Bound.ofInstruction fn inst) := by
        unfold Bound.ofInstruction
        dsimp only
        repeat' split
        all_goals trivial
      exact one.fault failed
    next =>
      split
      next failed => exact (ih _).fault failed
      next => trivial

theorem prepare_agrees : Agrees Analysis.Stop.fault (prepare fn) := by
  unfold prepare
  split
  next failed => exact (ofFunction_agrees fn).fault failed
  next =>
    split
    · trivial
    · split
      · trivial
      · split
        next failed => exact (bindAll_agrees ..).fault failed
        next =>
          split
          next failed => exact analyze_agrees.fault failed
          next => trivial

end

section
variable (r : Routine) (w : Depths.Walk) (i : Nat) (depth : Int64)

private theorem reach_agrees (target : Nat) : Agrees id (w.reach i target depth) := by
  unfold Depths.Walk.reach
  repeat' split
  all_goals trivial

private theorem jump_agrees (label : Label) : Agrees id (w.jump r i label depth) := by
  unfold Depths.Walk.jump
  split
  · trivial
  · exact reach_agrees ..

private theorem visit_agrees (o : Operation) : Agrees id (w.visit r i o depth) := by
  unfold Depths.Walk.visit
  refine .bind ?_ fun _ => ?_
  · unfold Depths.Walk.raise
    split
    · trivial
    · split
      · trivial
      · exact jump_agrees ..
  · dsimp only
    split
    · trivial
    · have fall : ∀ (w : Depths.Walk) (after : Int64), Agrees id
          (if o.terminates = true then pure w else w.reach i (i + 1) after) := by
        intro w after
        split
        · trivial
        · exact reach_agrees ..
      split
      · exact .bind (jump_agrees ..) fun _ => fall _ _
      · exact fall _ _

private theorem walk_agrees (fuel : Nat) : Agrees id (Depths.Walk.run r fuel w) := by
  induction fuel generalizing w with
  | zero => trivial
  | succ fuel ih =>
    rw [Depths.Walk.run]
    split
    · trivial
    · split
      · split
        next failed => exact (visit_agrees ..).fault failed
        next => exact ih _
      · exact ih _

theorem depths_agrees : Agrees id (Depths.ofRoutine r) := by
  unfold Depths.ofRoutine
  dsimp only
  split
  · trivial
  · split
    next failed => exact (reach_agrees ..).fault failed
    next =>
      split
      next failed => exact (walk_agrees ..).fault failed
      next => trivial

end

end Lowering.Proofs
