import Lowering.Proofs.Labels
import Lowering.Proofs.Passages
import Lowering.Proofs.Paths

/-! The flow of an instruction demands every operand that its operations read. What the operations leave
on the stack, whichever way they are left, is as deep as the flow says. -/

namespace Lowering.Proofs
open Host Shape Guest

/-- The operations that are not jumped over find their operands, and the depth after one that leaves the
frame is as asked. -/
def Suffices (ends : Nat → Prop) : List Operation → Nat → Prop
  | [], _ => True
  | o :: rest, n => o.pops.toInt ≤ n ∧
      (o.terminates = true → o.target? = none → ends (depthAfter n o)) ∧
      (o.terminates = false → Suffices ends rest (depthAfter n o))

variable {ends : Nat → Prop} {plan : Plan} {o : Bound} {s : Stack} {stamp : Nat} {fresh : Label} {flow : Flow}

section
variable {op : Operation} {rest : List Operation} {n : Nat}

theorem Suffices.onward (enough : op.pops.toInt ≤ n) (falls : op.terminates = false)
    (later : Suffices ends rest (depthAfter n op)) : Suffices ends (op :: rest) n :=
  ⟨enough, fun last => (by cases falls.symm.trans last), fun _ => later⟩

theorem Suffices.single (enough : op.pops.toInt ≤ n) (falls : op.terminates = false) : Suffices ends [op] n :=
  .onward enough falls trivial

theorem Suffices.away {label : Label} (enough : op.pops.toInt ≤ n) (last : op.terminates = true)
    (named : op.target? = some label) : Suffices ends (op :: rest) n :=
  ⟨enough, fun _ other => (by cases named.symm.trans other), fun falls => by cases last.symm.trans falls⟩

end

theorem Suffices.endures {operations : List Operation} {n : Nat} (held : Suffices ends operations n) :
    Endures operations n := by
  induction operations generalizing n with
  | nil => trivial
  | cons o rest ih => exact ⟨held.1, fun falls => ih (held.2.2 falls)⟩

theorem checkTriple_deep (checked : Flow.checkTriple s = .ok ()) : 4 ≤ s.depth := by
  simp only [Flow.checkTriple, Flow.checkParts] at checked
  repeat' split at checked
  all_goals first | (cases checked; done) | skip
  next peeked _ =>
    obtain ⟨_, cell, found, _⟩ := peek_spec peeked
    exact (List.getElem?_eq_some_iff.mp found).1

/-- The depth with which an instruction leaves the function. -/
def Final (flow : Flow) (n : Nat) : Prop :=
  flow.falls = false ∧ flow.branches = [] ∧ n = flow.next.depth

/-- The operations of an instruction find what they read once its flow is defined. Only the modern match
reads one slot more than its flow checks. -/
theorem expand_suffices (valid : Lawful plan o)
    (whole : o.opcode = .checkExcMatch → s.depth ≠ 1) (flows : o.flow plan stamp s = .ok flow) :
    Suffices (Final flow) (o.expand plan fresh s) s.depth := by
  have checked := valid.operand
  cases opcode : o.opcode <;> simp only [Bound.flow, opcode] at flows <;>
    simp only [Bound.expand, opcode] <;> simp only [Bound.badOperand, opcode] at checked
  case nop | resume | cache | popBlock | setupFinally => trivial
  case unaryNot | compareOp | isOp | containsOp | buildTuple | buildList | callFunction | call
      | getIter | storeAttr | popTop | storeGlobal =>
    exact .single (replace_spec flows).1 rfl
  case unaryNegative =>
    split at flows
    · cases flows
    · exact .single (replace_spec flows).1 rfl
  case pushNull | loadConst | loadFast | deleteFast => exact .single (Int.natCast_nonneg _) rfl
  case jumpForward | jumpAbsolute | jumpBackward => exact .away (Int.natCast_nonneg _) rfl rfl
  case loadGlobal =>
    have none : (0 : Int) ≤ (s.depth : Int) := Int.natCast_nonneg _
    split
    · exact .onward none rfl (.single (Int.natCast_nonneg _) rfl)
    · exact .single none rfl
  case loadAttr =>
    have enough := (replace_spec flows).1
    split <;> exact .single enough rfl
  case binaryAdd | binarySubtract | binaryMultiply | binaryOp =>
    obtain ⟨b, a, cells, below, rfl⟩ := binary_spec flows
    exact .single (by simp [Operation.pops, Stack.depth, below]; omega) rfl
  case dupTop =>
    split at flows
    · cases flows
    · next top peeked =>
      obtain ⟨_, cell, found, _⟩ := peek_spec peeked
      have inside := (List.getElem?_eq_some_iff.mp found).1
      exact .single (Int.ofNat_le.mpr (Nat.succ_le_of_lt inside)) rfl
  case copy =>
    split at flows
    · cases flows
    · next top peeked =>
      obtain ⟨positive, cell, found, _⟩ := peek_spec peeked
      have inside := (List.getElem?_eq_some_iff.mp found).1
      have one : 1 ≤ o.arg.toInt := by
        split at checked
        · cases checked
        · next one => exact Int64.le_iff_toInt_le.mp (Int64.not_lt.mp one)
      refine .single ?_ rfl
      rw [pred_toInt one] at inside
      simp only [Operation.pops, Int64.sub_add_cancel, Stack.depth]
      omega
  case swap =>
    split at flows
    · cases flows
    · next slots taken =>
      refine .single ?_ rfl
      simpa [Operation.pops] using (top_spec taken).1
  case rotTwo =>
    split at flows
    · cases flows
    · next slots taken => exact .single (top_spec taken).1 rfl
  case storeFast =>
    split at flows
    · cases flows
    · next top rest below =>
      exact .single (by simp [Operation.pops, Stack.depth, below]) rfl
  case returnValue =>
    obtain ⟨enough, rfl⟩ := leave_spec flows
    refine ⟨enough, fun _ _ => ⟨rfl, rfl, ?_⟩, fun falls => by cases falls⟩
    simp [depthAfter, Operation.pops, Operation.pushes, Stack.depth]
  case popJumpIfFalse | popJumpIfTrue =>
    obtain ⟨cell, cells, below, _⟩ := branch_spec flows
    have one : (1 : Int) ≤ s.depth := by simp [Stack.depth, below]
    exact .onward one rfl (.single (by simp [depthAfter, Operation.pops, Operation.pushes]) rfl)
  case forIter =>
    split at flows
    · cases flows
    · next exhausted popped =>
      have one : (1 : Int) ≤ s.depth := (pop_spec popped).1
      simp [Suffices, depthAfter, Operation.pops, Operation.pushes, Operation.terminates, Operation.target?]
      omega
  case popExcept =>
    split at flows
    · cases flows
    · obtain ⟨enough, _⟩ := replace_spec flows
      rw [valid.popExcept opcode] at enough ⊢
      unfold Plan.leave
      cases dialect : plan.dialect with
      | modern =>
        rw [dialect] at enough
        exact .single enough rfl
      | legacy =>
        rw [dialect] at enough
        have three : (3 : Int) ≤ s.depth := enough
        simp only [Dialect.exceptionSlots, List.replicate]
        split <;>
          simp [Suffices, depthAfter, Operation.pops, Operation.pushes, Operation.terminates, Operation.target?] <;>
          omega
  case reraise =>
    obtain ⟨enough, rfl⟩ := leave_spec flows
    rw [valid.slots (.inr opcode), valid.dialect] at enough ⊢
    unfold Guest.reraise
    cases dialect : plan.dialect with
    | legacy =>
      rw [dialect] at enough
      simp [Dialect.exceptionSlots] at enough
      simp [Suffices, depthAfter, Operation.pops, Operation.pushes, Operation.terminates,
        Operation.target?, Final, Stack.depth, Dialect.exceptionSlots] at enough ⊢
      omega
    | modern =>
      rw [dialect] at enough
      by_cases unmarked : o.arg = 0
      all_goals
        simp [unmarked, Dialect.exceptionSlots] at enough
        simp [Suffices, depthAfter, Operation.pops, Operation.pushes, Operation.terminates,
          Operation.target?, Final, Stack.depth, Dialect.exceptionSlots, unmarked] at enough ⊢
        omega
  case raiseVarargs =>
    obtain ⟨enough, rfl⟩ := leave_spec flows
    have range : o.arg = 0 ∨ o.arg = 1 ∨ o.arg = 2 := by
      split at checked
      · cases checked
      · next range =>
        simp only [Bool.or_eq_true, decide_eq_true_eq, not_or, Int64.not_lt, Int64.le_iff_toInt_le] at range
        rw [← Int64.toInt_inj, ← Int64.toInt_inj, ← Int64.toInt_inj]
        simp at range ⊢
        omega
    rcases range with arg | arg | arg <;> rw [arg] at enough ⊢
    all_goals
      simp [Suffices, depthAfter, Operation.pops, Operation.pushes, Operation.terminates, Operation.target?,
        Final, Stack.depth] at enough ⊢
      try omega
  case jumpIfNotExcMatch =>
    split at flows
    · cases flows
    · next checked =>
      have four := checkTriple_deep checked
      simp [Suffices, depthAfter, Operation.pops, Operation.pushes, Operation.terminates, Operation.target?]
      omega
  case pushExcInfo =>
    split at flows
    · cases flows
    · have one : (1 : Int) ≤ s.depth := (replace_spec flows).1
      simp [Suffices, depthAfter, Operation.pops, Operation.pushes, Operation.terminates, Operation.target?]
      omega
  case checkExcMatch =>
    have one : (1 : Int) ≤ s.depth := (replace_spec flows).1
    have two := whole opcode
    simp [Suffices, depthAfter, Operation.pops, Operation.pushes, Operation.terminates, Operation.target?]
    omega

/-- The stack is said to be too short. -/
def Short (s : Stack) (fault : Fault) : Prop := ∃ want, fault = .underflow want s.height

section
variable {n : Int64} {fault : Fault}

theorem pop_short (failed : s.pop n = .error fault) : Short s fault := by
  unfold Stack.pop at failed
  split at failed <;> cases failed
  exact ⟨_, rfl⟩

theorem peek_short (failed : s.peek n = .error fault) : Short s fault := by
  unfold Stack.peek at failed
  repeat' split at failed
  all_goals cases failed
  all_goals exact ⟨_, rfl⟩

theorem top_short (failed : s.top n = .error fault) : Short s fault := by
  unfold Stack.top at failed
  split at failed <;> cases failed
  exact ⟨_, rfl⟩

theorem replace_short {slots : List Slot} (failed : Flow.replace stamp s n slots = .error fault) :
    Short s fault := by
  unfold Flow.replace at failed
  split at failed
  · next popped =>
    cases failed
    exact pop_short popped
  · cases failed

theorem leave_short (failed : Flow.leave s n = .error fault) : Short s fault := by
  unfold Flow.leave at failed
  split at failed
  · next popped =>
    cases failed
    exact pop_short popped
  · cases failed

theorem branch_short {target : Int64} (failed : Flow.branch s target = .error fault) :
    Short s fault := by
  unfold Flow.branch at failed
  split at failed
  · next popped =>
    cases failed
    exact pop_short popped
  · cases failed

theorem binary_short {operator : Option Arithmetic}
    (failed : Flow.binary stamp s operator = .error fault) : Short s fault := by
  unfold Flow.binary at failed
  split at failed <;> cases failed
  exact ⟨_, rfl⟩

/-- The exception state is said not to be in place. -/
def Malformed (fault : Fault) : Prop :=
  ∃ region handler want known reason, fault = .malformed region handler want known reason

theorem checkParts_fault {kinds : List Kind} {i region : Int64}
    (failed : Flow.checkParts s i region kinds = .error fault) : Short s fault ∨ Malformed fault := by
  induction kinds generalizing i region with
  | nil => cases failed
  | cons kind kinds ih =>
    simp only [Flow.checkParts] at failed
    split at failed
    · next peeked =>
      cases failed
      exact .inl (peek_short peeked)
    · split at failed
      · cases failed
        exact .inr ⟨_, _, _, _, _, rfl⟩
      · exact ih failed

theorem checkLeave_fault {dialect : Dialect} {slots : Nat}
    (failed : Flow.checkLeave plan dialect s slots = .error fault) :
    Malformed fault ∧ (dialect = .modern → 0 < s.depth) := by
  unfold Flow.checkLeave at failed
  dsimp only at failed
  split at failed
  · repeat' split at failed
    all_goals cases failed
    all_goals exact ⟨⟨_, _, _, _, _, rfl⟩, nofun⟩
  · cases failed
  · next top rest below =>
    have deep : 0 < s.depth := by simp [Stack.depth, below]
    repeat' split at failed
    all_goals cases failed
    all_goals exact ⟨⟨_, _, _, _, _, rfl⟩, fun _ => deep⟩

/-- A flow that is not defined says that the stack is too short, unless exception state was looked for
first. -/
theorem flow_short (failed : o.flow plan stamp s = .error fault) :
    Short s fault ∨ o.opcode = .setupFinally ∨
      (o.opcode = .popExcept ∧ (plan.dialect = .modern → 0 < s.depth) ∨
        o.opcode = .jumpIfNotExcMatch) ∧ Malformed fault := by
  cases opcode : o.opcode <;> simp only [Bound.flow, opcode] at failed
  case nop | resume | cache | popBlock | pushNull | loadConst | loadFast | loadGlobal | deleteFast
      | jumpForward | jumpAbsolute | jumpBackward => cases failed
  case popTop | storeGlobal | loadAttr | storeAttr | unaryNot | compareOp | isOp | containsOp
      | buildTuple | buildList | callFunction | call | getIter | checkExcMatch =>
    exact .inl (replace_short failed)
  case binaryAdd | binarySubtract | binaryMultiply | binaryOp => exact .inl (binary_short failed)
  case returnValue | reraise | raiseVarargs => exact .inl (leave_short failed)
  case popJumpIfFalse | popJumpIfTrue => exact .inl (branch_short failed)
  case setupFinally => exact .inr (.inl rfl)
  case dupTop | copy =>
    split at failed
    · next peeked =>
      cases failed
      exact .inl (peek_short peeked)
    · cases failed
  case unaryNegative | pushExcInfo =>
    split at failed
    · next peeked =>
      cases failed
      exact .inl (peek_short peeked)
    · exact .inl (replace_short failed)
  case rotTwo | swap =>
    split at failed
    · next taken =>
      cases failed
      exact .inl (top_short taken)
    · exact .inl (replace_short failed)
  case storeFast =>
    split at failed
    · next below =>
      cases failed
      exact .inl ⟨1, by simp [Stack.height, Stack.depth, below]⟩
    · cases failed
  case forIter =>
    split at failed
    · next popped =>
      cases failed
      exact .inl (pop_short popped)
    · cases failed
  case popExcept =>
    split at failed
    · next checked =>
      cases failed
      obtain ⟨malformed, deep⟩ := checkLeave_fault checked
      exact .inr (.inr ⟨.inl ⟨rfl, deep⟩, malformed⟩)
    · exact .inl (replace_short failed)
  case jumpIfNotExcMatch =>
    split at failed
    · next checked =>
      cases failed
      exact (checkParts_fault checked).imp_right fun malformed => .inr ⟨.inr rfl, malformed⟩
    · exact .inl (branch_short failed)

end

/-- Operations as a routine of their own. Where they jump to a label of theirs is inside; other labels
are exits. -/
def snippetOf (operations : List Operation) : Routine where
  ops := operations.toArray

/-- Every operation that a path comes to finds its operands. -/
def Provided (operations : List Operation) (n : Nat) : Prop :=
  ∀ i depth op, Path (snippetOf operations) n i depth → operations[i]? = some op → reads op ≤ depth

/-- What is left on the stack, on every path through the operations and at every exit, is what the flow
says; and there is a path to every exit of the flow. -/
structure Balances (operations : List Operation) (n : Nat) (flow : Flow) : Prop where
  exact : ∀ op ∈ operations, Exact op
  enough : Provided operations n
  through : ∀ depth, Path (snippetOf operations) n operations.length depth →
    flow.falls = true ∧ depth = flow.next.depth
  exits : ∀ i depth op label, Path (snippetOf operations) n i depth → operations[i]? = some op →
    op.target? = some label → (snippetOf operations).labelIndex? label = none →
    ∃ e ∈ flow.branches, e.handler = false ∧ e.target = label ∧
      depth - reads op + leaves op = e.shape.depth
  ends : ∀ i depth op, Path (snippetOf operations) n i depth → operations[i]? = some op →
    op.terminates = true → op.target? = none → flow.falls = false ∧ flow.branches = [] ∧
      depth - reads op + leaves op = flow.next.depth
  falls : flow.falls = true → Path (snippetOf operations) n operations.length flow.next.depth
  branches : ∀ e ∈ flow.branches, e.handler = false → ∃ i depth op,
    Path (snippetOf operations) n i depth ∧ operations[i]? = some op ∧ op.target? = some e.target ∧
      (snippetOf operations).labelIndex? e.target = none ∧
      depth - reads op + leaves op = e.shape.depth

section
variable {operations : List Operation} {n m i : Nat} {depth : Int} {op : Operation} {label : Label}

theorem snippet_op : (snippetOf operations).ops[i]? = operations[i]? := by simp [snippetOf]

theorem depthAfter_exact (exact : Exact op) (counts : Proofs.fair op = true) (enough : op.pops.toInt ≤ m) :
    (m : Int) - reads op + leaves op = depthAfter m op := by
  simp only [Proofs.fair, decide_eq_true_eq] at counts
  rw [← exact.pops, ← exact.pushes, depthAfter]
  omega

/-- Operations whose counts are right and whose labels stand at their end. -/
structure Plainly (operations : List Operation) : Prop where
  exact : ∀ op ∈ operations, Exact op
  fair : operations.all Proofs.fair = true
  last : ∀ label k, (snippetOf operations).labelIndex? label = some k → k + 1 = operations.length

theorem Plainly.after (plainly : Plainly operations) (here : operations[i]? = some op)
    (enough : op.pops.toInt ≤ m) : (m : Int) - reads op + leaves op = depthAfter m op :=
  depthAfter_exact (plainly.exact op (List.mem_of_getElem? here))
    (List.all_eq_true.mp plainly.fair op (List.mem_of_getElem? here)) enough

/-- A path has passed straight through the operations below an index. -/
structure Midway (ends : Nat → Prop) (operations : List Operation) (n i m : Nat) : Prop where
  rest : Suffices ends (operations.drop i) m
  quits : ∀ exit d, Quits (operations.drop i) m exit d → Quits operations n exit d

/-- A path has jumped to the label at the end. -/
structure Arrived (operations : List Operation) (n i m : Nat) : Prop where
  late : i + 1 = operations.length ∨ i = operations.length
  label : ∃ id, operations[operations.length - 1]? = some (.label id) ∧
    (snippetOf operations).labelIndex? id = some (operations.length - 1) ∧
    Quits operations n (some id) m

theorem drop_of_getElem? (here : operations[i]? = some op) :
    operations.drop i = op :: operations.drop (i + 1) := by
  obtain ⟨inside, rfl⟩ := List.getElem?_eq_some_iff.mp here
  exact List.drop_eq_getElem_cons inside

theorem Arrived.final (arrived : Arrived operations n i m) (here : operations[i]? = some op) :
    i + 1 = operations.length ∧ ∃ id, op = .label id := by
  obtain ⟨id, last, _⟩ := arrived.label
  rcases arrived.late with late | late
  · rw [show operations.length - 1 = i by omega, here] at last
    exact ⟨late, id, Option.some.inj last⟩
  · rw [List.getElem?_eq_none (Nat.le_of_eq late.symm)] at here
    cases here

theorem Path.midway (plainly : Plainly operations) (start : Suffices ends operations n)
    (path : Path (snippetOf operations) n i depth) :
    ∃ m : Nat, depth = m ∧ (Midway ends operations n i m ∨ Arrived operations n i m) := by
  induction path with
  | start => exact ⟨n, rfl, .inl ⟨start, fun _ _ quits => quits⟩⟩
  | raises _ _ found => cases found
  | @jumps i target depth op label before operation named found ih =>
    obtain ⟨m, rfl, midway | arrived⟩ := ih
    · rw [snippet_op] at operation
      have here := drop_of_getElem? operation
      have held := midway.rest
      rw [here] at held
      refine ⟨_, plainly.after operation held.1, .inr ⟨.inl (plainly.last label target found), label, ?_⟩⟩
      have late := plainly.last label target found
      obtain ⟨_, defined⟩ := findLabel_some found
      rw [snippet_op] at defined
      rw [show operations.length - 1 = target by omega]
      refine ⟨defined, found, midway.quits _ _ ?_⟩
      rw [here]
      exact ⟨held.1, .inl ⟨by rw [named]; rfl, named.symm, rfl⟩⟩
    · rw [snippet_op] at operation
      obtain ⟨_, id, rfl⟩ := arrived.final operation
      cases named
  | @falls i depth op before operation falls ih =>
    rw [snippet_op] at operation
    obtain ⟨m, rfl, midway | arrived⟩ := ih
    · have here := drop_of_getElem? operation
      have held := midway.rest
      rw [here] at held
      refine ⟨_, plainly.after operation held.1, .inl ⟨held.2.2 falls, fun exit d quits => ?_⟩⟩
      refine midway.quits exit d ?_
      rw [here]
      exact ⟨held.1, .inr ⟨falls, quits⟩⟩
    · obtain ⟨late, id, rfl⟩ := arrived.final operation
      exact ⟨m, by simp [reads, leaves], .inr ⟨.inr late, arrived.label⟩⟩

theorem Suffices.provided (plainly : Plainly operations) (held : Suffices ends operations n) :
    Provided operations n := by
  intro i depth op path here
  rw [← (plainly.exact op (List.mem_of_getElem? here)).pops]
  obtain ⟨m, rfl, midway | arrived⟩ := path.midway plainly held
  · have rest := midway.rest
    rw [drop_of_getElem? here] at rest
    exact rest.1
  · obtain ⟨_, id, rfl⟩ := arrived.final here
    exact Int.natCast_nonneg m

theorem Quits.path (plainly : Plainly operations) {exit : Option Label} {d : Nat}
    (path : Path (snippetOf operations) n i m) (inside : i ≤ operations.length)
    (quits : Quits (operations.drop i) m exit d) :
    (exit = none → Path (snippetOf operations) n operations.length d) ∧
      ∀ label, exit = some label → ∃ j depth op, Path (snippetOf operations) n j depth ∧
        operations[j]? = some op ∧ op.target? = some label ∧ depth - reads op + leaves op = d := by
  induction rest : operations.drop i generalizing i m with
  | nil =>
    rw [rest] at quits
    obtain ⟨rfl, rfl⟩ := quits
    have late : i = operations.length := by
      have := List.drop_eq_nil_iff.mp rest
      omega
    exact ⟨fun _ => late ▸ path, nofun⟩
  | cons op others ih =>
    have here : operations[i]? = some op := by rw [← List.head?_drop, rest]; rfl
    rw [rest] at quits
    obtain ⟨enough, ⟨jumps, rfl, rfl⟩ | ⟨falls, quits⟩⟩ := quits
    · refine ⟨fun none => ?_, fun label named => ⟨i, m, op, path, here, named, plainly.after here enough⟩⟩
      rw [none] at jumps
      cases jumps
    · have next : operations.drop (i + 1) = others := by
        rw [drop_of_getElem? here] at rest
        exact (List.cons.inj rest).2
      have inside := (List.getElem?_eq_some_iff.mp here).1
      have later := path.falls (snippet_op.trans here) falls
      rw [plainly.after here enough] at later
      exact ih later inside (next ▸ quits) next

end

/-- The operand of an operation does not get near the machine's limits. -/
def tame : Operation → Bool
  | .pick depth | .swap depth => decide (0 ≤ depth.toInt ∧ depth.toInt ≤ addressable)
  | _ => true

theorem exact_of_tame {op : Operation} (tamed : tame op = true) : Exact op := by
  cases op
  case pick depth | swap depth =>
    have range : 0 ≤ depth.toInt ∧ depth.toInt ≤ addressable := of_decide_eq_true tamed
    simp only [addressable] at range
    have more : ∀ k : Int64, 0 ≤ k.toInt → k.toInt ≤ 2 →
        (depth + k).toInt = depth.toInt + k.toInt := by
      intro k _ _
      rw [Int64.toInt_add, Int.bmod_eq_of_le (by omega) (by omega)]
    exact ⟨more _ (by decide) (by decide), more _ (by decide) (by decide)⟩
  all_goals exact ⟨rfl, rfl⟩

theorem expand_tame (valid : Lawful plan o) (small : s.depth ≤ addressable)
    (flows : o.flow plan stamp s = .ok flow) : (o.expand plan fresh s).all tame = true := by
  have checked := valid.operand
  cases opcode : o.opcode <;> simp only [Bound.expand, opcode]
  case copy =>
    simp only [Bound.flow, opcode] at flows
    split at flows
    · cases flows
    · next peeked =>
      obtain ⟨positive, cell, found, _⟩ := peek_spec peeked
      have inside := (List.getElem?_eq_some_iff.mp found).1
      simp only [Stack.depth] at small
      simp only [List.all_cons, List.all_nil, Bool.and_true, tame, decide_eq_true_eq]
      omega
  case swap =>
    simp only [Bound.flow, opcode] at flows
    simp only [Bound.badOperand, opcode] at checked
    split at flows
    · cases flows
    · next taken =>
      have enough := (top_spec taken).1
      have two : 2 ≤ o.arg.toInt := by
        split at checked
        · cases checked
        · next two => exact Int64.le_iff_toInt_le.mp (Int64.not_lt.mp two)
      have less := pred_toInt (n := o.arg) (by omega)
      simp only [List.all_cons, List.all_nil, Bool.and_true, tame, decide_eq_true_eq]
      omega
  case popExcept =>
    rw [valid.popExcept opcode]
    unfold Plan.leave
    cases plan.dialect with
    | modern => rfl
    | legacy =>
      simp only []
      split <;> rfl
  case reraise =>
    unfold Guest.reraise
    split
    · rfl
    · split <;> rfl
  case raiseVarargs => split <;> [rfl; (split <;> rfl)]
  case loadGlobal | loadAttr => split <;> rfl
  all_goals rfl

theorem expand_label {label : Label} {k : Nat}
    (found : (snippetOf (o.expand plan fresh s)).labelIndex? label = some k) :
    o.opcode = .forIter ∧ label = fresh ∧ k + 1 = (o.expand plan fresh s).length := by
  obtain ⟨_, defined⟩ := findLabel_some found
  rw [snippet_op] at defined
  have listed := mem_labelsOf.mpr (List.mem_of_getElem? defined)
  rw [labelsOf_expand] at listed
  split at listed
  next iterates =>
    refine ⟨iterates, List.mem_singleton.mp listed, ?_⟩
    simp only [Bound.expand, iterates] at defined ⊢
    rcases k with _ | _ | _ | _ | _ | _ | _ | k <;> simp at defined ⊢
  next => cases listed

theorem expand_own (iterates : o.opcode = .forIter) :
    (snippetOf (o.expand plan fresh s)).labelIndex? fresh = some 6 := by
  simp [Routine.labelIndex?, snippetOf, Bound.expand, iterates, Routine.findLabel]

theorem expand_plainly (valid : Lawful plan o) (countable : Countable o) (small : s.depth ≤ addressable)
    (flows : o.flow plan stamp s = .ok flow) : Plainly (o.expand plan fresh s) :=
  ⟨fun op member => exact_of_tame (List.all_eq_true.mp (expand_tame valid small flows) op member),
    expand_fair (p := ⟨s, []⟩) valid countable small flows,
    fun _ _ found => (expand_label found).2.2⟩

theorem expand_balances (valid : Lawful plan o) (countable : Countable o)
    (whole : o.opcode = .checkExcMatch → s.depth ≠ 1) (apart : o.opcode = .forIter → o.arg ≠ fresh)
    (small : s.depth ≤ addressable) (flows : o.flow plan stamp s = .ok flow) :
    Balances (o.expand plan fresh s) s.depth flow := by
  have plainly : Plainly (o.expand plan fresh s) := expand_plainly valid countable small flows
  have held : Suffices (Final flow) (o.expand plan fresh s) s.depth := expand_suffices valid whole flows
  have mirrors : Mirrors (o.expand plan fresh s) s.depth (Way fresh o flow) :=
    expand_mirrors (p := ⟨s, []⟩) valid small flows
  have edges := (flow_edges flows).2
  constructor
  case exact => exact plainly.exact
  case enough => exact held.provided plainly
  case through =>
    intro depth path
    obtain ⟨m, rfl, midway | arrived⟩ := path.midway plainly held
    · have taken := mirrors.sound _ _ (midway.quits none m (by rw [List.drop_length]; exact ⟨rfl, rfl⟩))
      rcases way_iff.mp taken with ⟨falls, same, _⟩ | ⟨_, _, _, other, _⟩
      · exact ⟨falls, by rw [same]⟩
      · cases other
    · obtain ⟨id, _, own, quits⟩ := arrived.label
      obtain ⟨iterates, rfl, _⟩ := expand_label own
      rcases way_iff.mp (mirrors.sound _ _ quits) with ⟨falls, same, _⟩ | ⟨e, listed, _, other, _⟩
      · exact ⟨falls, by rw [same]⟩
      · exact absurd ((edges e listed).1.symm.trans (Option.some.inj other).symm) (apart iterates)
  case exits =>
    intro i depth op label path here named missing
    obtain ⟨m, rfl, midway | arrived⟩ := path.midway plainly held
    · have rest := midway.rest
      rw [drop_of_getElem? here] at rest
      rw [plainly.after here rest.1]
      have quits := midway.quits (some label) (depthAfter m op) (by
        rw [drop_of_getElem? here]
        exact ⟨rest.1, .inl ⟨by rw [named]; rfl, named.symm, rfl⟩⟩)
      rcases way_iff.mp (mirrors.sound _ _ quits) with ⟨_, _, own⟩ | ⟨e, listed, plain, same, level⟩
      · split at own
        next iterates =>
          cases own
          rw [expand_own iterates] at missing
          cases missing
        next => cases own
      · exact ⟨e, listed, plain, (Option.some.inj same).symm, by rw [level]⟩
    · obtain ⟨_, id, rfl⟩ := arrived.final here
      cases named
  case ends =>
    intro i depth op path here ends none
    obtain ⟨m, rfl, midway | arrived⟩ := path.midway plainly held
    · have rest := midway.rest
      rw [drop_of_getElem? here] at rest
      rw [plainly.after here rest.1]
      obtain ⟨stays, branches, same⟩ := rest.2.1 ends none
      exact ⟨stays, branches, by rw [same]⟩
    · obtain ⟨_, id, rfl⟩ := arrived.final here
      cases ends
  case falls =>
    intro falls
    have quits := mirrors.complete held.endures _ _ (way_iff.mpr (.inl ⟨falls, rfl, rfl⟩))
    obtain ⟨through, jumps⟩ := Quits.path plainly .start (Nat.zero_le _) (by simpa using quits)
    by_cases iterates : o.opcode = .forIter
    · obtain ⟨j, depth, op, path, here, named, same⟩ := jumps fresh (if_pos iterates)
      have own : (snippetOf (o.expand plan fresh s)).labelIndex? fresh = some 6 := expand_own iterates
      have arrived := path.jumps (snippet_op.trans here) named own
      obtain ⟨_, defined⟩ := findLabel_some own
      have later := arrived.falls defined rfl
      rw [same] at later
      simpa [reads, leaves, (expand_label own).2.2] using later
    · exact through (if_neg iterates)
  case branches =>
    intro e listed plain
    have quits := mirrors.complete held.endures _ _ (way_iff.mpr (.inr ⟨e, listed, plain, rfl, rfl⟩))
    obtain ⟨_, jumps⟩ := Quits.path plainly .start (Nat.zero_le _) (by simpa using quits)
    obtain ⟨j, depth, op, path, here, named, same⟩ := jumps e.target rfl
    refine ⟨j, depth, op, path, here, named, ?_, same⟩
    cases found : (snippetOf (o.expand plan fresh s)).labelIndex? e.target with
    | none => rfl
    | some k =>
      obtain ⟨iterates, own, _⟩ := expand_label found
      exact absurd ((edges e listed).1.symm.trans own) (apart iterates)

theorem ofFunction_plan {fn : Function} (drafted : Plan.ofFunction fn = .ok plan) :
    plan.function = fn ∧ dialectOf? fn.version = some plan.dialect := by
  unfold Plan.ofFunction at drafted
  split at drafted
  · cases drafted
  · next version =>
    unfold Plan.ofLegacy at drafted
    split at drafted <;> cases drafted
    exact ⟨rfl, version⟩
  · next version =>
    unfold Plan.ofModern at drafted
    split at drafted <;> cases drafted
    exact ⟨rfl, version⟩

theorem ofInstruction_lawful {fn : Function} {inst : Instruction} (drafted : Plan.ofFunction fn = .ok plan)
    (made : Bound.ofInstruction fn inst = .ok o) : Lawful plan o := by
  obtain ⟨rfl, version⟩ := ofFunction_plan drafted
  obtain ⟨_, _, resolved, checked⟩ := ofInstruction_spec made
  have dialect : o.dialect = plan.dialect :=
    Option.some.inj ((resolve?_dialect resolved).symm.trans version)
  exact ⟨checked, dialect, fun leaves => dialect ▸ exceptionSlots_eq leaves resolved⟩

theorem flow_refuses (valid : Lawful plan o) (countable : Countable o)
    (whole : o.opcode = .checkExcMatch → s.depth ≠ 1) (small : s.depth ≤ addressable)
    (short : ¬ Provided (o.expand plan fresh s) s.depth) (stamp : Nat) : ∃ fault,
      o.flow plan stamp s = .error fault ∧ (Short s fault ∨ Malformed fault ∧
        (o.opcode = .popExcept ∧ plan.dialect = .legacy ∨ o.opcode = .jumpIfNotExcMatch)) := by
  cases flows : o.flow plan stamp s with
  | ok flow =>
    exact absurd ((expand_suffices valid whole flows).provided (expand_plainly valid countable small flows))
      short
  | error fault =>
    refine ⟨fault, rfl, ?_⟩
    rcases flow_short flows with missing | opcode | ⟨⟨opcode, deep⟩ | opcode, malformed⟩
    · exact .inl missing
    · refine absurd (fun i depth op _ here => ?_) short
      simp [Bound.expand, opcode] at here
    · refine .inr ⟨malformed, .inl ⟨opcode, ?_⟩⟩
      cases dialect : plan.dialect with
      | legacy => rfl
      | modern =>
        -- the only operand of the modern one is there
        have one : Suffices (fun _ => True) (o.expand plan fresh s) s.depth := by
          simp only [Bound.expand, opcode, Plan.leave, dialect]
          exact .single (Int.ofNat_le.mpr (deep dialect)) rfl
        have plainly : Plainly (o.expand plan fresh s) := by
          refine ⟨?_, ?_, fun _ _ found => (expand_label found).2.2⟩ <;>
            simp only [Bound.expand, opcode, Plan.leave, dialect]
          · exact List.forall_mem_singleton.mpr ⟨rfl, rfl⟩
          · rfl
        exact absurd (one.provided plainly) short
    · exact .inr ⟨malformed, .inr opcode⟩

/-- The flow of an instruction demands what its operations read. Where it is defined, the operations find
their operands on every path and leave the stack as deep as it says; where they would not, it is not defined,
and the analysis stops at the instruction because the stack is too short, or because the exception state of
an old handler is not in place. -/
theorem flow_demands (fn : Function) (plan : Plan) (inst : Instruction) (o : Bound)
    (drafted : Plan.ofFunction fn = .ok plan) (made : Bound.ofInstruction fn inst = .ok o) (s : Stack)
    (fresh : Label) (small : s.depth ≤ addressable) (countable : Countable o)
    (whole : o.opcode = .checkExcMatch → s.depth ≠ 1) (apart : o.opcode = .forIter → o.arg ≠ fresh) :
    (∀ stamp flow, o.flow plan stamp s = .ok flow →
      Balances (o.expand plan fresh s) s.depth flow) ∧
    (¬ Provided (o.expand plan fresh s) s.depth → ∀ st i blocks, ∃ fault,
      o.flow plan st.stamp s = .error fault ∧
      Analysis.carry plan st i o ⟨s, blocks⟩ = .error ⟨fault, some i⟩ ∧
      (fn.instructions[i]? = some inst → (attributed fn ⟨fault, some i⟩).offset = inst.offset) ∧
      (Short s fault ∨ Malformed fault ∧
        (o.opcode = .popExcept ∧ plan.dialect = .legacy ∨ o.opcode = .jumpIfNotExcMatch))) := by
  have valid := ofInstruction_lawful drafted made
  refine ⟨fun _ _ flows => expand_balances valid countable whole apart small flows, fun short st i blocks => ?_⟩
  obtain ⟨fault, flows, kind⟩ := flow_refuses valid countable whole small short st.stamp
  refine ⟨fault, flows, ?_, fun present => ?_, kind⟩
  · simp only [Analysis.carry, flows]
    rfl
  · simp [attributed, present]

/-- A function of a single instruction. -/
def lone (version : Version) (inst : Instruction) : Function where
  name := "f"
  version := version
  instructions := #[inst]

/-- An iteration that ends where it started. -/
def rewinding : Instruction := { offset := 0, code := Opcode.forIter.code, arg := 0 }

theorem rewinding_demands : ∃ plan o flow fault, Plan.ofFunction (lone ⟨3, 11⟩ rewinding) = .ok plan ∧
    Bound.ofInstruction (lone ⟨3, 11⟩ rewinding) rewinding = .ok o ∧
    Balances (o.expand plan (-1) ⟨[⟨0, .ofKind .iterator⟩], []⟩) 1 flow ∧
    Analysis.carry plan (.start plan) 0 o ⟨⟨[], []⟩, []⟩ = .error ⟨fault, some 0⟩ ∧
    (attributed (lone ⟨3, 11⟩ rewinding) ⟨fault, some 0⟩).offset = 0 := by
  obtain ⟨plan, o, drafted, made, opcode, flows⟩ : ∃ plan o,
      Plan.ofFunction (lone ⟨3, 11⟩ rewinding) = .ok plan ∧
      Bound.ofInstruction (lone ⟨3, 11⟩ rewinding) rewinding = .ok o ∧ o.opcode = .forIter ∧
      ∃ flow, o.flow plan 1 ⟨[⟨0, .ofKind .iterator⟩], []⟩ = .ok flow :=
    ⟨_, _, by cbv, by cbv, rfl, _, rfl⟩
  obtain ⟨flow, flows⟩ := flows
  have same : o.inst = rewinding := (ofInstruction_spec made).1
  have countable : Countable o := by rintro (other | other) <;> cases opcode.symm.trans other
  have whole : ∀ s : Stack, o.opcode = .checkExcMatch → s.depth ≠ 1 := fun _ other => by
    cases opcode.symm.trans other
  have apart : o.opcode = .forIter → o.arg ≠ -1 := fun _ => by rw [Bound.arg, same]; decide
  have short : ¬ Provided (o.expand plan (-1) ⟨[], []⟩) 0 := by
    intro provided
    simp only [Bound.expand, opcode] at provided
    exact absurd (provided 0 0 .dup .start rfl) (by decide)
  have balances := (flow_demands _ plan rewinding o drafted made ⟨[⟨0, .ofKind .iterator⟩], []⟩ (-1)
    (by decide) countable (whole _) apart).1 1 flow flows
  obtain ⟨fault, _, stops, offset, _⟩ := (flow_demands _ plan rewinding o drafted made ⟨[], []⟩ (-1)
    (by decide) countable (whole _) apart).2 short (.start plan) 0 []
  exact ⟨plan, o, flow, fault, drafted, made, balances, stops, offset rfl⟩

/-- An old match. -/
def matching : Instruction := { offset := 0, code := Opcode.jumpIfNotExcMatch.code, arg := 0 }

theorem matching_malformed : ∃ plan o fault, Plan.ofFunction (lone ⟨3, 9⟩ matching) = .ok plan ∧
    Bound.ofInstruction (lone ⟨3, 9⟩ matching) matching = .ok o ∧
    ¬ Provided (o.expand plan (-1) ⟨[⟨0, .ofKind .object⟩, ⟨0, .ofKind .object⟩], []⟩) 2 ∧
    o.flow plan 1 ⟨[⟨0, .ofKind .object⟩, ⟨0, .ofKind .object⟩], []⟩ = .error fault ∧
    ∀ want known, fault ≠ .underflow want known := by
  obtain ⟨plan, o, drafted, made, opcode, fault, flows, malformed⟩ : ∃ plan o,
      Plan.ofFunction (lone ⟨3, 9⟩ matching) = .ok plan ∧
      Bound.ofInstruction (lone ⟨3, 9⟩ matching) matching = .ok o ∧ o.opcode = .jumpIfNotExcMatch ∧
      ∃ fault, o.flow plan 1 ⟨[⟨0, .ofKind .object⟩, ⟨0, .ofKind .object⟩], []⟩ = .error fault ∧
        Malformed fault :=
    ⟨_, _, by cbv, by cbv, rfl, _, rfl, _, _, _, _, _, rfl⟩
  refine ⟨plan, o, fault, drafted, made, fun provided => ?_, flows, fun want known short => ?_⟩
  · simp only [Bound.expand, opcode] at provided
    exact absurd (provided 0 2 (.pick 3) .start rfl) (by decide)
  · obtain ⟨_, _, _, _, _, rfl⟩ := malformed
    cases short

end Lowering.Proofs
