import Lowering.Proofs.Expansions

/-! The depths with which straight-line code is left. The operations of an instruction are left in just
the ways that its flow shows, at the depths of the shapes that it carries there. -/

namespace Lowering.Proofs
open Host Shape Guest

/-- The depth after an operation. -/
def depthAfter (n : Nat) (o : Operation) : Nat := n - o.pops.toInt.toNat + o.pushes.toInt.toNat

/-- The code can be left, by a jump to a label or at its end, with a depth. -/
def Quits : List Operation → Nat → Option Label → Nat → Prop
  | [], n, exit, depth => exit = none ∧ depth = n
  | o :: rest, n, exit, depth => o.pops.toInt ≤ n ∧
      ((o.target?.isSome = true ∧ exit = o.target? ∧ depth = depthAfter n o) ∨
        (o.terminates = false ∧ Quits rest (depthAfter n o) exit depth))

/-- The operations that are not jumped over find their operands. -/
def Endures : List Operation → Nat → Prop
  | [], _ => True
  | o :: rest, n => o.pops.toInt ≤ n ∧ (o.terminates = false → Endures rest (depthAfter n o))

/-- The code is left in the given ways, unless an operation does not find its operands. -/
structure Mirrors (operations : List Operation) (n : Nat) (way : Option Label → Nat → Prop) : Prop where
  sound : ∀ exit depth, Quits operations n exit depth → way exit depth
  complete : Endures operations n → ∀ exit depth, way exit depth → Quits operations n exit depth

/-- Control goes on with the next operation. -/
def passes (o : Operation) : Bool := o.target?.isNone && !o.terminates

variable {operations rest : List Operation} {n : Nat} {way : Option Label → Nat → Prop}

/-- Operations that pass control on bring it to what follows. -/
theorem Mirrors.append (operations : List Operation) (straight : operations.all passes = true)
    (later : Endures operations n → Mirrors rest (operations.foldl depthAfter n) way) :
    Mirrors (operations ++ rest) n way := by
  induction operations generalizing n with
  | nil => exact later trivial
  | cons o operations ih =>
    rw [List.all_cons, Bool.and_eq_true] at straight
    obtain ⟨first, others⟩ := straight
    simp only [passes, Bool.and_eq_true, Option.isNone_iff_eq_none, Bool.not_eq_true'] at first
    have further : o.pops.toInt ≤ n → Mirrors (operations ++ rest) (depthAfter n o) way := fun enough =>
      ih others fun endures => later ⟨enough, fun _ => endures⟩
    constructor
    · rintro exit depth ⟨enough, ⟨jumps, _⟩ | ⟨_, quits⟩⟩
      · rw [first.1] at jumps
        cases jumps
      · exact (further enough).sound exit depth quits
    · rintro ⟨enough, endures⟩ exit depth taken
      exact ⟨enough, .inr ⟨first.2, (further enough).complete (endures first.2) exit depth taken⟩⟩

theorem Mirrors.nil (level : ∀ exit depth, way exit depth ↔ exit = none ∧ depth = n) :
    Mirrors [] n way :=
  ⟨fun exit depth => (level exit depth).mpr, fun _ exit depth => (level exit depth).mp⟩

/-- An operation that stops control, or takes it elsewhere. -/
theorem Mirrors.stops {o : Operation} (ends : o.terminates = true)
    (level : ∀ exit depth, way exit depth ↔
      o.target?.isSome = true ∧ exit = o.target? ∧ depth = depthAfter n o) :
    Mirrors (o :: rest) n way := by
  constructor
  · rintro exit depth ⟨_, jumps | ⟨falls, _⟩⟩
    · exact (level exit depth).mpr jumps
    · cases ends.symm.trans falls
  · rintro ⟨enough, _⟩ exit depth taken
    exact ⟨enough, .inl ((level exit depth).mp taken)⟩

theorem Mirrors.forks {o : Operation} {label : Label} {other : Option Label → Nat → Prop}
    (named : o.target? = some label) (falls : o.terminates = false)
    (both : ∀ exit depth, way exit depth ↔
      (exit = some label ∧ depth = depthAfter n o) ∨ other exit depth)
    (later : Mirrors rest (depthAfter n o) other) : Mirrors (o :: rest) n way := by
  constructor
  · rintro exit depth ⟨_, ⟨_, rfl, rfl⟩ | ⟨_, quits⟩⟩
    · exact (both _ _).mpr (.inl ⟨named, rfl⟩)
    · exact (both _ _).mpr (.inr (later.sound exit depth quits))
  · rintro ⟨enough, endures⟩ exit depth taken
    refine ⟨enough, ?_⟩
    rcases (both exit depth).mp taken with ⟨rfl, rfl⟩ | taken
    · exact .inl ⟨by rw [named]; rfl, named.symm, rfl⟩
    · exact .inr ⟨falls, later.complete (endures falls) exit depth taken⟩

/-- The ways out of an instruction that its flow shows. An iteration that goes on does so by a jump to
the label at its end. -/
inductive Way (fresh : Label) (o : Bound) (flow : Flow) : Option Label → Nat → Prop
  | through (falls : flow.falls = true) (plain : o.opcode ≠ .forIter) :
      Way fresh o flow none flow.next.depth
  | again (falls : flow.falls = true) (iterates : o.opcode = .forIter) :
      Way fresh o flow (some fresh) flow.next.depth
  | branch {e : Edge} (listed : e ∈ flow.branches) (plain : e.handler = false) :
      Way fresh o flow (some e.target) e.shape.depth

section
variable {fresh : Label} {o : Bound} {flow : Flow} {exit : Option Label} {depth : Nat}

theorem way_iff : Way fresh o flow exit depth ↔
    (flow.falls = true ∧ depth = flow.next.depth ∧
      exit = if o.opcode = .forIter then some fresh else none) ∨
    ∃ e ∈ flow.branches, e.handler = false ∧ exit = some e.target ∧ depth = e.shape.depth := by
  constructor
  · rintro (⟨falls, plain⟩ | ⟨falls, iterates⟩ | ⟨listed, plain⟩)
    · exact .inl ⟨falls, rfl, by rw [if_neg plain]⟩
    · exact .inl ⟨falls, rfl, by rw [if_pos iterates]⟩
    · exact .inr ⟨_, listed, plain, rfl, rfl⟩
  · rintro (⟨falls, rfl, rfl⟩ | ⟨e, listed, plain, rfl, rfl⟩)
    · split
      next iterates => exact .again falls iterates
      next plain => exact .through falls plain
    · exact .branch listed plain

end

section
variable {s : Stack} {stamp : Nat} {fresh : Label} {o : Bound} {flow : Flow} {opcode : Opcode}

private theorem mirrors_through (same : o.opcode = opcode) (plain : opcode ≠ .forIter)
    (falls : flow.falls = true) (free : ∀ e ∈ flow.branches, e.handler = true)
    (straight : operations.all passes = true)
    (level : Endures operations n → operations.foldl depthAfter n = flow.next.depth) :
    Mirrors operations n (Way fresh o flow) := by
  rw [← List.append_nil operations]
  refine .append _ straight fun endures => .nil fun exit depth => ?_
  have none : ¬ ∃ e ∈ flow.branches, e.handler = false ∧ exit = some e.target ∧
      depth = e.shape.depth := by
    rintro ⟨e, listed, handler, _⟩
    cases (free e listed).symm.trans handler
  rw [way_iff, level endures, same, if_neg plain, or_iff_left none]
  exact ⟨fun ⟨_, level, through⟩ => ⟨through, level⟩, fun ⟨through, level⟩ => ⟨falls, level, through⟩⟩

private theorem mirrors_never (operations : List Operation) {last : Operation}
    (stays : flow.falls = false) (branches : flow.branches = [])
    (straight : operations.all passes = true) (final : last.target? = none)
    (ends : last.terminates = true) : Mirrors (operations ++ [last]) n (Way fresh o flow) :=
  .append _ straight fun _ => .stops ends fun exit depth => by
    simp [way_iff, stays, branches, final]

private theorem mirrors_branch (operations : List Operation) {jump : Operation} {next : Stack}
    {target : Int64} (same : o.opcode = opcode) (plain : opcode ≠ .forIter)
    (flows : flow = ⟨next, true, [⟨target, next, false⟩]⟩) (straight : operations.all passes = true)
    (jumps : jump = .ifTrue target ∨ jump = .ifFalse target)
    (level : Endures operations n → operations.foldl depthAfter n = next.depth + 1) :
    Mirrors (operations ++ [jump]) n (Way fresh o flow) := by
  subst flows
  have after : depthAfter (next.depth + 1) jump = next.depth := by rcases jumps with rfl | rfl <;> rfl
  have named : jump.target? = some target := by rcases jumps with rfl | rfl <;> rfl
  have falls : jump.terminates = false := by rcases jumps with rfl | rfl <;> rfl
  refine .append _ straight fun endures => ?_
  rw [level endures]
  refine .forks named falls (fun exit depth => ?_) (.nil fun _ _ => Iff.rfl)
  rw [way_iff, after, same, if_neg plain]
  simp [or_comm, and_comm]

private theorem mirrors_replace {count : Int64} {slots : List Slot} (same : o.opcode = opcode)
    (plain : opcode ≠ .forIter) (flows : Flow.replace stamp s count slots = .ok flow)
    (straight : operations.all passes = true)
    (level : Endures operations s.depth → count.toInt ≤ s.depth →
      operations.foldl depthAfter s.depth = s.depth - count.toInt.toNat + slots.length) :
    Mirrors operations s.depth (Way fresh o flow) := by
  obtain ⟨enough, rfl⟩ := replace_spec flows
  refine mirrors_through same plain rfl nofun straight fun endures =>
    (level endures enough).trans ?_
  simp only [Flow.through, Stack.depth, List.length_append, List.length_reverse, List.length_map,
    List.length_drop]
  omega

end

private theorem depthAfter_pick {depth : Int64} (positive : 0 ≤ depth.toInt) (inside : depth.toInt.toNat < n)
    (small : n ≤ addressable) : depthAfter n (.pick depth) = n + 1 := by
  simp only [addressable] at small
  have more : ∀ k : Int64, 0 ≤ k.toInt → k.toInt ≤ 2 →
      (depth + k).toInt = depth.toInt + k.toInt := by
    intro k _ _
    rw [Int64.toInt_add, Int.bmod_eq_of_le (by omega) (by omega)]
  have one := more 1 (by decide) (by decide)
  have two := more 2 (by decide) (by decide)
  simp only [depthAfter, Operation.pops, Operation.pushes, one, two]
  change n - (depth.toInt + 1).toNat + (depth.toInt + 2).toNat = n + 1
  omega

private theorem mirrors_iteration {s : Stack} {stamp : Nat} {fresh : Label} {o : Bound} {flow : Flow}
    (iterates : o.opcode = .forIter) (present : 1 ≤ s.depth)
    (flows : flow = ⟨s.push stamp (.ofKind .object), true,
      [⟨o.arg, { s with cells := s.cells.drop 1 }, false⟩]⟩) :
    Mirrors [.dup, .invoke ⟨.iterNext, 1, 2, 0, ""⟩, .ifTrue fresh, .pop, .pop, .goto o.arg,
      .label fresh] s.depth (Way fresh o flow) := by
  have pushed : [.dup, .invoke ⟨.iterNext, 1, 2, 0, ""⟩].foldl depthAfter s.depth = s.depth + 2 := by
    change s.depth - 1 + 2 - 1 + 2 = s.depth + 2
    omega
  have dropped : [.pop, .pop].foldl depthAfter (s.depth + 1) = s.depth - 1 := by
    change s.depth + 1 - 1 + 0 - 1 + 0 = s.depth - 1
    omega
  refine .append [_, _] rfl fun _ => ?_
  rw [pushed]
  have ends : Mirrors [.pop, .pop, .goto o.arg, .label fresh] (s.depth + 1)
      fun exit depth => exit = some o.arg ∧ depth = s.depth - 1 := by
    refine .append [_, _] rfl fun _ => .stops rfl fun exit depth => ?_
    rw [dropped]
    simp [depthAfter, Operation.target?, Operation.pops, Operation.pushes]
  refine .forks rfl rfl (fun exit depth => ?_) ends
  subst flows
  rw [way_iff, if_pos iterates]
  simp [Stack.depth, Stack.push, depthAfter, Operation.pops, Operation.pushes, and_comm]

section
variable {plan : Plan} {p : Point} {stamp : Nat} {fresh : Label} {o : Bound} {flow : Flow}

/-- The operations of an instruction are left as its flow says. -/
theorem expand_mirrors (valid : Lawful plan o) (small : p.shape.depth ≤ addressable)
    (flows : o.flow plan stamp p.shape = .ok flow) :
    Mirrors (o.expand plan fresh p.shape) p.shape.depth (Way fresh o flow) := by
  cases opcode : o.opcode <;> simp only [Bound.flow, opcode] at flows <;>
    simp only [Bound.expand, opcode]
  case nop | resume | cache | popBlock =>
    cases flows
    exact mirrors_through opcode (by decide) rfl (by rintro _ ⟨⟩) rfl fun _ => rfl
  case setupFinally =>
    split at flows
    · cases flows
    · cases flows
      exact mirrors_through opcode (by decide) rfl (by simp) rfl fun _ => rfl
  case unaryNot | compareOp | isOp | containsOp | buildTuple | buildList | callFunction | call
      | getIter | storeAttr | popTop | storeGlobal =>
    exact mirrors_replace opcode (by decide) flows rfl fun _ _ => rfl
  case loadAttr =>
    split
    next wants =>
      simp only [wants, if_true] at flows
      exact mirrors_replace opcode (by decide) flows rfl fun _ _ => rfl
    next plain =>
      simp only [plain, Bool.false_eq_true, if_false] at flows
      exact mirrors_replace opcode (by decide) flows rfl fun _ _ => rfl
  case unaryNegative =>
    split at flows
    · cases flows
    · exact mirrors_replace opcode (by decide) flows rfl fun _ _ => rfl
  case binaryAdd | binarySubtract | binaryMultiply | binaryOp =>
    obtain ⟨b, a, cells, below, rfl⟩ := binary_spec flows
    refine mirrors_through opcode (by decide) rfl (by rintro _ ⟨⟩) rfl fun _ => ?_
    simp only [Flow.through, Stack.depth, below, List.length_cons]
    rfl
  case pushNull | loadConst | loadFast =>
    cases flows
    exact mirrors_through opcode (by decide) rfl (by rintro _ ⟨⟩) rfl fun _ => rfl
  case loadGlobal =>
    cases flows
    rw [pushAll_eq]
    split
    all_goals
      refine mirrors_through opcode (by decide) rfl (by rintro _ ⟨⟩) rfl fun _ => ?_
      simp [Flow.through, Stack.depth]
      rfl
  case dupTop =>
    split at flows
    · cases flows
    · cases flows
      refine mirrors_through opcode (by decide) rfl (by rintro _ ⟨⟩) rfl fun enough => ?_
      have some : (1 : Int) ≤ p.shape.depth := by simpa [Operation.pops] using enough.1
      change p.shape.depth - 1 + 2 = p.shape.depth + 1
      omega
  case copy =>
    split at flows
    · cases flows
    · next top peeked =>
      cases flows
      refine mirrors_through opcode (by decide) rfl (by rintro _ ⟨⟩) rfl fun enough => ?_
      obtain ⟨positive, cell, found, _⟩ := peek_spec peeked
      exact depthAfter_pick positive (List.getElem?_eq_some_iff.mp found).1 small
  case swap =>
    split at flows
    · cases flows
    · next slots taken =>
      obtain ⟨enough, rfl⟩ := top_spec taken
      refine mirrors_replace opcode (by decide) flows rfl fun _ _ => ?_
      rw [exchange_length]
      simp only [List.foldl, depthAfter, Operation.pops, Operation.pushes, Int64.sub_add_cancel,
        List.length_reverse, List.length_map, List.length_take, Stack.depth] at enough ⊢
      omega
  case rotTwo =>
    split at flows
    · cases flows
    · next slots taken =>
      obtain ⟨enough, rfl⟩ := top_spec taken
      refine mirrors_replace opcode (by decide) flows rfl fun _ _ => ?_
      have two : (2 : Int64).toInt = 2 := rfl
      rw [two] at enough
      simp only [List.foldl, depthAfter, Operation.pops, Operation.pushes, List.length_reverse,
        List.length_map, List.length_take, Stack.depth] at enough ⊢
      change p.shape.cells.length - 2 + 2 = p.shape.cells.length - 2 + min 2 p.shape.cells.length
      omega
  case storeFast =>
    split at flows
    · cases flows
    · next top rest below =>
      cases flows
      refine mirrors_through opcode (by decide) rfl (by rintro _ ⟨⟩) rfl fun _ => ?_
      simp only [Flow.through, Stack.depth, below, List.length_cons]
      rfl
  case deleteFast =>
    cases flows
    exact mirrors_through opcode (by decide) rfl (by rintro _ ⟨⟩) rfl fun _ => rfl
  case returnValue =>
    obtain ⟨_, rfl⟩ := leave_spec flows
    exact mirrors_never [] rfl rfl rfl rfl rfl
  case jumpForward | jumpAbsolute | jumpBackward =>
    cases flows
    refine .stops rfl fun exit depth => ?_
    simp [way_iff, depthAfter, Operation.pops, Operation.pushes, Operation.target?]
  case popJumpIfFalse | popJumpIfTrue =>
    obtain ⟨cell, cells, below, same⟩ := branch_spec flows
    refine mirrors_branch [_] opcode (by decide) same rfl (by simp) fun _ => ?_
    simp only [Stack.depth, below, List.length_cons]
    rfl
  case forIter =>
    split at flows
    · cases flows
    · next exhausted popped =>
      obtain ⟨enough, rfl⟩ := pop_spec popped
      cases flows
      exact mirrors_iteration opcode (Int.ofNat_le.mp enough) rfl
  case popExcept =>
    split at flows
    · cases flows
    · unfold Plan.leave
      cases dialect : plan.dialect with
      | modern =>
        refine mirrors_replace opcode (by decide) flows rfl fun _ _ => ?_
        rw [valid.popExcept opcode, dialect]
        rfl
      | legacy =>
        rw [valid.popExcept opcode, dialect] at flows ⊢
        refine mirrors_replace opcode (by decide) flows ?_ fun _ _ => ?_
        · simp only []
          split <;> rfl
        · simp only []
          split <;> rfl
  case reraise =>
    obtain ⟨enough, rfl⟩ := leave_spec flows
    unfold Guest.reraise
    split
    · exact mirrors_never [_, _, _] rfl rfl rfl rfl rfl
    · split
      · exact mirrors_never [] rfl rfl rfl rfl rfl
      · exact mirrors_never [_, _] rfl rfl rfl rfl rfl
  case raiseVarargs =>
    obtain ⟨enough, rfl⟩ := leave_spec flows
    split
    · exact mirrors_never [_] rfl rfl rfl rfl rfl
    · split <;> exact mirrors_never [_] rfl rfl rfl rfl rfl
  case jumpIfNotExcMatch =>
    split at flows
    · cases flows
    · obtain ⟨cell, cells, below, same⟩ := branch_spec flows
      refine mirrors_branch [_, _, _] opcode (by decide) same rfl (by simp) fun enough => ?_
      have four : (4 : Int) ≤ p.shape.depth := enough.1
      have count : p.shape.depth = cells.length + 1 := by simp [Stack.depth, below]
      change p.shape.depth - 4 + 5 - 2 + 2 - 2 + 1 = cells.length + 1
      omega
  case pushExcInfo =>
    split at flows
    · cases flows
    · refine mirrors_replace opcode (by decide) flows rfl fun _ enough => ?_
      have one : (1 : Int) ≤ p.shape.depth := enough
      change p.shape.depth + 1 - 2 + 2 - 1 + 2 - 1 = p.shape.depth - 1 + 2
      omega
  case checkExcMatch =>
    refine mirrors_replace opcode (by decide) flows rfl fun enough _ => ?_
    have two : (2 : Int) ≤ p.shape.depth := enough.1
    change p.shape.depth - 2 + 3 - 2 + 2 - 2 + 1 = p.shape.depth - 1 + 1
    omega
end

end Lowering.Proofs
