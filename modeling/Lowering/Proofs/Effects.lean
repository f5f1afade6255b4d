import Mathlib.Algebra.GroupWithZero.Nat
import Lowering.Proofs.Runs

/-! What an operation can do to its frame: where control goes, how deep the stack is afterwards, and
which faults it can end by. -/

namespace Lowering.Proofs
open Machine Host

/-- Control falls through, or goes to the label that the operation names. -/
def Moves (f : Frame) (o : Operation) (ip : Nat) : Prop :=
  (ip = f.ip ∧ o.terminates = false) ∨
  ∃ label, o.target? = some label ∧ f.routine.labelIndex? label = some ip

/-- The faults of an operation, each with its reason. -/
def Blames (f : Frame) (o : Operation) : Machine.Fault → Prop
  | .underflow .. => Int64.ofNat f.stack.length < o.pops
  | .overflow _ =>
    Int64.ofNat maxStackDepth < Int64.ofNat f.stack.length - o.pops + o.pushes
  | .undefinedLabel label => o.target? = some label ∧ f.routine.labelIndex? label = none
  | .undefinedHandler _ | .belowProtected .. | .endOfRoutine _ | .cancelled | .stepLimit
  | .outOfFuel => False
  | .halted | .outOfStack _ | .localOutOfRange _ | .wrongResults .. | .gaveUp _ => True

def Ends (f : Frame) (o : Operation) : Ending → Prop
  | .returned _ => o = .ret
  | .thrown _ | .fellThrough => False
  | .exited _ => f.snippet = true
  | .failed fault => Blames f o fault

/-- What an operation makes of a frame that already points to the one that follows. A frame that
raises or calls has lost the operands and nothing else. -/
def Within (f : Frame) (o : Operation) : Effect → Prop
  | .next g => g.routine = f.routine ∧ g.snippet = f.snippet ∧
      g.locals.size = f.locals.size ∧ Moves f o g.ip ∧
      g.stack.length ≤ f.stack.length + maxStackDepth ∧ (f.stack.length < 2 ^ 62 →
        Int64.ofNat g.stack.length = Int64.ofNat f.stack.length - o.pops + o.pushes)
  | .raise g _ => ∃ n, (f.stack.length < 2 ^ 62 → n ≤ f.stack.length) ∧ Int64.ofNat n = o.pops ∧
      g = { f with stack := f.stack.drop n }
  | .enter g callee => ∃ inv, o = .invoke inv ∧ 0 ≤ inv.args ∧
      (f.stack.length < 2 ^ 62 → inv.args.toInt.toNat ≤ f.stack.length) ∧
      g = { f with stack := f.stack.drop inv.args.toInt.toNat } ∧
      ∃ heap routine args depth, callee = (Frame.enter heap routine args depth).1
  | .finish g ending => g.routine = f.routine ∧ g.snippet = f.snippet ∧ Ends f o ending

/-- A count of operands that are on the stack is the count itself. -/
theorem ofNat_toNat {n : Int64} (positive : 0 ≤ n) : Int64.ofNat n.toInt.toNat = n := by
  have bound : (0 : Int) ≤ n.toInt := by simpa [Int64.le_iff_toInt_le] using positive
  rw [← Int64.ofInt_eq_ofNat, Int.toNat_of_nonneg bound, Int64.ofInt_toInt]

theorem toNat_le_of_not_lt {n : Int64} {length : Nat} (small : length < 2 ^ 63)
    (enough : ¬ Int64.ofNat length < n) : n.toInt.toNat ≤ length := by
  rw [Int64.lt_iff_toInt_lt, Int64.toInt_ofNat_of_lt small] at enough
  omega

/-- The answers of a helper to an invocation whose operands are off the stack. -/
def Answers (f : Frame) (inv : Invocation) : Effect → Prop
  | .next g => ∃ results : List Value, inv.results.toInt = results.length ∧
      results.length + f.stack.length ≤ maxStackDepth ∧
      g = { f with stack := results.reverse ++ f.stack }
  | .raise g _ => g = f
  | .enter g callee => g = f ∧ ∃ heap routine args depth,
      callee = (Frame.enter heap routine args depth).1
  | .finish g ending => g = f ∧ ∃ fault, ending = .failed fault ∧
      (fault = .halted ∨ (∃ name present needed, fault = .wrongResults name present needed) ∨
        ∃ failure, fault = .gaveUp failure)

theorem pushResults_answers (st : State) (f : Frame) (inv : Invocation) (results : List Value) :
    Answers f inv (pushResults st f inv results).2 := by
  rcases pushResults_cases st f inv results with ⟨pushed, count, room⟩ | failed
  · rw [pushed]
    exact ⟨results, count, room, rfl⟩
  · rw [failed]
    exact ⟨rfl, _, rfl, .inr (.inl ⟨_, _, _, rfl⟩)⟩

theorem callValue_answers (setup : Setup) (st : State) (f : Frame) (inv : Invocation)
    (callee : Value) (args : List Value) :
    Answers f inv (callValue setup st f inv callee args).2 := by
  unfold callValue
  split
  next ref =>
    dsimp only
    split
    next => exact ⟨rfl, _, rfl, .inl rfl⟩
    next =>
      split
      next results _ =>
        split
        next => exact ⟨rfl, _, rfl, .inl rfl⟩
        next => exact pushResults_answers _ f inv results
      next => exact rfl
      next => exact ⟨rfl, _, rfl, .inr (.inr ⟨_, rfl⟩)⟩
      next => exact ⟨rfl, _, rfl, .inr (.inr ⟨_, rfl⟩)⟩
  next ref =>
    dsimp only
    split
    next => exact rfl
    next =>
      split
      next => exact ⟨rfl, _, rfl, .inl rfl⟩
      next => exact ⟨rfl, _, _, _, _, rfl⟩
  next ref => exact pushResults_answers _ f inv _
  next => exact rfl

theorem invoke_answers (setup : Setup) (st : State) (f : Frame) (inv : Invocation)
    (args : List Value) : Answers f inv (invoke setup st f inv args).2 := by
  unfold invoke
  dsimp only
  split
  next results _ => exact pushResults_answers _ f inv results
  next => exact rfl
  next => exact ⟨rfl, _, rfl, .inr (.inr ⟨_, rfl⟩)⟩
  next callee args _ => exact callValue_answers setup _ f inv callee args

private theorem invoke_within {f : Frame} {inv : Invocation} {effect : Effect}
    (enough : ¬ Int64.ofNat f.stack.length < inv.args)
    (positive : 0 ≤ inv.args)
    (answer : Answers { f with stack := f.stack.drop inv.args.toInt.toNat } inv effect) :
    Within f (.invoke inv) effect := by
  have taken : f.stack.length < 2 ^ 62 → inv.args.toInt.toNat ≤ f.stack.length :=
    fun small => toNat_le_of_not_lt (by omega) enough
  have count := ofNat_toNat positive
  cases effect with
  | next g =>
    obtain ⟨results, announced, room, rfl⟩ := answer
    simp only [List.length_drop] at room
    refine ⟨rfl, rfl, rfl, .inl ⟨rfl, rfl⟩, ?_, ?_⟩
    · simp only [List.length_append, List.length_reverse, List.length_drop]
      omega
    · intro small
      have result : Int64.ofNat results.length = inv.results := by
        rw [← Int64.ofInt_eq_ofNat, ← announced, Int64.ofInt_toInt]
      simp only [List.length_append, List.length_reverse, List.length_drop, Int64.ofNat_add,
        Int64.ofNat_sub _ _ (taken small), count, result, Operation.pops, Operation.pushes]
      grind
  | raise g exception => exact ⟨inv.args.toInt.toNat, taken, count, answer⟩
  | enter g callee => exact ⟨inv, rfl, positive, taken, answer.1, answer.2⟩
  | finish g ending =>
    obtain ⟨rfl, fault, rfl, reason⟩ := answer
    refine ⟨rfl, rfl, ?_⟩
    rcases reason with rfl | ⟨_, _, _, rfl⟩ | ⟨_, rfl⟩ <;> trivial

private theorem jump_within {f g : Frame} {o : Operation} {label : Label} (st : State)
    (target : o.target? = some label) (routine : g.routine = f.routine)
    (snippet : g.snippet = f.snippet) (locals : g.locals.size = f.locals.size)
    (length : g.stack.length ≤ f.stack.length)
    (after : Int64.ofNat g.stack.length = Int64.ofNat f.stack.length - o.pops + o.pushes) :
    Within f o (jump st g label).2 := by
  unfold jump
  split
  next ip found =>
    rw [routine] at found
    exact ⟨routine, snippet, locals, .inr ⟨label, target, found⟩, by dsimp only; omega,
      fun _ => after⟩
  next missing =>
    split
    next outside =>
      rw [snippet] at outside
      exact ⟨routine, snippet, outside⟩
    next =>
      rw [routine] at missing
      exact ⟨routine, snippet, target, missing⟩

theorem swapTop?_length {depth : Int64} {stack swapped : List Value}
    (done : swapTop? depth stack = some swapped) : swapped.length = stack.length := by
  unfold swapTop? at done
  split at done
  · cases done
    simp
  · cases done

theorem perform_within (setup : Setup) (st : State) (f : Frame) (o : Operation)
    (enough : ¬ Int64.ofNat f.stack.length < o.pops) :
    Within f o (perform setup st f o).2 := by
  have grown : maxStackDepth = 1024 := rfl
  have fallsThrough : ∀ g : Frame, o.terminates = false → g.routine = f.routine →
      g.snippet = f.snippet → g.locals.size = f.locals.size → g.ip = f.ip →
      g.stack.length ≤ f.stack.length + 1 →
      Int64.ofNat g.stack.length = Int64.ofNat f.stack.length - o.pops + o.pushes →
      Within f o (.next g) := fun g falls routine snippet locals ip length after =>
    ⟨routine, snippet, locals, .inl ⟨ip, falls⟩, by omega, fun _ => after⟩
  have keepsAll : ∀ exception, o.pops = 0 → Within f o (.raise f exception) :=
    fun exception none => ⟨0, fun _ => Nat.zero_le _, none.symm, by simp⟩
  unfold perform
  split
  case h_1 => exact fallsThrough f rfl rfl rfl rfl rfl (by omega) (by simp [Operation.pops, Operation.pushes])
  case h_2 => exact fallsThrough _ rfl rfl rfl rfl rfl (by simp) (by simp [Operation.pops, Operation.pushes])
  case h_3 i _ =>
    split
    · exact ⟨rfl, rfl, trivial⟩
    · split
      · exact ⟨rfl, rfl, trivial⟩
      · exact keepsAll _ rfl
      · exact fallsThrough _ rfl rfl rfl rfl rfl (by simp) (by simp [Operation.pops, Operation.pushes])
  case h_4 i v stack top =>
    split
    · exact ⟨rfl, rfl, trivial⟩
    · exact fallsThrough _ rfl rfl rfl (by simp) rfl (by simp [top]; omega)
        (by simp [top, Operation.pops, Operation.pushes])
  case h_5 i _ =>
    split
    · exact ⟨rfl, rfl, trivial⟩
    · split
      · exact ⟨rfl, rfl, trivial⟩
      · exact keepsAll _ rfl
      · exact fallsThrough _ rfl rfl rfl (by simp) rfl (by simp)
          (by simp [Operation.pops, Operation.pushes])
  case h_6 name _ =>
    split
    · exact fallsThrough _ rfl rfl rfl rfl rfl (by simp) (by simp [Operation.pops, Operation.pushes])
    · exact keepsAll _ rfl
  case h_7 | h_8 | h_9 | h_19 =>
    rename_i top
    exact fallsThrough _ rfl rfl rfl rfl rfl (by simp [top]; try omega)
      (by simp [top, Operation.pops, Operation.pushes]; try grind)
  case h_10 depth stack =>
    split
    · exact fallsThrough _ rfl rfl rfl rfl rfl (by simp)
        (by simp only [List.length_cons, Int64.ofNat_add, Operation.pops, Operation.pushes]; grind)
    · exact ⟨rfl, rfl, trivial⟩
  case h_11 depth stack =>
    split
    · next swapped done =>
      have length := swapTop?_length done
      exact fallsThrough _ rfl rfl rfl rfl rfl (by simp [length])
        (by simp [length, Operation.pops, Operation.pushes])
    · exact ⟨rfl, rfl, trivial⟩
  case h_12 stack inv =>
    split
    · exact ⟨rfl, rfl, trivial⟩
    · next positive =>
      exact invoke_within enough (by simpa using positive) (invoke_answers setup st _ inv _)
  case h_13 label _ =>
    exact jump_within st rfl rfl rfl rfl (by omega) (by simp [Operation.pops, Operation.pushes])
  case h_14 label v stack top =>
    have length : Int64.ofNat stack.length = Int64.ofNat f.stack.length - 1 + 0 := by simp [top]
    split
    · exact jump_within st rfl rfl rfl rfl (by simp [top]) length
    · exact fallsThrough _ rfl rfl rfl rfl rfl (by simp [top]; omega) length
  case h_15 label v stack top =>
    have length : Int64.ofNat stack.length = Int64.ofNat f.stack.length - 1 + 0 := by simp [top]
    split
    · exact fallsThrough _ rfl rfl rfl rfl rfl (by simp [top]; omega) length
    · exact jump_within st rfl rfl rfl rfl (by simp [top]) length
  case h_16 => exact ⟨rfl, rfl, rfl⟩
  case h_17 v stack top => exact ⟨1, fun _ => by simp [top], rfl, by simp [top]⟩
  case h_18 =>
    exact fallsThrough _ rfl rfl rfl rfl rfl (by simp) (by simp [Operation.pops, Operation.pushes])
  case h_20 o _ _ _ _ _ _ _ _ _ _ _ _ empty =>
    refine ⟨rfl, rfl, ?_⟩
    change Int64.ofNat f.stack.length < o.pops
    -- Only operations that take exactly one operand are left.
    have one : o.pops = 1 := by cases o <;> simp_all [Operation.pops]
    rw [one, empty]
    decide

theorem execute_within (setup : Setup) (st : State) (f : Frame) (o : Operation) :
    Within f o (execute setup st f o).2 := by
  unfold execute
  dsimp only
  split
  next missing => exact ⟨rfl, rfl, missing⟩
  next enough =>
    split
    next much => exact ⟨rfl, rfl, much⟩
    next => exact perform_within setup st f o enough

end Lowering.Proofs
