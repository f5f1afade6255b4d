import Lowering.Proofs.ControlFlow
import Lowering.Proofs.Ways

/-! Passages: the depths that an accepted walk notes are carried through straight-line code. -/

namespace Lowering.Proofs
open Host Shape Guest Emission

/-- The operands and results of an operation can be counted. -/
def fair (o : Operation) : Bool :=
  decide (0 ≤ o.pops.toInt ∧ 0 ≤ o.pushes.toInt ∧ o.pushes.toInt ≤ o.pops.toInt + 2)

/-- The depth after an operation is found by machine arithmetic. -/
theorem depthAfter_fits {o : Operation} {n : Nat} (counts : fair o = true) (enough : o.pops.toInt ≤ n) :
    Int64.ofNat n - o.pops + o.pushes = Int64.ofNat (depthAfter n o) ∧ depthAfter n o ≤ n + 2 := by
  simp only [fair, decide_eq_true_eq] at counts
  obtain ⟨pops, pushes, few⟩ := counts
  have less : Int64.ofNat (n - o.pops.toInt.toNat) + Int64.ofNat o.pops.toInt.toNat = Int64.ofNat n := by
    rw [← Int64.ofNat_add, Nat.sub_add_cancel (by omega)]
  rw [ofNat_toNat (by simpa [Int64.le_iff_toInt_le] using pops)] at less
  constructor
  · rw [depthAfter, Int64.ofNat_add, ofNat_toNat (by simpa [Int64.le_iff_toInt_le] using pushes), ← less]
    grind
  · rw [depthAfter]
    omega

theorem enough_iff {o : Operation} {n : Nat} (small : n < 2 ^ 63) :
    ¬ Int64.ofNat n < o.pops ↔ o.pops.toInt ≤ n := by
  rw [Int64.lt_iff_toInt_lt, Int64.toInt_ofNat_of_lt small]
  omega

/-- Where the code is left, its depth is noted. -/
def Notes (r : Routine) (before : Array Int64) (after : Nat) : Option Label → Nat → Prop
  | none, depth => before[after]? = some (Int64.ofNat depth)
  | some label, depth => ∃ target, r.labelIndex? label = some target ∧
      before[target]? = some (Int64.ofNat depth)

variable {r : Routine} {d : Depths}

/-- A walk that gets to some code passes through it. -/
theorem Agreeing.passage (agreeing : Agreeing r d) {operations : List Operation} {start n : Nat}
    {origin : Int64} {protection : Option Protection}
    (stands : Stands r start operations origin protection) (counts : operations.all fair = true)
    (low : n + 2 * operations.length < 2 ^ 63) (here : d.before[start]? = some (Int64.ofNat n)) :
    Endures operations n ∧ ∀ exit depth, Quits operations n exit depth →
      Notes r d.before (start + operations.length) exit depth := by
  induction operations generalizing start n with
  | nil =>
    refine ⟨trivial, ?_⟩
    rintro exit depth ⟨rfl, rfl⟩
    exact here
  | cons o operations ih =>
    rw [List.all_cons, Bool.and_eq_true] at counts
    rw [List.length_cons] at low
    have followed := agreeing.followed start o _ (Int64.zero_le_ofNat_of_lt (by omega)) here
      (stands 0 o rfl).1
    have enough := (enough_iff (by omega)).mp followed.enough
    obtain ⟨after, few⟩ := depthAfter_fits counts.1 enough
    have positive : 0 ≤ Int64.ofNat (depthAfter n o) := Int64.zero_le_ofNat_of_lt (by omega)
    have parts : Stands r start ([o] ++ operations) origin protection := stands
    have rest : Stands r (start + 1) operations origin protection := parts.append.2
    have onward : o.terminates = false → _ := fun falls =>
      ih rest counts.2 (by omega) ((after ▸ followed.falls falls).2 positive)
    refine ⟨⟨enough, fun falls => (onward falls).1⟩, ?_⟩
    rintro exit depth ⟨_, ⟨jumps, rfl, rfl⟩ | ⟨falls, quits⟩⟩
    · obtain ⟨label, named⟩ := Option.isSome_iff_exists.mp jumps
      obtain ⟨target, found, arrives⟩ := followed.jumps label named
      rw [named]
      exact ⟨target, found, (after ▸ arrives).2 positive⟩
    · have later := (onward falls).2 exit depth quits
      rwa [Nat.add_right_comm, Nat.add_assoc] at later

theorem Agreeing.mirrored (agreeing : Agreeing r d) {operations : List Operation} {start n : Nat}
    {origin : Int64} {protection : Option Protection} {way : Option Label → Nat → Prop}
    (stands : Stands r start operations origin protection) (counts : operations.all fair = true)
    (low : n + 2 * operations.length < 2 ^ 63) (here : d.before[start]? = some (Int64.ofNat n))
    (mirrors : Mirrors operations n way) {exit : Option Label} {depth : Nat} (taken : way exit depth) :
    Notes r d.before (start + operations.length) exit depth := by
  obtain ⟨endures, passes⟩ := agreeing.passage stands counts low here
  exact passes exit depth (mirrors.complete endures exit depth taken)

/-- The slots that a call takes can be counted. -/
def Countable (o : Bound) : Prop := o.opcode = .callFunction ∨ o.opcode = .call → 0 ≤ o.callWidth

section
variable {plan : Plan} {p : Point} {stamp : Nat} {fresh : Label} {o : Bound} {flow : Flow}

private theorem fair_invoke (helper : Helper) {args : Int64} (positive : 0 ≤ args) :
    [Operation.invoke { helper, args, results := 1 }].all fair = true := by
  rw [Int64.le_iff_toInt_le, Int64.toInt_zero] at positive
  have one : (1 : Int64).toInt = 1 := rfl
  simp only [List.all_cons, List.all_nil, Bool.and_true, fair, Operation.pops, Operation.pushes, one,
    decide_eq_true_eq]
  omega

private theorem fair_pick {depth : Int64} (positive : 0 ≤ depth.toInt) (small : depth.toInt ≤ addressable) :
    fair (.pick depth) = true := by
  simp only [addressable] at small
  have more : ∀ k : Int64, 0 ≤ k.toInt → k.toInt ≤ 2 →
      (depth + k).toInt = depth.toInt + k.toInt := by
    intro k _ _
    rw [Int64.toInt_add, Int.bmod_eq_of_le (by omega) (by omega)]
  have one := more 1 (by decide) (by decide)
  have two := more 2 (by decide) (by decide)
  simp only [fair, Operation.pops, Operation.pushes, one, two, decide_eq_true_eq]
  change 0 ≤ depth.toInt + 1 ∧ 0 ≤ depth.toInt + 2 ∧ depth.toInt + 2 ≤ depth.toInt + 1 + 2
  omega

theorem expand_fair (valid : Lawful plan o) (countable : Countable o)
    (small : p.shape.depth ≤ addressable) (flows : o.flow plan stamp p.shape = .ok flow) :
    (o.expand plan fresh p.shape).all fair = true := by
  have checked := valid.operand
  cases opcode : o.opcode <;> simp only [Bound.expand, opcode] <;>
    simp only [Bound.badOperand, opcode] at checked
  case buildTuple | buildList =>
    have positive : 0 ≤ o.arg := by
      split at checked
      · cases checked
      · next positive => exact Int64.not_lt.mp positive
    exact fair_invoke _ positive
  case callFunction | call => exact fair_invoke _ (countable (by simp [opcode]))
  case copy =>
    simp only [Bound.flow, opcode] at flows
    split at flows
    · cases flows
    · next peeked =>
      obtain ⟨positive, cell, found, _⟩ := peek_spec peeked
      have inside := (List.getElem?_eq_some_iff.mp found).1
      simp only [Stack.depth] at small
      simp [fair_pick positive (by omega)]
  case swap =>
    have two : 2 ≤ o.arg := by
      split at checked
      · cases checked
      · next two => exact Int64.not_lt.mp two
    rw [Int64.le_iff_toInt_le] at two
    have count : (2 : Int64).toInt = 2 := rfl
    simp only [List.all_cons, List.all_nil, Bool.and_true, fair, Operation.pops, Operation.pushes,
      Int64.sub_add_cancel, decide_eq_true_eq]
    omega
  case loadGlobal | loadAttr => split <;> rfl
  case popExcept =>
    rw [valid.popExcept opcode]
    unfold Plan.leave
    cases plan.dialect with
    | modern => rfl
    | legacy =>
      simp only []
      split <;> rfl
  case reraise =>
    unfold Guest.reraise
    split
    · rfl
    · split <;> rfl
  case raiseVarargs => split <;> [rfl; (split <;> rfl)]
  all_goals rfl

end

end Lowering.Proofs
