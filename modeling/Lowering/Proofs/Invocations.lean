import Lowering.Machine.StandardHelper
import Lowering.Proofs.TableDepths

/-! Invocations. The helpers that a lowered function invokes are standard ones; they find the arguments
that they look at, and give as many results as the invocation announces. -/

namespace Lowering.Proofs
open Machine Host Shape Guest

/-- An answer with a number of results, unless it is an exception or an evaluation that does not end. What
is called in turn gives one. -/
def Yields (results : Int64) : Reply → Prop
  | .values values => results.toInt = values.length
  | .call .. => results = 1
  | .raised _ => True
  | .failed failure => failure = .endless

/-- An invocation of a standard helper with as many operands as it looks at, to as many results as it
gives. -/
def Served (inv : Invocation) : Prop :=
  ∃ needed, signature? inv.helper = some (needed, inv.results) ∧ (needed : Int) ≤ inv.args.toInt

/-- A helper that is served finds its arguments, and gives its results. -/
theorem Served.yields {inv : Invocation} (served : Served inv) (h : Heap) {args : List Value}
    (enough : inv.args.toInt = args.length) : Yields inv.results (standardHelper h inv args).1 := by
  obtain ⟨needed, signature, less⟩ := served
  have supplied : needed ≤ args.length := by omega
  have count : inv.results.toInt =
      (resultSlots inv (args.map fun _ => Slot.ofKind .object)).length :=
    resultSlots_length signature (by simpa using supplied)
  have keeps := (standardHelper_keeps h inv (conforms_objects args)).reply
  cases reply : (standardHelper h inv args).1 with
  | values values =>
    rw [reply] at keeps
    exact count.trans (congrArg _ keeps.length_eq.symm)
  | raised => trivial
  | failed failure =>
    rw [reply] at keeps
    cases failure with
    | endless => rfl
    | unknownHelper | missingArguments | helper => exact absurd ⟨needed, _, signature, supplied⟩ keeps
  | call =>
    rw [reply] at keeps
    rw [show resultSlots inv _ = _ from keeps.2] at count
    exact Int64.toInt_inj.mp count

theorem Matched.served {inv : Invocation} (matched : Matched inv) : Served inv := by
  obtain ⟨needed, signature, count⟩ := matched
  exact ⟨needed, signature, Int.le_of_eq count.symm⟩

private theorem call_slots {opcode : Opcode} {v : Version} {dialect : Dialect} {behavior : Behavior}
    (resolved : resolve? opcode v = some (dialect, behavior)) :
    (opcode = .callFunction → behavior.callSlots = 1) ∧ (opcode = .call → behavior.callSlots = 2) := by
  obtain ⟨rule, listed, rfl, _, _, rfl⟩ := resolve?_rule resolved
  have slots : ∀ rule ∈ policy, (rule.opcode = .callFunction → rule.behavior.callSlots = 1) ∧
      (rule.opcode = .call → rule.behavior.callSlots = 2) := by decide
  exact slots rule listed

private theorem slots_le {n : Int64} {slots : Nat} (count : 0 ≤ n) (few : slots ≤ 2)
    (positive : 0 ≤ n + Int64.ofNat slots) : (slots : Int) ≤ (n + Int64.ofNat slots).toInt := by
  have upper := n.toInt_lt
  have sum : (n + Int64.ofNat slots).toInt = (n.toInt + slots).bmod (2 ^ 64) := by
    rw [Int64.toInt_add, Int64.toInt_ofNat_of_lt (by omega)]
  rw [Int64.le_iff_toInt_le, Int64.toInt_zero] at count positive
  rw [sum, Int.bmod_def] at positive ⊢
  split at positive <;> omega

theorem expand_served {plan : Plan} {fresh : Label} {o : Bound} {s : Stack}
    (made : Bound.ofInstruction plan.function o.inst = .ok o) (countable : Countable o) {inv : Invocation}
    (member : .invoke inv ∈ o.expand plan fresh s) : Served inv := by
  obtain ⟨_, _, resolved, checked⟩ := ofInstruction_spec made
  have operand : Bound.badOperand plan.function o = none := by
    unfold Bound.check at checked
    split at checked
    · cases checked
    · exact checked
  obtain ⟨function, method⟩ := call_slots resolved
  have count : ∀ {n : Int64}, (if n < 0 then some (Invalidity.negativeCount n) else none) = none →
      0 ≤ n := by
    intro n none
    split at none
    · cases none
    · next positive => exact Int64.not_lt.mp positive
  rcases expand_invocation member with matched | ⟨collected, _⟩
  · exact matched.served
  have each : o.opcode = .buildTuple ∨ o.opcode = .buildList ∨ o.opcode = .callFunction ∨ o.opcode = .call := by
    simpa [collects] using collected
  rcases each with opcode | opcode | opcode | opcode <;>
    simp only [Bound.expand, Bound.badOperand, opcode, List.mem_singleton, Operation.invoke.injEq]
      at member operand <;>
    subst member
  · exact ⟨0, rfl, by simpa [Int64.le_iff_toInt_le] using count operand⟩
  · exact ⟨0, rfl, by simpa [Int64.le_iff_toInt_le] using count operand⟩
  · have slots := function opcode
    have wide : _ ≤ o.callWidth.toInt := slots_le (count operand) (by omega) (countable (.inl opcode))
    rw [slots] at wide
    exact ⟨1, rfl, wide⟩
  · have slots := method opcode
    have wide : _ ≤ o.callWidth.toInt := slots_le (count operand) (by omega) (countable (.inr opcode))
    rw [slots] at wide
    exact ⟨2, rfl, wide⟩

end Lowering.Proofs
