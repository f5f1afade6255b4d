import Mathlib.Algebra.Order.BigOperators.Group.Finset
import Lowering.Proofs.Stages

/-! How often a shape can widen. A slot of the stack can forget its value and become an object, a local
can also become unbound; a merge that changes a shape uses one of these up. No instruction makes a
stack deeper by more than three slots. -/

namespace Lowering.Proofs
open Guest Shape

/-- How often a known value can still be forgotten. -/
def certainty (slot : Slot) : Nat := if slot.known.isSome then 1 else 0

/-- How often a slot of the stack can still widen. -/
def slack (slot : Slot) : Nat := certainty slot + if slot.kind = .object then 0 else 1

/-- How often a local can still widen. -/
def localSlack (slot : Slot) : Nat :=
  certainty slot + if slot.kind = .unbound then 0 else if slot.kind = .object then 1 else 2

theorem certainty_le (slot : Slot) : certainty slot ≤ 1 := by
  unfold certainty
  split <;> omega

theorem slack_le (slot : Slot) : slack slot ≤ 2 := by
  have known := certainty_le slot
  unfold slack
  split <;> omega

theorem localSlack_le (slot : Slot) : localSlack slot ≤ 3 := by
  have known := certainty_le slot
  unfold localSlack
  split
  · omega
  · split <;> omega

/-- A merge that changes anything uses up slack. -/
private def Uses (same : Prop) (before after : Nat) : Prop := same ∧ after ≤ before ∨ after < before

private theorem Uses.le {same : Prop} {before after : Nat} (uses : Uses same before after) :
    after ≤ before := by
  rcases uses with ⟨_, less⟩ | less <;> omega

private theorem Uses.add {p q r : Prop} {a b c d : Nat} (join : p → q → r) (first : Uses p a b)
    (second : Uses q c d) : Uses r (a + c) (b + d) := by
  rcases first with ⟨same, less⟩ | less
  · rcases second with ⟨alike, fewer⟩ | fewer
    · exact .inl ⟨join same alike, Nat.add_le_add less fewer⟩
    · exact .inr (Nat.add_lt_add_of_le_of_lt less fewer)
  · exact .inr (Nat.add_lt_add_of_lt_of_le less second.le)

private theorem certainty_forget (a b : Slot) :
    Uses (a.same (a.forget b) = true) (certainty a) (certainty (a.forget b)) := by
  unfold Slot.forget
  split
  next agrees => exact .inl ⟨by simp [Slot.same, agree_left agrees], Nat.le_refl _⟩
  next =>
    cases known : a.known with
    | none => exact .inl ⟨by simp [Slot.same, known, agree], by simp [certainty]⟩
    | some => exact .inr (by simp [certainty, known])

private theorem forget_kind (a b : Slot) : (a.forget b).kind = a.kind := by
  unfold Slot.forget
  split <;> rfl

private theorem certainty_ofKind {a : Slot} {kind : Kind} (same : a.kind = kind)
    (free : a.region = 0) : Uses (a.same (.ofKind kind) = true) (certainty a) 0 := by
  cases known : a.known with
  | none => exact .inl ⟨by simp [Slot.same, same, free, known, Slot.ofKind, agree], Nat.zero_le _⟩
  | some => exact .inr (by simp [certainty, known])

private theorem slack_object : slack (.ofKind .object) = 0 := rfl

private theorem localSlack_object : localSlack (.ofKind .object) = 1 := rfl

private theorem localSlack_unbound : localSlack (.ofKind .unbound) = 0 := rfl

private theorem merge?_slack {a b c : Slot} (merged : a.merge? b = some c) :
    Uses (a.same c = true) (slack a) (slack c) := by
  unfold Slot.merge? at merged
  split at merged
  · cases merged
    unfold slack
    rw [forget_kind]
    exact (certainty_forget a b).add (fun same _ => same) (.inl ⟨trivial, Nat.le_refl _⟩)
  · split at merged
    · next wide =>
      cases merged
      simp only [Bool.and_eq_true, beq_iff_eq] at wide
      rw [slack_object]
      by_cases object : a.kind = .object
      · rw [slack, if_pos object]
        exact certainty_ofKind object wide.1.2
      · rw [slack, if_neg object]
        exact .inr (by omega)
    · cases merged

private theorem mergeLocal_slack {a : Slot} (free : a.region = 0) (b : Slot) :
    Uses (a.same (a.mergeLocal b) = true) (localSlack a) (localSlack (a.mergeLocal b)) := by
  unfold Slot.mergeLocal
  split
  · unfold localSlack
    rw [forget_kind]
    exact (certainty_forget a b).add (fun same _ => same) (.inl ⟨trivial, Nat.le_refl _⟩)
  · split
    · rw [localSlack_unbound]
      by_cases unbound : a.kind = .unbound
      · rw [localSlack, if_pos unbound]
        exact certainty_ofKind unbound free
      · rw [localSlack, if_neg unbound]
        exact .inr (by split <;> omega)
    · next bound =>
      simp only [Bool.or_eq_true, beq_iff_eq, not_or] at bound
      rw [localSlack_object, localSlack, if_neg bound.1]
      by_cases object : a.kind = .object
      · rw [if_pos object]
        exact (certainty_ofKind object free).add (fun same _ => same) (.inl ⟨trivial, Nat.le_refl 1⟩)
      · rw [if_neg object]
        exact .inr (by omega)

/-- How often a shape can still widen. -/
def rank (s : Stack) : Nat :=
  (s.cells.map fun cell => slack cell.slot).sum + (s.locals.map localSlack).sum

theorem rank_le (s : Stack) : rank s ≤ 2 * s.depth + 3 * s.locals.length := by
  have cells : (s.cells.map fun cell => slack cell.slot).sum ≤ s.cells.length * 2 := by
    simpa using List.sum_le_card_nsmul (s.cells.map fun cell => slack cell.slot) 2 (by
      intro n member
      obtain ⟨cell, _, rfl⟩ := List.mem_map.mp member
      exact slack_le _)
  have locals : (s.locals.map localSlack).sum ≤ s.locals.length * 3 := by
    simpa using List.sum_le_card_nsmul (s.locals.map localSlack) 3 (by
      intro n member
      obtain ⟨slot, _, rfl⟩ := List.mem_map.mp member
      exact localSlack_le _)
  unfold rank Stack.depth
  omega

private theorem sameCells_self (cells : List Cell) : Stack.sameCells cells cells = true := by
  cases cells with
  | nil => rfl
  | cons => simp [Stack.sameCells]

private theorem mergeCells_slack (stamp : Nat) {a b : List Cell} {slots : List Slot}
    {shared : List Cell} (length : a.length = b.length)
    (merged : Stack.mergeCells a b = .ok (slots, shared)) :
    Uses (Stack.sameCells a (slots.map (Cell.mk stamp) ++ shared) = true)
      (a.map fun cell => slack cell.slot).sum
      ((slots.map (Cell.mk stamp) ++ shared).map fun cell => slack cell.slot).sum := by
  fun_induction Stack.mergeCells a b generalizing slots shared with
  | case1 a as b bs same =>
    cases merged
    exact .inl ⟨sameCells_self _, Nat.le_refl _⟩
  | case2 => cases merged
  | case3 => cases merged
  | case4 a as b bs _ slot found rest sharing next ih =>
    cases merged
    simp only [List.map_cons, List.cons_append, List.sum_cons]
    refine (merge?_slack found).add (fun same alike => ?_) (ih (Nat.succ.inj length) next)
    rw [Stack.sameCells]
    split
    · rfl
    · simp [same, alike]
  | case5 a b short =>
    cases merged
    cases a with
    | nil => exact .inl ⟨rfl, Nat.le_refl _⟩
    | cons c cs =>
      cases b with
      | nil => cases length
      | cons e es => exact absurd rfl (short c cs e es rfl)

private theorem mergeLocals_slack {a b : List Slot} (length : a.length = b.length)
    (free : ∀ slot ∈ a, slot.region = 0) :
    Uses (Stack.sameLocals a (Stack.mergeLocals a b) = true) (a.map localSlack).sum
      ((Stack.mergeLocals a b).map localSlack).sum := by
  induction a generalizing b with
  | nil =>
    cases b with
    | nil => exact .inl ⟨by simp [Stack.mergeLocals, Stack.sameLocals], by simp [Stack.mergeLocals]⟩
    | cons => cases length
  | cons a as ih =>
    cases b with
    | nil => cases length
    | cons b bs =>
      simp only [Stack.mergeLocals, List.map_cons, List.sum_cons, Stack.sameLocals, Bool.and_eq_true]
      exact (mergeLocal_slack (free a List.mem_cons_self) b).add (fun same alike => ⟨same, alike⟩)
        (ih (Nat.succ.inj length) fun slot member => free slot (List.mem_cons_of_mem _ member))

/-- The locals of a shape are those of the function, and no region owns one. -/
def Framed (plan : Plan) (s : Stack) : Prop :=
  s.locals.length = plan.function.localCount ∧ ∀ i, (localSlot s.locals i).region = 0

variable {plan : Plan} {bound : Array Bound}

private theorem Framed.free {s : Stack} (framed : Framed plan s) : ∀ slot ∈ s.locals, slot.region = 0 := by
  intro slot member
  obtain ⟨i, found⟩ := List.mem_iff_getElem?.mp member
  simpa [localSlot, found] using framed.2 i

/-- A shape that is not the same after a merge has widened. -/
theorem unify_rank {stamp : Nat} {a b c : Stack} (framed : Framed plan a) (other : Framed plan b)
    (unified : Stack.unify stamp a b = .ok c) : a.same c = true ∨ rank c < rank a := by
  unfold Stack.unify at unified
  split at unified
  · cases unified
  · next length =>
    split at unified
    · cases unified
    · next slots shared merged =>
      cases unified
      have cells := mergeCells_slack stamp (Decidable.not_not.mp length) merged
      have locals := mergeLocals_slack (framed.1.trans other.1.symm) framed.free
      have uses : Uses _ (rank a) _ := cells.add (fun same alike => And.intro same alike) locals
      rcases uses with ⟨same, _⟩ | less
      · exact .inl (by simpa [Stack.same] using same)
      · exact .inr less

private theorem mergeLocal_region {a b : Slot} (free : a.region = 0) : (a.mergeLocal b).region = 0 := by
  unfold Slot.mergeLocal Slot.forget
  split
  · split <;> exact free
  · split <;> rfl

theorem unify_framed {stamp : Nat} {a b c : Stack} (framed : Framed plan a) (other : Framed plan b)
    (unified : Stack.unify stamp a b = .ok c) : Framed plan c ∧ c.depth = a.depth := by
  refine ⟨?_, ((unify_widens unified).1.cells.length_eq).symm⟩
  unfold Stack.unify at unified
  split at unified
  · cases unified
  · split at unified
    · cases unified
    · cases unified
      refine ⟨by simp [mergeLocals_length, framed.1, other.1], fun i => ?_⟩
      rw [mergeLocals_slot]
      exact mergeLocal_region (framed.2 i)

theorem state_length (r : Region) : r.state.length ≤ 3 := by
  unfold Region.state
  split
  · simp
  · split <;> simp

/-- No way out of an instruction has a stack that is deeper by more than three slots. -/
def Shallow (s : Stack) (flow : Flow) : Prop :=
  flow.next.depth ≤ s.depth + 3 ∧ ∀ e ∈ flow.branches, e.shape.depth ≤ s.depth + 3

section
variable {stamp : Nat} {s : Stack} {flow : Flow}

private theorem replace_depth {n : Int64} {slots : List Slot}
    (done : Flow.replace stamp s n slots = .ok flow) :
    flow.next.depth = slots.length + (s.depth - n.toInt.toNat) ∧ flow.branches = [] := by
  obtain ⟨_, rfl⟩ := replace_spec done
  exact ⟨by simp [Flow.through, Stack.depth], rfl⟩

private theorem replace_shallow {n : Int64} {slots : List Slot} (few : slots.length ≤ 3)
    (done : Flow.replace stamp s n slots = .ok flow) : Shallow s flow := by
  obtain ⟨depth, branches⟩ := replace_depth done
  exact ⟨by omega, by simp [branches]⟩

private theorem leave_shallow {n : Int64} (done : Flow.leave s n = .ok flow) : Shallow s flow := by
  obtain ⟨_, rfl⟩ := leave_spec done
  refine ⟨?_, nofun⟩
  simp only [Stack.depth, List.length_drop]
  omega

private theorem branch_shallow {target : Int64} (done : Flow.branch s target = .ok flow) :
    Shallow s flow := by
  obtain ⟨cell, cells, below, rfl⟩ := branch_spec done
  simp only [Shallow, Stack.depth, below, List.length_cons, List.mem_singleton, forall_eq]
  omega

private theorem binary_shallow {operator : Option Arithmetic}
    (done : Flow.binary stamp s operator = .ok flow) : Shallow s flow := by
  obtain ⟨b, a, cells, below, rfl⟩ := binary_spec done
  simp [Shallow, Flow.through, Stack.depth, below]

private theorem push_shallow (slots : List Slot) (few : slots.length ≤ 3)
    (done : flow = .through (s.pushAll stamp slots)) : Shallow s flow := by
  subst done
  rw [pushAll_eq]
  refine ⟨?_, nofun⟩
  simp only [Flow.through, Stack.depth, List.length_append, List.length_reverse, List.length_map]
  omega

theorem flow_shallow {o : Bound} (flows : o.flow plan stamp s = .ok flow) : Shallow s flow := by
  cases opcode : o.opcode <;> simp only [Bound.flow, opcode] at flows
  case nop | resume | cache | popBlock =>
    cases flows
    exact ⟨Nat.le_add_right _ _, by rintro _ ⟨⟩⟩
  case popTop | storeGlobal | storeAttr => exact replace_shallow (Nat.zero_le _) flows
  case unaryNot | compareOp | isOp | containsOp | buildTuple | buildList | callFunction | call
      | getIter | checkExcMatch => exact replace_shallow (by decide) flows
  case loadAttr => exact replace_shallow (by split <;> simp) flows
  case loadGlobal => exact push_shallow _ (by split <;> simp) (Except.ok.inj flows).symm
  case pushNull | loadConst | loadFast =>
    exact push_shallow [_] (by simp) (Except.ok.inj flows).symm
  case binaryAdd | binarySubtract | binaryMultiply | binaryOp => exact binary_shallow flows
  case returnValue | reraise | raiseVarargs => exact leave_shallow flows
  case popJumpIfFalse | popJumpIfTrue => exact branch_shallow flows
  case jumpForward | jumpAbsolute | jumpBackward =>
    cases flows
    simp [Shallow]
  case deleteFast =>
    cases flows
    exact ⟨Nat.le_add_right _ _, by rintro _ ⟨⟩⟩
  case rotTwo =>
    split at flows
    · cases flows
    · next found =>
      obtain ⟨_, rfl⟩ := top_spec found
      exact replace_shallow (by simp) flows
  case swap =>
    split at flows
    · cases flows
    · next found =>
      obtain ⟨enough, rfl⟩ := top_spec found
      obtain ⟨depth, branches⟩ := replace_depth flows
      rw [exchange_length] at depth
      simp only [List.length_reverse, List.length_map, List.length_take] at depth
      refine ⟨?_, by simp [branches]⟩
      unfold Stack.depth at *
      omega
  case dupTop | copy =>
    split at flows
    · cases flows
    · exact push_shallow [_] (by simp) (Except.ok.inj flows).symm
  case storeFast =>
    split at flows
    · cases flows
    · next top rest below =>
      cases flows
      refine ⟨?_, by rintro _ ⟨⟩⟩
      simp only [Flow.through, Stack.setLocal, Stack.withLocals, Stack.depth, below, List.length_cons]
      omega
  case unaryNegative =>
    split at flows
    · cases flows
    · exact replace_shallow (by simp) flows
  case forIter =>
    split at flows
    · cases flows
    · next popped =>
      obtain ⟨_, rfl⟩ := pop_spec popped
      cases flows
      simp only [Shallow, Stack.push, Stack.depth, List.length_cons, List.mem_singleton, forall_eq,
        List.length_drop]
      omega
  case setupFinally =>
    split at flows
    · cases flows
    · next r found =>
      cases flows
      have few := state_length r
      simp only [Shallow, pushAll_eq, Stack.depth, List.mem_singleton, forall_eq, List.length_append,
        List.length_reverse, List.length_map]
      omega
  case popExcept =>
    split at flows
    · cases flows
    · exact replace_shallow (Nat.zero_le _) flows
  case jumpIfNotExcMatch =>
    split at flows
    · cases flows
    · exact branch_shallow flows
  case pushExcInfo =>
    split at flows
    · cases flows
    · exact replace_shallow (by simp) flows

end

private theorem setLocal_length (s : Stack) (i : Nat) (slot : Slot) (inside : i < s.locals.length) :
    (s.setLocal i slot).locals.length = s.locals.length := by
  simp only [Stack.setLocal, Stack.withLocals, List.length_set, List.length_append, List.length_take,
    List.length_replicate]
  omega

theorem setLocal_framed {s : Stack} (framed : Framed plan s) {i : Nat} {slot : Slot}
    (inside : i < plan.function.localCount) (free : slot.region = 0) :
    Framed plan ⟨[], (s.setLocal i slot).locals⟩ := by
  refine ⟨(setLocal_length s i slot (framed.1 ▸ inside)).trans framed.1, fun j => ?_⟩
  rw [setLocal_slot]
  split
  · exact free
  · exact framed.2 j

theorem stores_inside {fn : Function} {o : Bound} (checked : Bound.check fn o = none)
    (stores : o.opcode = .storeFast ∨ o.opcode = .deleteFast) : o.arg.toInt.toNat < fn.localCount := by
  unfold Bound.check Bound.badOperand at checked
  split at checked
  · cases checked
  · rcases stores with opcode | opcode <;> rw [opcode] at checked <;> exact (inRange_none checked).2

theorem flow_framed {o : Bound} {stamp : Nat} {s : Stack} {flow : Flow} (framed : Framed plan s)
    (checked : Bound.check plan.function o = none) (flows : o.flow plan stamp s = .ok flow) :
    Framed plan flow.next ∧ ∀ e ∈ flow.branches, Framed plan e.shape := by
  obtain ⟨f, formed, form⟩ := flow_form flows
  have same := form stamp
  rw [flows] at same
  cases same
  refine ⟨?_, fun e listed => ?_⟩
  · rcases formed.locals with locals | ⟨stores, slot, _, free, locals⟩
    · exact ⟨by simp [Form.flow, locals, framed.1], by simpa [Form.flow, locals] using framed.2⟩
    · have set := setLocal_framed framed (stores_inside checked stores) free
      rw [← locals] at set
      exact set
  · obtain ⟨l, _, rfl⟩ := List.mem_map.mp listed
    exact framed

/-- What is joined in somewhere when an instruction is processed. -/
inductive Carried (plan : Plan) (o : Bound) (s : Stack) : Stack → Prop
  | next {stamp : Nat} {flow : Flow} (flows : o.flow plan stamp s = .ok flow) :
      Carried plan o s flow.next
  | branch {stamp : Nat} {flow : Flow} {e : Edge} (flows : o.flow plan stamp s = .ok flow)
      (listed : e ∈ flow.branches) : Carried plan o s e.shape
  | caught (stamp : Nat) (r : Region) : Carried plan o s ((s.truncate r.depth).pushAll stamp r.state)

theorem Carried.depth {o : Bound} {s t : Stack} (carried : Carried plan o s t) :
    t.depth ≤ s.depth + 3 := by
  cases carried with
  | next flows => exact (flow_shallow flows).1
  | branch flows listed => exact (flow_shallow flows).2 _ listed
  | caught stamp r =>
    have few := state_length r
    simp only [pushAll_eq, Stack.truncate, Stack.depth, List.length_append, List.length_reverse,
      List.length_map, List.length_drop]
    omega

theorem Carried.framed {o : Bound} {s t : Stack} (carried : Carried plan o s t) (framed : Framed plan s)
    (checked : Bound.check plan.function o = none) : Framed plan t := by
  cases carried with
  | next flows => exact (flow_framed framed checked flows).1
  | branch flows listed => exact (flow_framed framed checked flows).2 _ listed
  | caught stamp r =>
    rw [pushAll_eq]
    exact framed

end Lowering.Proofs
