import Lowering.Proofs.Outlines

/-! What operations leave alone. Only one operation sets the register of the handled exception, only
two touch the locals, and only some can raise, whatever the values are. -/

namespace Lowering.Proofs
open Machine Host

variable {setup : Setup} {st : State} {f : Frame} {o : Operation}

private theorem jump_handled (st : State) (f : Frame) (label : Label) :
    (jump st f label).1.handled = st.handled := by
  unfold jump
  split
  · rfl
  · split <;> rfl

private theorem callValue_handled (setup : Setup) (st : State) (f : Frame) (inv : Invocation)
    (callee : Value) (args : List Value) :
    (callValue setup st f inv callee args).1.handled = st.handled := by
  unfold callValue
  split
  · dsimp only
    split
    next asked => exact (notifyCall_keeps asked).2.2
    next asked =>
      have first := (notifyCall_keeps asked).2.2
      split
      · split
        next again => exact (notifyReturn_keeps again).2.2.trans first
        next again =>
          rw [pushResults_state]
          exact (notifyReturn_keeps again).2.2.trans first
      all_goals exact first
  · dsimp only
    split
    · rfl
    · split
      next asked => exact (notifyCall_keeps asked).2.2
      next asked => exact (notifyCall_keeps asked).2.2
  · dsimp only
    rw [pushResults_state]
  · rfl

private theorem invoke_handled {inv : Invocation} {args : List Value}
    (kept : (setup.helper inv.helper st f.depth inv args).2.handled = st.handled) :
    (invoke setup st f inv args).1.handled = st.handled := by
  unfold invoke
  dsimp only
  split
  · rw [pushResults_state, kept]
  · exact kept
  · exact kept
  · rw [callValue_handled, kept]

private theorem execute_handled (setup : Setup) (st : State) (f : Frame) (other : o ≠ .setHandled)
    (kept : ∀ inv, o = .invoke inv →
      (setup.helper inv.helper st f.depth inv (f.stack.take inv.args.toInt.toNat).reverse).2.handled =
        st.handled) :
    (execute setup st f o).1.handled = st.handled := by
  unfold execute
  dsimp only
  split
  · rfl
  · split
    · rfl
    · unfold perform
      split
      case h_19 => exact absurd rfl other
      case h_12 =>
        split
        · rfl
        · exact invoke_handled (kept _ rfl)
      case h_13 => exact jump_handled ..
      case h_14 | h_15 =>
        split
        all_goals first | rfl | exact jump_handled ..
      all_goals first
        | rfl
        | (split <;> rfl)
        | (split
           · rfl
           · split <;> rfl)

theorem execute_register {st' : State} {effect : Effect} (done : execute setup st f o = (st', effect))
    (other : o ≠ .setHandled) (kept : ∀ inv, o = .invoke inv → st'.handled = st.handled) :
    st'.handled = st.handled := by
  by_cases invokes : ∃ inv, o = .invoke inv
  · obtain ⟨inv, invokes⟩ := invokes
    exact kept inv invokes
  · have same := execute_handled setup st f other
      fun inv same => absurd ⟨inv, same⟩ invokes
    rwa [done] at same

theorem execute_standard (plain : setup.helpers = []) {st' : State} {effect : Effect}
    (done : execute setup st f o = (st', effect)) (other : o ≠ .setHandled) :
    st'.handled = st.handled := by
  have same := execute_handled setup st f other fun inv _ => by
    rw [helper_standard plain]
    rfl
  rwa [done] at same

/-- The local that an operation changes. -/
def touched? : Operation → Option Nat
  | .storeLocal i | .deleteLocal i => some i.toInt.toNat
  | _ => none

/-- A frame that goes on has its locals, but for one that was touched. -/
private def Spares (f : Frame) (o : Operation) : Effect → Prop
  | .next g => ∀ i, touched? o ≠ some i → g.locals[i]? = f.locals[i]?
  | _ => True

private theorem jump_spares {g : Frame} (st : State) (label : Label) (same : g.locals = f.locals) :
    Spares f o (jump st g label).2 := by
  unfold jump
  split
  · intro i _
    rw [← same]
  · split <;> trivial

private theorem set_spares {g : Frame} {i : Nat} {v : Value} (touched : touched? o = some i)
    (set : g.locals = f.locals.setIfInBounds i v) : Spares f o (.next g) := by
  intro j apart
  have other : i ≠ j := fun equal => apart (touched.trans (congrArg some equal))
  rw [set, Array.getElem?_setIfInBounds_ne other]

private theorem invoke_spares (setup : Setup) (st : State) {g : Frame} (inv : Invocation)
    (args : List Value) (same : g.locals = f.locals) :
    Spares f o (invoke setup st g inv args).2 := by
  have answers := invoke_answers setup st g inv args
  cases effect : (invoke setup st g inv args).2 with
  | next h =>
    rw [effect] at answers
    obtain ⟨_, _, _, rfl⟩ := answers
    intro i _
    rw [← same]
  | raise | enter | finish => trivial

private theorem perform_spares (setup : Setup) (st : State) (f : Frame) (o : Operation) :
    Spares f o (perform setup st f o).2 := by
  have kept : ∀ g : Frame, g.locals = f.locals → Spares f o (.next g) := by
    intro g same i _
    rw [same]
  unfold perform
  split
  case h_4 =>
    split
    · trivial
    · exact set_spares rfl rfl
  case h_5 =>
    split
    · trivial
    · split
      · trivial
      · trivial
      · exact set_spares rfl rfl
  case h_12 =>
    split
    · trivial
    · exact invoke_spares setup st _ _ rfl
  case h_13 => exact jump_spares st _ rfl
  case h_14 | h_15 =>
    split
    all_goals first | exact jump_spares st _ rfl | exact kept _ rfl
  all_goals first
    | exact kept _ rfl
    | trivial
    | (split <;> first | exact kept _ rfl | trivial)
    | (split
       · trivial
       · split <;> first | exact kept _ rfl | trivial)

theorem execute_locals {st' : State} {g : Frame} (done : execute setup st f o = (st', .next g))
    {i : Nat} (apart : touched? o ≠ some i) : g.locals[i]? = f.locals[i]? := by
  have spares : Spares f o (execute setup st f o).2 := by
    unfold execute
    dsimp only
    split
    · trivial
    · split
      · trivial
      · exact perform_spares setup st f o
  rw [done] at spares
  exact spares i apart

theorem execute_next {st' : State} {g : Frame} (done : execute setup st f o = (st', .next g)) :
    perform setup st f o = (st', .next g) := by
  unfold execute at done
  dsimp only at done
  split at done
  · cases done
  · split at done
    · cases done
    · exact done

theorem execute_sets {st' : State} {g : Frame}
    (done : execute setup st f .setHandled = (st', .next g)) :
    ∃ v, f.stack = v :: g.stack ∧ st'.handled = v ∧ g = { f with stack := g.stack } := by
  have done := execute_next done
  cases top : f.stack with
  | nil =>
    simp only [perform, top] at done
    cases done
  | cons v stack =>
    simp only [perform, top] at done
    cases done
    exact ⟨v, rfl, rfl, rfl⟩

theorem execute_gets {st' : State} {g : Frame}
    (done : execute setup st f .getHandled = (st', .next g)) : g.stack = st.handled :: f.stack := by
  have done := execute_next done
  cases done
  rfl

theorem execute_copies {st' : State} {g : Frame} (done : execute setup st f .dup = (st', .next g)) :
    ∃ v stack, f.stack = v :: stack ∧ g.stack = v :: v :: stack := by
  have done := execute_next done
  cases top : f.stack with
  | nil =>
    simp only [perform, top] at done
    cases done
  | cons v stack =>
    simp only [perform, top] at done
    cases done
    exact ⟨v, stack, rfl, rfl⟩

theorem execute_stores {st' : State} {g : Frame} {i : Int64}
    (done : execute setup st f (.storeLocal i) = (st', .next g)) :
    ∃ v, f.stack = v :: g.stack ∧ g.locals[i.toInt.toNat]? = some v := by
  have done := execute_next done
  cases top : f.stack with
  | nil =>
    simp only [perform, top] at done
    cases done
  | cons v stack =>
    simp only [perform, top] at done
    split at done
    · cases done
    · next inside =>
      simp only [Bool.or_eq_true, decide_eq_true_eq, not_or, Nat.not_le] at inside
      cases done
      exact ⟨v, rfl, Array.getElem?_setIfInBounds_self_of_lt inside.2⟩

theorem execute_loads {st' : State} {g : Frame} {i : Int64}
    (done : execute setup st f (.loadLocal i) = (st', .next g)) :
    ∃ v, f.locals[i.toInt.toNat]? = some v ∧ g.stack = v :: f.stack := by
  have done := execute_next done
  simp only [perform] at done
  split at done
  · cases done
  · split at done
    · cases done
    · unfold unboundLocal raiseNew at done
      cases done
    · next v _ found =>
      cases done
      exact ⟨v, found, rfl⟩

/-- The operation can raise, or call what may raise. -/
def risks : Operation → Bool
  | .loadLocal _ | .deleteLocal _ | .loadGlobal _ | .throw => true
  | .invoke inv => raisingHelper inv.helper
  | _ => false

/-- What a frame that raises or calls has executed. -/
private def Risky (o : Operation) : Effect → Prop
  | .raise _ _ | .enter _ _ => risks o = true
  | _ => True

private theorem risky_of_risks (risky : risks o = true) (effect : Effect) : Risky o effect := by
  cases effect with
  | raise | enter => exact risky
  | next | finish => trivial

private theorem invoke_risky (plain : setup.helpers = []) (inv : Invocation) (args : List Value) :
    Risky (.invoke inv) (invoke setup st f inv args).2 := by
  have keeps := (standardHelper_keeps st.heap inv (conforms_objects args)).reply
  unfold invoke
  rw [helper_standard plain]
  dsimp only [ofHeap]
  split
  · unfold pushResults
    split <;> trivial
  · next raised =>
    rw [raised] at keeps
    exact keeps
  · trivial
  · next calls =>
    rw [calls] at keeps
    have risky : risks (.invoke inv) = true := raisingHelper_of_calling keeps.1
    exact risky_of_risks risky _

private theorem perform_risky (plain : setup.helpers = []) (st : State) (f : Frame)
    (o : Operation) : Risky o (perform setup st f o).2 := by
  have jumps : ∀ (g : Frame) (label : Label), Risky o (jump st g label).2 := by
    intro g label
    unfold jump
    split
    · trivial
    · split <;> trivial
  unfold perform
  split
  case h_3 | h_5 | h_6 | h_17 => exact risky_of_risks rfl _
  case h_12 =>
    split
    · trivial
    · exact invoke_risky plain _ _
  case h_13 => exact jumps _ _
  case h_14 | h_15 =>
    split
    all_goals first | exact jumps _ _ | trivial
  all_goals first | trivial | (split <;> trivial)

private theorem execute_risky (plain : setup.helpers = []) (st : State) (f : Frame)
    (o : Operation) : Risky o (execute setup st f o).2 := by
  unfold execute
  dsimp only
  split
  · trivial
  · split
    · trivial
    · exact perform_risky plain st f o

theorem execute_risks (plain : setup.helpers = []) {st' : State} {g : Frame} {exception : Nat}
    (done : execute setup st f o = (st', .raise g exception)) : risks o = true := by
  have risky := execute_risky plain st f o
  rwa [done] at risky

/-- The operation can raise in a frame with some locals, whatever the helpers answer. -/
def Troubled (locals : Array Value) : Operation → Prop
  | .loadLocal i => locals[i.toInt.toNat]? = some .unbound
  | .deleteLocal _ | .loadGlobal _ | .throw | .invoke _ => True
  | _ => False

theorem execute_troubled {st' : State} {g : Frame} {exception : Nat}
    (done : execute setup st f o = (st', .raise g exception)) : Troubled f.locals o := by
  unfold execute at done
  dsimp only at done
  split at done
  · cases done
  · split at done
    · cases done
    · have jumps : ∀ (h : Frame) (label : Label), jump st h label ≠ (st', .raise g exception) := by
        intro h label
        unfold jump
        split
        · nofun
        · split <;> nofun
      unfold perform at done
      split at done
      case h_3 i stack =>
        split at done
        · cases done
        · split at done
          · cases done
          · next found => exact found
          · cases done
      case h_5 | h_6 | h_12 | h_17 => trivial
      case h_13 => exact absurd done (jumps _ _)
      case h_14 | h_15 =>
        split at done
        all_goals first | exact absurd done (jumps _ _) | cases done
      all_goals first | cases done | (split at done <;> cases done)

/-- Every frame that waits has executed an operation that can raise. -/
def Committed (c : Config) : Prop :=
  ∀ g ∈ c.waiting, ∃ o, g.routine.ops[g.ip - 1]? = some o ∧ risks o = true

theorem Committed.step (plain : setup.helpers = []) {c d : Config} (committed : Committed c)
    (goes : Goes setup c d) : Committed d := by
  obtain ⟨o, st, f, issued, move⟩ := goes_cases goes
  cases move with
  | next _ same => exact fun g member => committed g (same ▸ member)
  | @enter g done below =>
    have within := execute_within setup st f o
    have risky := execute_risky plain st f o
    rw [done] at within risky
    obtain ⟨_, _, _, _, rfl, _⟩ := within
    intro h member
    rw [below] at member
    rcases List.mem_cons.mp member with rfl | old
    · refine ⟨o, ?_, risky⟩
      simp only [issued.routine, issued.ip, Nat.add_sub_cancel]
      exact issued.operation
    · exact committed h old
  | back _ below => exact fun g member => committed g (below ▸ List.mem_cons_of_mem _ member)
  | raise _ offered => exact fun g member => committed g (offered.mem.2 g member)

/-- The frame that an exception is offered to has executed an operation that can raise. -/
theorem Raises.risky (plain : setup.helpers = []) {c : Config} {st' : State} {g h : Frame}
    {exception : Nat} {rest : List Frame} (committed : Committed c)
    (raises : Raises setup c o st f st' g exception)
    (offered : Offered exception g c.waiting h rest) :
    ∃ o, h.routine.ops[h.ip - 1]? = some o ∧ risks o = true := by
  rcases offered.mem.1 with rfl | member
  · have within := execute_within setup st f o
    rw [raises.executed] at within
    obtain ⟨_, _, _, rfl⟩ := within
    refine ⟨o, ?_, execute_risks plain raises.executed⟩
    simp only [raises.issued.routine, raises.issued.ip, Nat.add_sub_cancel]
    exact raises.issued.operation
  · exact committed h member

/-- Every frame has all the locals of its routine. -/
def Sized (c : Config) : Prop :=
  ∀ f, f = c.frame ∨ f ∈ c.waiting → f.locals.size = f.routine.localCount.toInt.toNat

theorem enter_sized (heap : Heap) (routine : Routine) (args : List Value) (depth : Nat) :
    (Frame.enter heap routine args depth).1.locals.size = routine.localCount.toInt.toNat := by
  have length := normalizeAll_length (args.take routine.localCount.toInt.toNat) heap
  simp only [Frame.enter, Array.size_append, List.size_toArray, Array.size_replicate, length,
    List.length_take]
  omega

/-- The frame that an exception is offered to has all the locals of its routine. -/
theorem Sized.offered {c : Config} (sized : Sized c) (issued : Issued c o st f) {st' : State}
    {g h : Frame} {exception : Nat} {rest : List Frame}
    (executed : execute setup st f o = (st', .raise g exception))
    (offered : Offered exception g c.waiting h rest) :
    h.locals.size = h.routine.localCount.toInt.toNat := by
  rcases offered.mem.1 with rfl | member
  · have within := execute_within setup st f o
    rw [executed] at within
    obtain ⟨_, _, _, rfl⟩ := within
    simp only [issued.locals, issued.routine]
    exact sized _ (.inl rfl)
  · exact sized h (.inr member)

theorem Sized.step {c d : Config} (sized : Sized c) (goes : Goes setup c d) : Sized d := by
  obtain ⟨o, st, f, issued, move⟩ := goes_cases goes
  have within := execute_within setup st f o
  have whole : f.locals.size = f.routine.localCount.toInt.toNat := by
    rw [issued.locals, issued.routine]
    exact sized _ (.inl rfl)
  have others : ∀ g ∈ c.waiting, g.locals.size = g.routine.localCount.toInt.toNat :=
    fun g member => sized g (.inr member)
  cases move with
  | next done same =>
    rw [done] at within
    obtain ⟨routine, _, size, _⟩ := within
    rintro g (rfl | member)
    · rw [size, routine, whole]
    · exact others g (same ▸ member)
  | enter done below =>
    rw [done] at within
    obtain ⟨_, _, _, _, rfl, heap, routine, args, depth, callee⟩ := within
    rintro g (rfl | member)
    · rw [callee]
      exact enter_sized heap routine args depth
    · rw [below] at member
      rcases List.mem_cons.mp member with rfl | old
      · exact whole
      · exact others g old
  | @back _ _ caller _ _ done below calling pushed =>
    have kept := others caller (below ▸ List.mem_cons_self)
    rintro g (rfl | member)
    · rw [pushResults_next pushed]
      exact kept
    · exact others g (below ▸ List.mem_cons_of_mem _ member)
  | raise done offered caught =>
    obtain ⟨_, _, _, _, _, _, _, same⟩ := receive_caught caught
    have kept := sized.offered issued done offered
    rintro g (rfl | member)
    · rw [same]
      exact kept
    · exact others g (offered.mem.2 g member)

end Lowering.Proofs
