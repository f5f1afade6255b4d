import Lowering.Proofs.Operands
import Lowering.Proofs.WellFormed

/-! What an operation needs of the frame that executes it, and what it may then fail by. Where nothing stops
the machine from outside, a frame that has what its operation needs is left to the helper that it invokes. -/

namespace Lowering.Proofs
open Machine Host Shape Guest

/-- A machine with the standard helpers that nothing outside of it stops. -/
structure Unattended (setup : Setup) : Prop where
  helpers : setup.helpers = []
  unlimited : setup.maxSteps ≤ 0
  running : setup.cancelled = false
  unobserved : setup.observer = none

variable {setup : Setup} {c d start : Config} {st st' : State} {f g : Frame} {o : Operation}

/-- Such a machine executes the operation that a frame points to. -/
theorem Unattended.issues (unattended : Unattended setup)
    (operation : c.frame.routine.ops[c.frame.ip]? = some o) : ∃ st f, Issued c o st f ∧
      step setup c.state c.frame c.waiting =
        settle setup (execute setup st f o).1 c.waiting (execute setup st f o).2 := by
  refine ⟨{ c.state with steps := c.state.steps + 1 }, { c.frame with ip := c.frame.ip + 1 },
    ⟨operation, rfl, rfl, rfl, rfl, rfl, rfl, rfl, rfl, rfl⟩, ?_⟩
  have unlimited : decide (0 < setup.maxSteps) = false :=
    decide_eq_false (Int64.not_lt.mpr unattended.unlimited)
  simp only [step, operation, checkTime, unattended.running, Bool.false_and, Bool.false_eq_true, if_false,
    unlimited, notifyStep, unattended.unobserved]

/-- Helpers that compare values, which may contain themselves. -/
def comparingHelper : Helper → Bool
  | .compare | .contains => true
  | _ => false

theorem comparing_of_incomparable {h : Heap} {inv : Invocation} {args : List Value}
    (endless : Incomparable h inv args) : comparingHelper inv.helper = true := by
  unfold Incomparable at endless
  split at endless
  · next helper => rw [helper]; rfl
  · next helper => rw [helper]; rfl
  · cases endless

/-- An operation fails only because a helper gives up, and calls only by one that calls. -/
def Permits (o : Operation) : Effect → Prop
  | .enter _ _ => ∃ inv, o = .invoke inv ∧ callingHelper inv.helper = true
  | .finish _ (.failed fault) => ∃ inv failure, o = .invoke inv ∧ fault = .gaveUp failure ∧
      (callingHelper inv.helper = true ∨ comparingHelper inv.helper = true ∧ failure = .endless)
  | _ => True

/-- What an operation needs of the frame that executes it. -/
structure Equipped (o : Operation) (f : Frame) : Prop where
  snippet : f.snippet = true
  tame : tame o = true
  fair : fair o = true
  enough : o.pops.toInt ≤ f.stack.length
  room : f.stack.length + 2 ≤ maxStackDepth
  holds : ∀ n, localOf? o = some n → Indexes n f.locals.size
  served : ∀ inv, o = .invoke inv → Served inv

private theorem pushResults_permits {st : State} {f : Frame} {inv : Invocation} {results : List Value}
    (count : inv.results.toInt = results.length) (room : results.length + f.stack.length ≤ maxStackDepth) :
    Permits o (pushResults st f inv results).2 := by
  unfold pushResults
  rw [if_neg (by omega)]
  trivial

private theorem Served.few {inv : Invocation} (served : Served inv) : 0 ≤ inv.args ∧ inv.results.toInt ≤ 2 := by
  obtain ⟨needed, signature, less⟩ := served
  refine ⟨Int64.le_iff_toInt_le.mpr (Int.le_trans (Int.natCast_nonneg needed) less), ?_⟩
  cases helper : inv.helper <;> rw [helper] at signature <;>
    simp only [signature?, reduceCtorEq, Option.some.injEq, Prod.mk.injEq] at signature <;>
    rw [← signature.2] <;> decide

theorem Served.single {inv : Invocation} (served : Served inv)
    (calls : callingHelper inv.helper = true) : inv.results = 1 := by
  obtain ⟨needed, signature, _⟩ := served
  cases helper : inv.helper <;> simp_all [signature?, callingHelper]

private theorem callValue_permits (unattended : Unattended setup) {st : State} {f : Frame} {inv : Invocation}
    {callee : Value} {args : List Value} (calls : callingHelper inv.helper = true) (one : inv.results = 1)
    (room : 1 + f.stack.length ≤ maxStackDepth) :
    Permits (.invoke inv) (callValue setup st f inv callee args).2 := by
  have count : ∀ v : Value, inv.results.toInt = [v].length := fun v => by rw [one]; rfl
  unfold callValue
  split
  next ref =>
    have gives := (act_keeps setup.custom st.heap (st.heap.builtin ref).name
      (st.heap.builtin ref).action args).reply
    simp only [notifyCall, notifyReturn, unattended.unobserved]
    split
    · next results given =>
      rw [given] at gives
      cases gives with
      | cons _ rest =>
        cases rest
        exact pushResults_permits (count _) room
    · trivial
    · exact ⟨inv, _, rfl, rfl, .inl calls⟩
    · exact ⟨inv, _, rfl, rfl, .inl calls⟩
  next ref =>
    simp only [notifyCall, unattended.unobserved]
    split
    · trivial
    · exact ⟨inv, rfl, calls⟩
  next => exact pushResults_permits (count _) room
  next => trivial

private theorem invoke_permits (unattended : Unattended setup) {st : State} {f : Frame} {inv : Invocation}
    {args : List Value} (served : Served inv) (enough : inv.args.toInt = args.length)
    (room : f.stack.length + 2 ≤ maxStackDepth) :
    Permits (.invoke inv) (invoke setup st f inv args).2 := by
  have yields := served.yields st.heap enough
  have keeps := (standardHelper_keeps st.heap inv (conforms_objects args)).reply
  unfold invoke
  rw [helper_standard unattended.helpers]
  dsimp only [ofHeap]
  split
  · next results given =>
    rw [given] at yields
    have few := served.few.2
    have count : inv.results.toInt = results.length := yields
    exact pushResults_permits count (by omega)
  · trivial
  · next failure given =>
    rw [given] at yields keeps
    obtain rfl : failure = .endless := yields
    exact ⟨inv, _, rfl, rfl, .inr ⟨comparing_of_incomparable keeps, rfl⟩⟩
  · next callee others given =>
    rw [given] at yields keeps
    exact callValue_permits unattended keeps.1 yields (by omega)

/-- An operation that finds what it needs is performed. -/
theorem Equipped.performs (equipped : Equipped o f) :
    execute setup st f o = perform setup st f o := by
  obtain ⟨after, few⟩ := depthAfter_fits equipped.fair equipped.enough
  have room := equipped.room
  simp only [maxStackDepth] at room
  have deep : ¬ Int64.ofNat maxStackDepth < Int64.ofNat f.stack.length - o.pops + o.pushes := by
    rw [after, Int64.ofNat_lt_iff_lt (by decide) (by omega)]
    simp only [maxStackDepth]
    omega
  simp only [execute, if_neg ((enough_iff (by omega)).mpr equipped.enough), if_neg deep]

theorem Equipped.item {depth : Int64} (equipped : Equipped o f)
    (reads : o = .pick depth ∨ o = .swap depth) : itemAt? depth f.stack ≠ none := by
  have tame := equipped.tame
  have enough := equipped.enough
  rw [(exact_of_tame tame).pops] at enough
  rcases reads with rfl | rfl
  all_goals
    simp only [Proofs.tame, decide_eq_true_eq, Proofs.reads] at tame enough
    rw [itemAt?, if_neg (by rw [Int64.lt_iff_toInt_lt]; exact Int.not_lt.mpr tame.1), ne_eq,
      List.getElem?_eq_none_iff]
    omega

theorem Equipped.permits (unattended : Unattended setup) (equipped : Equipped o f) :
    Permits o (execute setup st f o).2 := by
  rw [equipped.performs]
  have inside : ∀ i, localOf? o = some i → ¬ i < 0 ∧ i.toInt.toNat < f.locals.size := by
    intro i uses
    obtain ⟨positive, less⟩ := equipped.holds i uses
    rw [Int64.lt_iff_toInt_lt, Int64.toInt_zero]
    omega
  have jumps : ∀ g label, g.snippet = true → Permits o (jump st g label).2 := by
    intro g label snippet
    unfold jump
    split
    · trivial
    · rw [if_pos snippet]
      trivial
  unfold perform
  split
  case h_3 i | h_5 i =>
    obtain ⟨positive, less⟩ := inside i rfl
    rw [if_neg positive]
    split
    · next missing => exact absurd less (Nat.not_lt.mpr (Array.getElem?_eq_none_iff.mp missing))
    · trivial
    · trivial
  case h_4 i _ _ _ =>
    obtain ⟨positive, less⟩ := inside i rfl
    rw [if_neg (by simpa using ⟨Int64.not_lt.mp positive, less⟩)]
    trivial
  case h_6 => split <;> trivial
  case h_10 =>
    split
    · trivial
    · next missing => exact absurd missing (equipped.item (.inl rfl))
  case h_11 depth stack =>
    split
    · trivial
    · next missing =>
      obtain ⟨other, found⟩ := Option.ne_none_iff_exists'.mp (equipped.item (.inr rfl))
      cases below : f.stack with
      | nil => simp [below, itemAt?] at found
      | cons top rest =>
        rw [below] at found missing
        simp only [swapTop?, found, reduceCtorEq] at missing
  case h_12 stack inv =>
    have served := equipped.served inv rfl
    have enough : inv.args.toInt ≤ f.stack.length := equipped.enough
    have positive := served.few.1
    rw [if_neg (Int64.not_lt.mpr positive)]
    rw [Int64.le_iff_toInt_le, Int64.toInt_zero] at positive
    have room := equipped.room
    refine invoke_permits unattended served ?_ ?_
    · simp only [List.length_reverse, List.length_take]
      omega
    · simp only [List.length_drop]
      omega
  case h_13 => exact jumps f _ equipped.snippet
  case h_14 | h_15 =>
    split <;> first | trivial | exact jumps _ _ equipped.snippet
  case h_20 o _ _ _ _ _ _ _ _ _ _ _ _ empty =>
    -- only operations that take exactly one operand are left
    have one : o.pops = 1 := by cases o <;> simp_all [Operation.pops]
    have enough := equipped.enough
    simp [one, empty] at enough
  all_goals trivial

theorem Equipped.depth (equipped : Equipped o f) (done : execute setup st f o = (st', .next g)) :
    g.stack.length = depthAfter f.stack.length o := by
  have within := execute_within setup st f o
  rw [done] at within
  obtain ⟨_, _, _, _, low, same⟩ := within
  obtain ⟨after, few⟩ := depthAfter_fits equipped.fair equipped.enough
  have room := equipped.room
  simp only [maxStackDepth] at room low
  have equal := congrArg Int64.toInt ((same (by omega)).trans after)
  rw [Int64.toInt_ofNat_of_lt (by omega), Int64.toInt_ofNat_of_lt (by omega)] at equal
  omega

end Lowering.Proofs
