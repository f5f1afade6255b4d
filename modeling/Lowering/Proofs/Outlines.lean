import Lowering.Proofs.ProperRuns

/-! Operations on outlines. An outline says what the values of a frame are; every operation that goes
on takes a frame of one outline to a frame of the next. -/

namespace Lowering.Proofs
open Machine Host Shape Guest

/-- What the stack, the top first, and the locals of a frame hold. Some locals may be unbound whatever
they hold otherwise: no one checks that a call brings all arguments. -/
structure Outline where
  stack : List Slot
  locals : Nat → Slot
  absent : Nat → Bool

/-- A local may have a value. -/
def Outline.Allows (out : Outline) (i : Nat) (v : Value) : Prop :=
  (v = .unbound ∧ out.absent i = true) ∨ LocalConforms v (out.locals i)

/-- The frame is what the outline says. -/
structure Fits (f : Frame) (out : Outline) : Prop where
  stack : List.Forall₂ Conforms f.stack out.stack
  locals : ∀ i, out.Allows i (f.locals.getD i .unbound)

structure OutlineRefines (a b : Outline) : Prop where
  stack : List.Forall₂ Refines a.stack b.stack
  locals : ∀ i, LocalRefines (a.locals i) (b.locals i)
  absent : ∀ i, a.absent i = true → b.absent i = true

theorem conforms_weaken {values : List Value} {a b : List Slot}
    (conforms : List.Forall₂ Conforms values a) (refines : List.Forall₂ Refines a b) :
    List.Forall₂ Conforms values b := by
  induction conforms generalizing b with
  | nil =>
    cases refines
    exact .nil
  | cons head _ ih =>
    cases refines with
    | cons first rest => exact .cons (first _ head) (ih rest)

theorem Fits.weaken {f : Frame} {a b : Outline} (fits : Fits f a) (refines : OutlineRefines a b) :
    Fits f b :=
  ⟨conforms_weaken fits.stack refines.stack, fun i =>
    (fits.locals i).imp (fun ⟨free, absent⟩ => ⟨free, refines.absent i absent⟩) (refines.locals i _)⟩

theorem OutlineRefines.refl (a : Outline) : OutlineRefines a a :=
  ⟨List.forall₂_same.mpr fun _ _ => .refl _, fun _ _ conforms => conforms, fun _ holds => holds⟩

/-- The slot of a constant as an operation pushes it. -/
def constantSlot : Value → Slot
  | .null => .ofKind .null
  | v => .ofConstant v

/-- What a local holds once it was loaded. -/
def loaded (s : Slot) : Slot := if s.kind = .unbound then .ofKind .object else s

def Outline.push (out : Outline) (s : Slot) : Outline := { out with stack := s :: out.stack }

def Outline.setLocal (out : Outline) (i : Nat) (s : Slot) : Outline :=
  { out with locals := fun j => if j = i then s else out.locals j }

/-- The outline after an operation that goes on. There is none where the stack is too short. -/
def Outline.after? (o : Operation) (out : Outline) : Option Outline :=
  match o, out.stack with
  | .label _, _ | .goto _, _ => some out
  | .const v, _ => some (out.push (constantSlot v))
  | .loadLocal i, _ => some (out.push (loaded (out.locals i.toInt.toNat)))
  | .storeLocal i, s :: stack => some ({ out with stack }.setLocal i.toInt.toNat s)
  | .deleteLocal i, _ => some (out.setLocal i.toInt.toNat (.ofKind .unbound))
  | .loadGlobal _, _ | .getHandled, _ => some (out.push (.ofKind .object))
  | .storeGlobal _, _ :: stack | .pop, _ :: stack | .setHandled, _ :: stack
  | .ifTrue _, _ :: stack | .ifFalse _, _ :: stack => some { out with stack }
  | .dup, s :: _ => some (out.push s)
  | .pick depth, stack => (itemAt? depth stack).map out.push
  | .swap depth, stack => (swapTop? depth stack).map fun stack => { out with stack }
  | .invoke inv, stack =>
    let count := inv.args.toInt.toNat
    some { out with
      stack := (resultSlots inv (stack.take count).reverse).reverse ++ stack.drop count }
  | _, _ => none

/-- The operation can raise in a frame of the outline. -/
def mayRaise (o : Operation) (out : Outline) : Bool :=
  match o with
  | .loadLocal i => (out.locals i.toInt.toNat).kind == .unbound || out.absent i.toInt.toNat
  | .deleteLocal _ | .loadGlobal _ | .throw => true
  | .invoke inv => raisingHelper inv.helper
  | _ => false

/-- The outline without the operands of an operation, which is what it leaves when it raises. -/
def Outline.without (out : Outline) (o : Operation) : Outline :=
  { out with stack := out.stack.drop o.pops.toInt.toNat }

private theorem conforms_getElem? {values : List Value} {slots : List Slot}
    (conforms : List.Forall₂ Conforms values slots) {i : Nat} {v : Value}
    (found : values[i]? = some v) : ∃ s, slots[i]? = some s ∧ Conforms v s := by
  induction conforms generalizing i with
  | nil => cases found
  | cons head _ ih =>
    cases i with
    | zero =>
      cases found
      exact ⟨_, rfl, head⟩
    | succ i => exact ih found

private theorem conforms_set {values : List Value} {slots : List Slot}
    (conforms : List.Forall₂ Conforms values slots) (i : Nat) {v : Value} {s : Slot}
    (new : Conforms v s) : List.Forall₂ Conforms (values.set i v) (slots.set i s) := by
  induction conforms generalizing i with
  | nil => exact .nil
  | cons head rest ih =>
    cases i with
    | zero => exact .cons new rest
    | succ i => exact .cons head (ih i)

private theorem itemAt?_conforms {values : List Value} {slots : List Slot} {depth : Int64}
    {v : Value} (conforms : List.Forall₂ Conforms values slots)
    (found : itemAt? depth values = some v) :
    ∃ s, itemAt? depth slots = some s ∧ Conforms v s := by
  unfold itemAt? at *
  split at found
  · cases found
  · next inside =>
    rw [if_neg inside]
    exact conforms_getElem? conforms found

private theorem swapTop?_conforms {values swapped : List Value} {slots : List Slot} {depth : Int64}
    (conforms : List.Forall₂ Conforms values slots) (done : swapTop? depth values = some swapped) :
    ∃ exchanged, swapTop? depth slots = some exchanged ∧
      List.Forall₂ Conforms swapped exchanged := by
  unfold swapTop? at done
  split at done
  · next top rest other found =>
    cases done
    obtain ⟨s, present, also⟩ := itemAt?_conforms conforms found
    cases slots with
    | nil => cases conforms
    | cons a as =>
      refine ⟨((a :: as).set depth.toInt.toNat a).set 0 s, by simp only [swapTop?, present], ?_⟩
      exact conforms_set (conforms_set conforms _ (List.forall₂_cons.mp conforms).1) 0 also
  · cases done

private theorem normalize_conforms (h : Heap) (v : Value) :
    Conforms (h.normalize v).1 (constantSlot v) := by
  cases v <;> simp only [Heap.normalize, constantSlot, Slot.ofConstant, Heap.newFunction]
  all_goals first
    | exact conforms_ofKind rfl
    | refine ⟨rfl, fun k found => ?_⟩
  all_goals cases found
  all_goals first | exact isKnown_float _ | exact beq_self_eq_true _

theorem Fits.push {f : Frame} {out : Outline} {v : Value} {s : Slot} (fits : Fits f out)
    (conforms : Conforms v s) : Fits { f with stack := v :: f.stack } (out.push s) :=
  ⟨.cons conforms fits.stack, fits.locals⟩

theorem Fits.withStack {f : Frame} {out : Outline} {values : List Value} {slots : List Slot}
    (fits : Fits f out) (conforms : List.Forall₂ Conforms values slots) :
    Fits { f with stack := values } { out with stack := slots } :=
  ⟨conforms, fits.locals⟩

theorem Fits.setLocal {f : Frame} {out : Outline} {v : Value} {s : Slot} (fits : Fits f out)
    {i : Nat} (inside : i < f.locals.size) (allowed : (out.setLocal i s).Allows i v) :
    Fits { f with locals := f.locals.setIfInBounds i v } (out.setLocal i s) := by
  refine ⟨fits.stack, fun j => ?_⟩
  by_cases same : i = j
  · subst same
    simpa [Array.getD_eq_getD_getElem?, Array.getElem?_setIfInBounds, inside] using allowed
  · simp only [Outline.Allows, Outline.setLocal, Array.getD_eq_getD_getElem?,
      Array.getElem?_setIfInBounds]
    rw [if_neg same, if_neg (Ne.symm same), ← Array.getD_eq_getD_getElem?]
    exact fits.locals j

/-- The top of a stack and its slot. -/
theorem Fits.operand {f : Frame} {out : Outline} {v : Value} {stack : List Value}
    (fits : Fits f out) (top : f.stack = v :: stack) :
    ∃ s slots, out.stack = s :: slots ∧ Conforms v s ∧
      Fits { f with stack } { out with stack := slots } := by
  have values := fits.stack
  rw [top] at values
  cases below : out.stack with
  | nil =>
    rw [below] at values
    cases values
  | cons s slots =>
    rw [below] at values
    obtain ⟨head, rest⟩ := List.forall₂_cons.mp values
    exact ⟨s, slots, rfl, head, fits.withStack rest⟩

private theorem loaded_conforms {v : Value} {s : Slot} (conforms : LocalConforms v s) :
    Conforms v (loaded s) := by
  unfold loaded
  split
  · exact conforms_ofKind rfl
  · next bound => exact (conforms.resolve_left bound).2

/-- What an operation makes of a frame of an outline. A frame that calls will get one object. -/
def Shaped (f : Frame) (o : Operation) (out : Outline) : Effect → Prop
  | .next g => ∃ out', out.after? o = some out' ∧ Fits g out'
  | .raise g _ => mayRaise o out = true ∧
      g = { f with stack := f.stack.drop o.pops.toInt.toNat }
  | .enter g _ => g = { f with stack := f.stack.drop o.pops.toInt.toNat } ∧
      out.after? o = some ((out.without o).push (.ofKind .object)) ∧ mayRaise o out = true
  | .finish g (.exited label) => f.routine.labelIndex? label = none ∧ o.target? = some label ∧
      ∃ out', out.after? o = some out' ∧ Fits g out'
  | .finish _ _ => True

private theorem pushResults_shaped {st : State} {f : Frame} {o : Operation} {out : Outline}
    {inv : Invocation} {results : List Value}
    (shaped : Shaped f o out (.next { f with stack := results.reverse ++ f.stack.drop o.pops.toInt.toNat })) :
    Shaped f o out (pushResults st { f with stack := f.stack.drop o.pops.toInt.toNat } inv results).2 := by
  rcases pushResults_cases st { f with stack := f.stack.drop o.pops.toInt.toNat } inv results with
    ⟨pushed, _⟩ | failed
  · rw [pushed]
    exact shaped
  · rw [failed]
    trivial

private theorem callValue_shaped {setup : Setup} {st : State} {f : Frame} {o : Operation}
    {out : Outline} {inv : Invocation} {callee : Value} {args : List Value} (fits : Fits f out)
    (object : out.after? o = some ((out.without o).push (.ofKind .object)))
    (raises : mayRaise o out = true) :
    Shaped f o out (callValue setup st
      { f with stack := f.stack.drop o.pops.toInt.toNat } inv callee args).2 := by
  have single : ∀ v : Value, Shaped f o out
      (.next { f with stack := [v].reverse ++ f.stack.drop o.pops.toInt.toNat }) := fun v =>
    ⟨_, object, .cons (conforms_ofKind rfl) (List.forall₂_drop _ fits.stack), fits.locals⟩
  unfold callValue
  split
  next ref =>
    dsimp only
    split
    · trivial
    · next st₁ _ =>
      have keeps := act_keeps setup.custom st₁.heap (st.heap.builtin ref).name
        (st.heap.builtin ref).action args
      split
      · next results given =>
        have gives := keeps.reply
        rw [given] at gives
        split
        · trivial
        · cases gives with
          | cons _ rest =>
            cases rest
            exact pushResults_shaped (single _)
      · exact ⟨raises, rfl⟩
      · trivial
      · trivial
  next ref =>
    dsimp only
    split
    · exact ⟨raises, rfl⟩
    · split
      · trivial
      · exact ⟨rfl, object, raises⟩
  next ref => exact pushResults_shaped (single _)
  next => exact ⟨raises, rfl⟩

private theorem invoke_shaped {setup : Setup} (plain : setup.helpers = []) {st : State} {f : Frame}
    {out : Outline} {inv : Invocation} (fits : Fits f out) :
    Shaped f (.invoke inv) out (invoke setup st
      { f with stack := f.stack.drop inv.args.toInt.toNat } inv
      (f.stack.take inv.args.toInt.toNat).reverse).2 := by
  have args : List.Forall₂ Conforms (f.stack.take inv.args.toInt.toNat).reverse
      (out.stack.take inv.args.toInt.toNat).reverse :=
    List.rel_reverse (List.forall₂_take _ fits.stack)
  have gives := (standardHelper_keeps st.heap inv args).reply
  unfold invoke
  rw [helper_standard plain]
  dsimp only [ofHeap]
  split
  · next results given =>
    rw [given] at gives
    refine pushResults_shaped ⟨_, rfl, ?_⟩
    exact fits.withStack (List.rel_append (List.rel_reverse gives) (List.forall₂_drop _ fits.stack))
  · next given =>
    rw [given] at gives
    exact ⟨gives, rfl⟩
  · trivial
  · next callee others given =>
    rw [given] at gives
    obtain ⟨calls, object⟩ := gives
    refine callValue_shaped fits ?_ (raisingHelper_of_calling calls)
    simp only [Outline.after?, show resultSlots inv _ = _ from object]
    rfl

private theorem jump_shaped {st : State} {f g : Frame} {o : Operation} {out out' : Outline}
    {label : Label} (named : o.target? = some label) (own : g.routine = f.routine)
    (after : out.after? o = some out') (fits : Fits g out') : Shaped f o out (jump st g label).2 := by
  unfold jump
  split
  · exact ⟨out', after, fits.stack, fits.locals⟩
  · next missing =>
    split
    · exact ⟨own ▸ missing, named, out', after, fits⟩
    · trivial

/-- A value that is no binding is stored only where the outline allows it. -/
def Storable (f : Frame) (o : Operation) (out : Outline) : Prop :=
  ∀ i stack, o = .storeLocal i → f.stack = .unbound :: stack → out.absent i.toInt.toNat = true

theorem ProperFrame.storable {f : Frame} (frame : ProperFrame f) (o : Operation) (out : Outline) :
    Storable f o out := by
  intro i stack _ top
  have holds := frame.stack
  rw [top] at holds
  cases holds

theorem perform_shaped {setup : Setup} (plain : setup.helpers = []) {st : State} {f : Frame}
    {o : Operation} {out : Outline} (storable : Storable f o out) (fits : Fits f out) :
    Shaped f o out (perform setup st f o).2 := by
  have values := fits.stack
  have kept : ∀ o : Operation, o.pops = 0 → f = { f with stack := f.stack.drop o.pops.toInt.toNat } := by
    intro o none
    simp [none]
  unfold perform
  split
  case h_1 => exact ⟨out, rfl, fits⟩
  case h_2 v _ => exact ⟨_, rfl, fits.push (normalize_conforms _ _)⟩
  case h_3 _ i =>
    split
    · trivial
    · split
      · trivial
      · next found =>
        refine ⟨?_, kept _ rfl⟩
        have holds := fits.locals i.toInt.toNat
        rw [Array.getD_eq_getD_getElem?, found] at holds
        rcases holds with ⟨_, absent⟩ | conforms
        · simp only [mayRaise, absent, Bool.or_true]
        · have free := conforms.resolve_right fun bound => bound.1 rfl
          simp only [mayRaise, free, beq_self_eq_true, Bool.true_or]
      · next v bound found =>
        have holds := fits.locals i.toInt.toNat
        rw [Array.getD_eq_getD_getElem?, found] at holds
        have conforms := holds.resolve_left fun free => bound free.1
        exact ⟨_, rfl, fits.push (loaded_conforms conforms)⟩
  case h_4 i v stack top =>
    split
    · trivial
    · next inside =>
      simp only [Bool.or_eq_true, decide_eq_true_eq, not_or, Nat.not_le] at inside
      obtain ⟨s, slots, below, head, emptied⟩ := fits.operand top
      refine ⟨{ out with stack := slots }.setLocal i.toInt.toNat s,
        by simp only [Outline.after?, below], emptied.setLocal inside.2 ?_⟩
      by_cases free : v = .unbound
      · exact .inl ⟨free, storable i stack rfl (free ▸ top)⟩
      · exact .inr (.inr ⟨free, by simpa [Outline.setLocal] using head⟩)
  case h_5 _ i =>
    split
    · trivial
    · split
      · trivial
      · exact ⟨rfl, kept _ rfl⟩
      · next found =>
        have inside := (Array.getElem?_eq_some_iff.mp found).1
        exact ⟨_, rfl, fits.setLocal inside (.inr (.inl (by simp [Outline.setLocal, Slot.ofKind])))⟩
  case h_6 =>
    split
    · exact ⟨_, rfl, fits.push (conforms_ofKind rfl)⟩
    · exact ⟨rfl, kept _ rfl⟩
  case h_18 => exact ⟨_, rfl, fits.push (conforms_ofKind rfl)⟩
  case h_10 =>
    split
    · next found =>
      obtain ⟨s, present, conforms⟩ := itemAt?_conforms values found
      exact ⟨_, by simp only [Outline.after?, present, Option.map_some], fits.push conforms⟩
    · trivial
  case h_11 =>
    split
    · next done =>
      obtain ⟨slots, present, conforms⟩ := swapTop?_conforms values done
      exact ⟨_, by simp only [Outline.after?, present, Option.map_some], fits.withStack conforms⟩
    · trivial
  case h_12 =>
    split
    · trivial
    · exact invoke_shaped plain fits
  case h_13 => exact jump_shaped rfl rfl rfl fits
  case h_16 => trivial
  case h_20 => trivial
  case h_7 _ _ _ top | h_8 _ _ top | h_19 _ _ top =>
    obtain ⟨s, slots, below, _, emptied⟩ := fits.operand top
    exact ⟨{ out with stack := slots }, by simp only [Outline.after?, below], emptied⟩
  case h_9 v stack top =>
    obtain ⟨s, slots, below, head, emptied⟩ := fits.operand top
    refine ⟨out.push s, by simp only [Outline.after?, below], ?_⟩
    rw [← top]
    exact fits.push head
  case h_14 label v stack top =>
    obtain ⟨s, slots, below, _, emptied⟩ := fits.operand top
    have after : out.after? (.ifTrue label) = some { out with stack := slots } := by
      simp only [Outline.after?, below]
    split
    · exact jump_shaped rfl rfl after emptied
    · exact ⟨_, after, emptied⟩
  case h_15 label v stack top =>
    obtain ⟨s, slots, below, _, emptied⟩ := fits.operand top
    have after : out.after? (.ifFalse label) = some { out with stack := slots } := by
      simp only [Outline.after?, below]
    split
    · exact ⟨_, after, emptied⟩
    · exact jump_shaped rfl rfl after emptied
  case h_17 v stack top =>
    refine ⟨rfl, ?_⟩
    rw [top]
    rfl

theorem execute_shaped {setup : Setup} (plain : setup.helpers = []) {st : State} {f : Frame}
    {o : Operation} {out : Outline} (storable : Storable f o out) (fits : Fits f out) :
    Shaped f o out (execute setup st f o).2 := by
  unfold execute
  dsimp only
  split
  · trivial
  · split
    · trivial
    · exact perform_shaped plain storable fits

end Lowering.Proofs
