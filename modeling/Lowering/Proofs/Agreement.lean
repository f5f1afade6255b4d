import Lowering.Proofs.Forgetting
import Lowering.Proofs.SelfContainment
import Lowering.Proofs.Snippets

/-! The flow of an instruction and its operations agree. Executed on their own, on a stack and locals of a
shape, the operations are left in a way that the flow foresees, with a stack and locals of the shape there. -/

namespace Lowering.Proofs
open Machine Host Shape Guest

variable {plan : Plan} {o : Bound} {s t : Stack} {stamp : Nat} {fresh : Label} {flow : Flow}
  {stack locals : List Value} {lost : Nat → Prop}

/-- Locals fit a shape: those of the function, unless their binding is lost, and those that save what was
handled before the handlers on the stack. -/
structure LocalsSuit (plan : Plan) (lost : Nat → Prop) (locals : List Value) (s : Stack) : Prop where
  own : ∀ i, i < plan.function.localCount → (localSlot s.locals i).kind = .unbound ∨
    (locals.getD i .unbound ≠ .unbound ∧ admits (localSlot s.locals i).kind (locals.getD i .unbound) = true) ∨
    (lost i ∧ locals.getD i .unbound = .unbound)
  saved : plan.dialect = .legacy → ∀ cell ∈ s.cells, cell.slot.region ≠ 0 →
    (plan.function.localCount : Int) ≤ (plan.scratch cell.slot.region).toInt ∧
      locals.getD (plan.scratch cell.slot.region).toInt.toNat .unbound ≠ .unbound

/-- A stack, the lowest value first, and locals fit a shape. -/
structure Suits (plan : Plan) (lost : Nat → Prop) (stack locals : List Value) (s : Stack) : Prop
    extends LocalsSuit plan lost locals s where
  stack : List.Forall₂ (fun v (slot : Slot) => admits slot.kind v = true) stack s.slots

theorem localsSuit_bare : LocalsSuit plan lost locals (bare s) ↔ LocalsSuit plan lost locals s := by
  have kinds : ∀ i, (localSlot (bare s).locals i).kind = (localSlot s.locals i).kind := by
    intro i
    simp only [localSlot, bare, List.getD_eq_getElem?_getD, List.getElem?_map]
    cases s.locals[i]? <;> rfl
  constructor <;> rintro ⟨own, saved⟩
  · refine ⟨fun i inside => kinds i ▸ own i inside, fun legacy cell member tagged => ?_⟩
    exact saved legacy (bareCell cell) (List.mem_map_of_mem member) tagged
  · refine ⟨fun i inside => (kinds i).symm ▸ own i inside, fun legacy cell member tagged => ?_⟩
    obtain ⟨cell, present, rfl⟩ := List.mem_map.mp member
    exact saved legacy cell present tagged

/-- A value is still of every kind it was of. Constants that are given as values are normalised first, which
keeps their kinds. -/
structure Renders (v w : Value) : Prop where
  kinds : ∀ kind, admits kind v = true → admits kind w = true
  bound : w = .unbound ↔ v = .unbound

theorem normalize_renders (h : Heap) (v : Value) : Renders v (h.normalize v).1 := by
  cases v
  case word | word32 | single | sequence | routine =>
    refine ⟨fun kind holds => ?_, ⟨nofun, nofun⟩⟩
    cases kind <;> first | rfl | cases holds
  all_goals exact ⟨fun _ holds => holds, Iff.rfl⟩

theorem normalizeAll_renders (h : Heap) (values : List Value) :
    List.Forall₂ Renders values (h.normalizeAll values).1 := by
  induction values generalizing h with
  | nil => exact .nil
  | cons v rest ih => exact .cons (normalize_renders h v) (ih _)

theorem renders_getD {values others : List Value} (renders : List.Forall₂ Renders values others) (i : Nat) :
    Renders (values.getD i .unbound) (others.getD i .unbound) := by
  induction renders generalizing i with
  | nil => exact ⟨fun _ holds => holds, Iff.rfl⟩
  | cons head _ ih =>
    cases i with
    | zero => exact head
    | succ i => exact ih i

theorem LocalsSuit.renders {others : List Value} (suits : LocalsSuit plan lost locals s)
    (renders : List.Forall₂ Renders locals others) : LocalsSuit plan lost others s := by
  have each := renders_getD renders
  refine ⟨fun i inside => ?_, fun legacy cell member tagged => ?_⟩
  · rcases suits.own i inside with free | ⟨bound, kind⟩ | ⟨gone, unbound⟩
    · exact .inl free
    · exact .inr (.inl ⟨fun none => bound ((each i).bound.mp none), (each i).kinds _ kind⟩)
    · exact .inr (.inr ⟨gone, (each i).bound.mpr unbound⟩)
  · obtain ⟨outside, bound⟩ := suits.saved legacy cell member tagged
    exact ⟨outside, fun none => bound ((each _).bound.mp none)⟩

theorem renders_stack {others : List Value} {slots : List Slot}
    (values : List.Forall₂ (fun v (slot : Slot) => admits slot.kind v = true) stack slots)
    (renders : List.Forall₂ Renders stack others) :
    List.Forall₂ (fun v (slot : Slot) => admits slot.kind v = true) others slots := by
  induction values generalizing others with
  | nil =>
    cases renders
    exact .nil
  | cons head _ ih =>
    cases renders with
    | cons first rest => exact .cons (first.kinds _ head) (ih rest)

variable {absent : Nat → Bool} {f : Frame} {out : Outline} {i : Nat}

theorem saves_iff : saves plan ⟨t, []⟩ i = true ↔ plan.dialect = .legacy ∧ ∃ cell ∈ t.cells,
    cell.slot.region ≠ 0 ∧ (plan.scratch cell.slot.region).toInt.toNat = i := by
  simp only [saves, List.any_nil, Bool.or_false, Bool.and_eq_true, List.any_eq_true, bne_iff_ne, ne_eq,
    beq_iff_eq]

theorem locals_toList (f : Frame) (i : Nat) : f.locals.toList.getD i .unbound = f.locals.getD i .unbound := by
  simp [Array.getD_eq_getD_getElem?, List.getD_eq_getElem?_getD]

theorem LocalsSuit.allows (suits : LocalsSuit plan (fun _ => False) f.locals.toList s) (i : Nat) :
    (outlineAt absent plan ⟨bare s, []⟩).Allows i (f.locals.getD i .unbound) := by
  have suits := localsSuit_bare.mpr suits
  rw [← locals_toList]
  refine .inr ?_
  simp only [outlineAt]
  split
  next inside =>
    refine (suits.own i inside).imp_right fun rest => ?_
    obtain ⟨bound, kind⟩ := rest.resolve_right fun gone => gone.1
    have unknown : (localSlot (bare s).locals i).known = none := by
      simp only [localSlot, bare, List.getD_eq_getElem?_getD, List.getElem?_map]
      cases s.locals[i]? <;> rfl
    exact ⟨bound, kind, by simp [unknown]⟩
  next outside =>
    split
    next saved =>
      obtain ⟨legacy, cell, member, tagged, rfl⟩ := saves_iff.mp saved
      exact .inr ⟨(suits.saved legacy cell member tagged).2, conforms_ofKind rfl⟩
    next => exact .inl rfl

theorem suits_of_allows (allows : ∀ i, (outlineAt absent plan ⟨t, []⟩).Allows i (f.locals.getD i .unbound))
    (placed : plan.dialect = .legacy → ∀ cell ∈ t.cells, cell.slot.region ≠ 0 →
      (plan.function.localCount : Int) ≤ (plan.scratch cell.slot.region).toInt) :
    LocalsSuit plan (fun i => absent i = true) f.locals.toList t := by
  refine ⟨fun i inside => ?_, fun legacy cell member tagged => ⟨placed legacy cell member tagged, ?_⟩⟩
  · rw [locals_toList]
    have holds := allows i
    simp only [Outline.Allows, outlineAt, inside, if_true, LocalConforms, decide_true, Bool.true_and] at holds
    rcases holds with ⟨unbound, gone⟩ | free | ⟨bound, conforms⟩
    · exact .inr (.inr ⟨gone, unbound⟩)
    · exact .inl free
    · exact .inr (.inl ⟨bound, conforms.kind⟩)
  · rw [locals_toList]
    have outside := placed legacy cell member tagged
    have beyond : ¬ (plan.scratch cell.slot.region).toInt.toNat < plan.function.localCount := by omega
    have saved := saves_iff.mpr ⟨legacy, cell, member, tagged, rfl⟩
    have holds := allows (plan.scratch cell.slot.region).toInt.toNat
    simp only [Outline.Allows, outlineAt, beyond, if_false, saved, if_true, decide_false, Bool.false_and,
      Bool.false_eq_true, and_false, false_or, LocalConforms, Slot.ofKind, reduceCtorEq] at holds
    exact holds.1

/-- Some operations tell what the instruction is that they implement. -/
def telling (opcode : Opcode) : Operation → Bool
  | .storeLocal _ => opcode == .storeFast
  | .ret => opcode == .returnValue
  | .invoke inv =>
    match inv.helper with
    | .compare => opcode == .compareOp
    | .contains => opcode == .containsOp
    | .call => opcode == .callFunction
    | .callMethod => opcode == .call
    | _ => true
  | _ => true

theorem expand_telling : (o.expand plan fresh s).all (telling o.opcode) = true := by
  cases opcode : o.opcode <;> simp only [Bound.expand, opcode]
  case popExcept =>
    unfold Plan.leave
    cases plan.dialect with
    | modern => rfl
    | legacy =>
      simp only [List.all_append, List.all_replicate, Bool.and_eq_true]
      refine ⟨by simp [telling], ?_⟩
      split <;> rfl
  case reraise =>
    unfold Guest.reraise
    split
    · rfl
    · split <;> rfl
  case raiseVarargs => split <;> [rfl; (split <;> rfl)]
  case loadGlobal | loadAttr => split <;> rfl
  all_goals rfl

theorem expand_short (valid : Lawful plan o) : (o.expand plan fresh s).length ≤ 7 := by
  cases opcode : o.opcode <;> simp only [Bound.expand, opcode]
  case popExcept =>
    rw [valid.popExcept opcode]
    unfold Plan.leave
    cases plan.dialect <;> simp [Dialect.exceptionSlots]
  case reraise =>
    unfold Guest.reraise
    split
    · simp
    · split <;> simp
  case raiseVarargs => split <;> [simp; (split <;> simp)]
  case loadGlobal | loadAttr => split <;> simp
  all_goals simp

theorem expand_stores {i : Int64} (member : .storeLocal i ∈ o.expand plan fresh s) :
    o.opcode = .storeFast ∧ o.expand plan fresh s = [.storeLocal o.arg] ∧ i = o.arg := by
  have opcode : o.opcode = .storeFast := by
    simpa [telling] using List.all_eq_true.mp expand_telling _ member
  have whole : o.expand plan fresh s = [.storeLocal o.arg] := by simp only [Bound.expand, opcode]
  rw [whole] at member
  cases List.mem_singleton.mp member
  exact ⟨opcode, whole, rfl⟩

theorem expand_bare : o.expand plan fresh (bare s) = o.expand plan fresh s := by
  cases opcode : o.opcode <;> simp only [Bound.expand, opcode, Plan.leave, enclosing_bare]

/-- An instruction that can be executed on its own, on stacks of a shape on which its flow is defined. -/
structure Executable (plan : Plan) (o : Bound) (s : Stack) (stamp : Nat) (fresh : Label) (flow : Flow) : Prop
    extends Lawful plan o where
  made : Bound.ofInstruction plan.function o.inst = .ok o
  countable : Countable o
  forward : o.opcode.jumps = true → 0 ≤ o.arg
  internal : o.opcode = .forIter → fresh < 0
  whole : o.opcode = .checkExcMatch → 2 ≤ s.depth
  room : s.depth + 14 ≤ maxStackDepth
  flows : o.flow plan stamp s = .ok flow

section
variable {g : Flow} {e : Edge}

theorem Executable.small (executable : Executable plan o s stamp fresh flow) : s.depth ≤ addressable := by
  have room := executable.room
  simp only [maxStackDepth, addressable] at room ⊢
  omega

/-- No instruction jumps to an internal label. -/
theorem Executable.apart (executable : Executable plan o s stamp fresh flow)
    (echo : o.flow plan stamp t = .ok g) (listed : e ∈ g.branches) (iterates : o.opcode = .forIter) :
    e.target ≠ fresh := by
  obtain ⟨same, jumps, _⟩ := (flow_edges echo).2 e listed
  rintro rfl
  exact Int64.lt_irrefl (Int64.lt_of_lt_of_le (executable.internal iterates) (same ▸ executable.forward jumps))

/-- The operations of such an instruction, with locals that fit the shape. -/
def Executable.errand (executable : Executable plan o s stamp fresh flow)
    (echo : o.flow plan stamp (bare s) = .ok g) (suits : LocalsSuit plan (fun _ => False) locals s)
    (enough : plan.function.localCount ≤ locals.length) (absent : Nat → Bool) : Errand where
  routine :=
    { name := "<snippet>", localCount := Int64.ofNat locals.length, ops := (o.expand plan fresh s).toArray }
  exits := flowExits absent plan fresh o ⟨bare s, []⟩ g []
  ends := Final flow
  count := locals.length
  base := s.depth
  unprotected := rfl
  tame := expand_tame executable.toLawful executable.small executable.flows
  fair := expand_fair (p := ⟨s, []⟩) executable.toLawful executable.countable executable.small executable.flows
  locals op member n uses := by
    rcases expand_locals executable.checked member uses with ⟨positive, less⟩ | ⟨_, legacy, owned, rfl⟩
    · exact ⟨positive, by omega⟩
    · cases uses
      obtain ⟨cell, listed, tagged, same⟩ := enclosing_mem owned
      obtain ⟨outside, bound⟩ := suits.saved legacy cell listed tagged
      rw [same] at outside bound
      refine ⟨by omega, ?_⟩
      by_contra beyond
      rw [List.getD_eq_default _ _ (by omega)] at bound
      exact bound rfl
  served inv member := expand_served executable.made executable.countable member
  stores i member := by
    obtain ⟨_, whole, _⟩ := expand_stores (List.mem_of_mem_tail member)
    simp [whole] at member
  last label k found := by
    have own : (snippetOf (o.expand plan fresh s)).labelIndex? label = some k := found
    simpa using (expand_label own).2.2
  lands label k out found branch := by
    have own : (snippetOf (o.expand plan fresh s)).labelIndex? label = some k := found
    obtain ⟨iterates, rfl, _⟩ := expand_label own
    rcases branch with ⟨e, listed, _, same, _⟩ | ⟨_, _, through⟩
    · exact absurd same (executable.apart echo listed iterates)
    · exact through
  room := by
    have short : (o.expand plan fresh s).length ≤ 7 := expand_short executable.toLawful
    have room := executable.room
    simp only [List.size_toArray]
    omega

/-- A machine at the start of some operations, on a stack, given from the lowest, and locals. -/
def Config.snippet (st : State) (ops : List Operation) (stack locals : List Value) : Config where
  state := { st with heap := ((st.heap.normalizeAll stack).2.normalizeAll locals).2, steps := 0 }
  frame :=
    { routine :=
        { name := "<snippet>"
          localCount := Int64.ofNat ((st.heap.normalizeAll stack).2.normalizeAll locals).1.length
          ops := ops.toArray }
      stack := (st.heap.normalizeAll stack).1.reverse
      locals := ((st.heap.normalizeAll stack).2.normalizeAll locals).1.toArray
      depth := 0
      snippet := true }
  waiting := []

/-- Storing the sentinel of locals without a binding gives up the binding of a local. -/
def forfeits (o : Bound) (stack : List Value) (i : Nat) : Bool :=
  o.opcode == .storeFast && o.arg.toInt.toNat == i &&
    match stack.getLast? with
    | some .unbound => true
    | _ => false

theorem forfeits_iff : forfeits o stack i = true ↔
    o.opcode = .storeFast ∧ o.arg.toInt.toNat = i ∧ stack.getLast? = some .unbound := by
  unfold forfeits
  split <;> simp_all

theorem Suits.fits (suits : Suits plan (fun _ => False) stack locals s) (absent : Nat → Bool) (st : State)
    (ops : List Operation) :
    Fits (Config.snippet st ops stack locals).frame (outlineAt absent plan ⟨bare s, []⟩) := by
  have locals := suits.toLocalsSuit.renders (normalizeAll_renders (st.heap.normalizeAll stack).2 locals)
  have values := renders_stack suits.stack (normalizeAll_renders st.heap stack)
  refine ⟨?_, LocalsSuit.allows (f := (Config.snippet st ops stack _).frame) locals⟩
  have slots : (outlineAt absent plan ⟨bare s, []⟩).stack = s.slots.reverse.map bareSlot := by
    simp [outlineAt, Stack.slots, bare, bareCell, Function.comp_def]
  rw [slots, List.forall₂_map_right_iff]
  exact (List.rel_reverse values).imp fun v slot kind => ⟨kind, fun _ known => by cases known⟩

theorem Suits.forfeited (st : State) {ops : List Operation} {rest : List Value}
    (top : (Config.snippet st ops stack locals).frame.stack = .unbound :: rest) :
    stack.getLast? = some .unbound := by
  have renders := List.rel_reverse (normalizeAll_renders st.heap stack)
  rw [show (st.heap.normalizeAll stack).1.reverse = .unbound :: rest from top] at renders
  rw [← List.head?_reverse]
  generalize stack.reverse = values at renders
  cases renders with
  | cons head _ =>
    rw [List.head?_cons, head.bound.mp rfl]

theorem Executable.aboard (executable : Executable plan o s stamp fresh flow)
    (echo : o.flow plan stamp (bare s) = .ok g) (suits : Suits plan (fun _ => False) stack locals s) (st : State)
    (local_suits : LocalsSuit plan (fun _ => False) ((st.heap.normalizeAll stack).2.normalizeAll locals).1 s)
    (enough : plan.function.localCount ≤ ((st.heap.normalizeAll stack).2.normalizeAll locals).1.length) :
    Aboard (executable.errand echo local_suits enough (forfeits o stack))
      (Config.snippet st (o.expand plan fresh s) stack locals).frame := by
  have fits := suits.fits (forfeits o stack) st (o.expand plan fresh s)
  have followable : Followable plan o ⟨bare s, []⟩ := ⟨executable.toLawful, fun cell member tagged legacy => by
    have outside := ((localsSuit_bare.mpr suits.toLocalsSuit).saved legacy cell member tagged).1
    omega⟩
  have follows : Follows (flowExits (forfeits o stack) plan fresh o ⟨bare s, []⟩ g [])
      (o.expand plan fresh (bare s)) (outlineAt (forfeits o stack) plan ⟨bare s, []⟩) :=
    expand_follows followable echo nofun
  rw [expand_bare] at follows
  have depth : (Config.snippet st (o.expand plan fresh s) stack locals).frame.stack.length = s.depth := by
    rw [fits.stack.length_eq]
    simp [outlineAt, bare, Stack.depth]
  refine ⟨rfl, rfl, Nat.zero_le _, rfl, ⟨_, fits, follows, fun op _ first i rest same top => ?_⟩, ?_, ?_⟩
  · subst same
    obtain ⟨opcode, _, rfl⟩ := expand_stores (List.mem_of_head? first)
    have checked := executable.toLawful.operand
    simp only [Bound.badOperand, opcode] at checked
    simp only [outlineAt, Bool.and_eq_true, decide_eq_true_eq]
    exact ⟨(inRange_none checked).2, forfeits_iff.mpr ⟨opcode, rfl, Suits.forfeited st top⟩⟩
  · rw [depth]
    refine expand_suffices executable.toLawful (fun opcode => ?_) executable.flows
    have whole := executable.whole opcode
    omega
  · exact Nat.le_of_eq depth

theorem LocalsSuit.kept {others : Nat → Prop} (suits : LocalsSuit plan lost locals s)
    (less : ∀ i, lost i → others i) : LocalsSuit plan others locals s :=
  ⟨fun i inside => (suits.own i inside).imp_right (Or.imp_right (And.imp_left (less i))), suits.saved⟩

theorem Suits.kept {others : Nat → Prop} (suits : Suits plan lost stack locals s)
    (less : ∀ i, lost i → others i) : Suits plan others stack locals s :=
  ⟨suits.toLocalsSuit.kept less, suits.stack⟩

/-- A frame of the outline of a shape that comes out of another one fits it. -/
theorem LocalsSuit.reached (suits : LocalsSuit plan (fun _ => False) locals s) (inherits : Inherits (bare s) t)
    (fits : Fits f (outlineAt absent plan ⟨t, []⟩)) :
    Suits plan (fun i => absent i = true) f.stack.reverse f.locals.toList t := by
  refine ⟨suits_of_allows fits.locals fun legacy cell member tagged => ?_, ?_⟩
  · obtain ⟨source, present, same⟩ := (inherits cell member).resolve_left tagged
    rw [← same]
    exact ((localsSuit_bare.mpr suits).saved legacy source present (same ▸ tagged)).1
  · exact (List.rel_reverse (fits.stack.imp fun _ _ conforms => conforms.kind))

variable {setup : Setup} {start : Config} {ending : Ending}

end

/-- A store into the only local of a function. -/
def storing : Instruction := { offset := 0, code := Opcode.storeFast.code, arg := 0 }

/-- Two lists on the stack. -/
def listed : Stack := ⟨[⟨0, .ofKind .list⟩, ⟨0, .ofKind .list⟩], []⟩

end Lowering.Proofs
