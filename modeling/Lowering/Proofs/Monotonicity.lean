import Lowering.Proofs.Joins

/-! Flows and widening. An instruction that is accepted on a shape is accepted on those it widens to and on
those that widen to it, since widening leaves the depth, the regions and the exception state of a stack as
they are. What it makes of the narrower shape widens to what it makes of the wider one, as long as what is
loaded from a local can be on the stack. -/

namespace Lowering.Proofs
open Guest Shape

/-- Slots of the same region that are of the same kind, or both values. -/
def Kin (a b : Slot) : Prop :=
  a.region = b.region ∧ (a.kind = b.kind ∨ a.kind.widens = true ∧ b.kind.widens = true)

def Akin (s t : Stack) : Prop := List.Forall₂ (fun a b => Kin a.slot b.slot) s.cells t.cells

theorem Kin.symm {a b : Slot} (kin : Kin a b) : Kin b a :=
  ⟨kin.1.symm, kin.2.imp Eq.symm And.symm⟩

theorem Akin.symm {s t : Stack} (akin : Akin s t) : Akin t s :=
  (List.Forall₂.flip akin).imp fun _ _ => Kin.symm

private theorem Kin.told {a b : Slot} (kin : Kin a b) {kind : Kind} (narrow : kind.widens = false) :
    a.kind = kind ↔ b.kind = kind := by
  rcases kin.2 with same | ⟨wide, also⟩
  · rw [same]
  · refine ⟨?_, ?_⟩ <;> rintro rfl
    · cases wide.symm.trans narrow
    · cases also.symm.trans narrow

private theorem Kin.state {a b : Slot} (kin : Kin a b) :
    a.kind.isExceptionState = b.kind.isExceptionState := by
  have plain : ∀ kind : Kind, kind.widens = true → kind.isExceptionState = false := by
    intro kind wide
    cases kind <;> first | rfl | cases wide
  rcases kin.2 with same | ⟨wide, also⟩
  · rw [same]
  · rw [plain _ wide, plain _ also]

theorem Widens.kin {a b : Slot} (widens : Widens a b) : Kin a b := by
  refine ⟨widens.region, ?_⟩
  cases widens with
  | fades kind => exact .inl kind
  | object _ value => exact .inr ⟨value, rfl⟩

theorem ShapeWidens.akin {s t : Stack} (widens : ShapeWidens s t) : Akin s t :=
  widens.cells.imp fun _ _ cell => cell.kin

section
variable {s t : Stack}

private theorem Akin.depth (akin : Akin s t) : s.depth = t.depth := akin.length_eq

private theorem Akin.height (akin : Akin s t) : s.height = t.height := by
  unfold Stack.height
  rw [akin.depth]

private theorem Akin.peek (akin : Akin s t) {i : Int64} {a : Slot} (peeked : s.peek i = .ok a) :
    ∃ b, t.peek i = .ok b ∧ Kin a b := by
  obtain ⟨positive, cell, found, rfl⟩ := peek_spec peeked
  obtain ⟨other, present, kin⟩ := forall₂_left akin found
  exact ⟨other.slot, by rw [Stack.peek, if_neg (Int.not_lt.mpr positive), present], kin⟩

private theorem Akin.enclosing (akin : Akin s t) : enclosing s = enclosing t :=
  enclosing_congr (List.Forall₂.imp (fun _ _ cell => ⟨cell.1, fun _ => cell.state⟩) akin)

private theorem Akin.regionBase (akin : Akin s t) (region : Int64) :
    s.regionBase region = t.regionBase region :=
  regionBase_congr (List.Forall₂.imp (fun _ _ cell => cell.1) akin) region

private theorem Akin.extraSlots (akin : Akin s t) (region : Int64) :
    extraSlots s region = extraSlots t region := by
  unfold Proofs.extraSlots
  rw [akin.height, akin.regionBase]
  cases peeked : s.peek (t.height - 1 - t.regionBase region) with
  | ok a =>
    obtain ⟨b, found, kin⟩ := akin.peek peeked
    rw [found]
    have same : a.kind = .lasti ↔ b.kind = .lasti := kin.told rfl
    by_cases offset : b.kind = .lasti
    · simp [offset, same.mpr offset]
    · simp [offset, mt same.mp offset]
  | error =>
    cases found : t.peek (t.height - 1 - t.regionBase region) with
    | error => rfl
    | ok b =>
      obtain ⟨_, other, _⟩ := akin.symm.peek found
      cases peeked.symm.trans other

private theorem Akin.leavable (akin : Akin s t) (region : Int64) (slots : Nat) :
    leavable s region slots = leavable t region slots := by
  unfold Proofs.leavable
  rw [akin.height, akin.regionBase, akin.extraSlots]

/-- Widening a stack does not change whether a handler can be left. -/
theorem Akin.checkLeave (akin : Akin s t) {plan : Plan} {dialect : Dialect} {slots : Nat}
    (checked : Flow.checkLeave plan dialect s slots = .ok ()) :
    Flow.checkLeave plan dialect t slots = .ok () := by
  cases dialect with
  | legacy =>
    rw [checkLeave_legacy] at checked ⊢
    rwa [← akin.enclosing, ← akin.leavable]
  | modern =>
    have cells : List.Forall₂ (fun a b : Cell => Kin a.slot b.slot) s.cells t.cells := akin
    cases above : t.cells with
    | nil => simp [Flow.checkLeave, above]
    | cons top rest =>
      rw [above] at cells
      cases below : s.cells with
      | nil =>
        rw [below] at cells
        cases cells
      | cons own others =>
        rw [below] at cells
        cases cells with
        | cons head _ =>
          rw [checkLeave_modern below, akin.enclosing, head.1, akin.leavable] at checked
          rw [checkLeave_modern above]
          have same : own.slot.kind = .prevException ↔ top.slot.kind = .prevException := head.told rfl
          simpa only [same] using checked

private theorem Akin.checkParts (akin : Akin s t) {kinds : List Kind} {i region : Int64}
    (narrow : ∀ kind ∈ kinds, kind.widens = false)
    (checked : Flow.checkParts s i region kinds = .ok ()) :
    Flow.checkParts t i region kinds = .ok () := by
  induction kinds generalizing i region with
  | nil => rfl
  | cons kind kinds ih =>
    rw [Flow.checkParts] at checked ⊢
    split at checked
    · cases checked
    · next a peeked =>
      split at checked
      · cases checked
      · next fits =>
        obtain ⟨b, found, kin⟩ := akin.peek peeked
        have same := kin.told (narrow kind List.mem_cons_self)
        rw [found]
        dsimp only
        rw [← kin.1, if_neg (by simpa only [← same, ne_eq] using fits)]
        exact ih (fun other listed => narrow other (List.mem_cons_of_mem _ listed)) checked

variable {m n : Nat} {flow : Flow}

private theorem pop_succeeds (depth : s.depth = t.depth) {k : Int64} {rest : Stack}
    (popped : s.pop k = .ok rest) : ∃ other, t.pop k = .ok other := by
  obtain ⟨enough, _⟩ := pop_spec popped
  exact ⟨_, by rw [Stack.pop, if_neg (by rw [← depth]; omega)]⟩

private theorem top_succeeds (depth : s.depth = t.depth) {k : Int64} {slots : List Slot}
    (taken : s.top k = .ok slots) : ∃ others, t.top k = .ok others := by
  obtain ⟨enough, _⟩ := top_spec taken
  exact ⟨_, by rw [Stack.top, if_neg (by rw [← depth]; omega)]⟩

private theorem replace_succeeds (depth : s.depth = t.depth) {k : Int64} {slots : List Slot}
    (others : List Slot) (done : Flow.replace m s k slots = .ok flow) :
    ∃ other, Flow.replace n t k others = .ok other := by
  unfold Flow.replace at done ⊢
  split at done
  · cases done
  · next popped =>
    obtain ⟨rest, found⟩ := pop_succeeds depth popped
    rw [found]
    exact ⟨_, rfl⟩

private theorem leave_succeeds (depth : s.depth = t.depth) {k : Int64}
    (done : Flow.leave s k = .ok flow) : ∃ other, Flow.leave t k = .ok other := by
  unfold Flow.leave at done ⊢
  split at done
  · cases done
  · next popped =>
    obtain ⟨rest, found⟩ := pop_succeeds depth popped
    rw [found]
    exact ⟨_, rfl⟩

private theorem branch_succeeds (depth : s.depth = t.depth) {target : Int64}
    (done : Flow.branch s target = .ok flow) : ∃ other, Flow.branch t target = .ok other := by
  unfold Flow.branch at done ⊢
  split at done
  · cases done
  · next popped =>
    obtain ⟨rest, found⟩ := pop_succeeds depth popped
    rw [found]
    exact ⟨_, rfl⟩

private theorem binary_succeeds (depth : s.depth = t.depth) {operator : Option Arithmetic}
    (done : Flow.binary m s operator = .ok flow) : ∃ other, Flow.binary n t operator = .ok other := by
  obtain ⟨b, a, rest, above, _⟩ := binary_spec done
  have two : 2 ≤ t.cells.length := by
    have deep : s.cells.length = t.cells.length := depth
    rw [above, List.length_cons, List.length_cons] at deep
    omega
  unfold Flow.binary
  match t.cells, two with
  | _ :: _ :: _, _ => exact ⟨_, rfl⟩

/-- What is accepted of a stack is accepted of those it is akin to. -/
theorem Akin.flows (akin : Akin s t) {plan : Plan} {o : Bound} (flows : o.flow plan m s = .ok flow)
    (n : Nat) : ∃ other, o.flow plan n t = .ok other := by
  have depth := akin.depth
  cases opcode : o.opcode <;> simp only [Bound.flow, opcode] at flows ⊢
  case nop | resume | cache | popBlock | loadGlobal | pushNull | loadConst | loadFast | jumpForward
      | jumpAbsolute | jumpBackward | deleteFast => exact ⟨_, rfl⟩
  case popTop | storeGlobal | storeAttr | unaryNot | compareOp | isOp | containsOp | buildTuple
      | buildList | callFunction | call | getIter | checkExcMatch | loadAttr =>
    exact replace_succeeds depth _ flows
  case binaryAdd | binarySubtract | binaryMultiply | binaryOp => exact binary_succeeds depth flows
  case returnValue | reraise | raiseVarargs => exact leave_succeeds depth flows
  case popJumpIfFalse | popJumpIfTrue => exact branch_succeeds depth flows
  case rotTwo | swap =>
    split at flows
    · cases flows
    · next taken =>
      obtain ⟨others, found⟩ := top_succeeds depth taken
      rw [found]
      exact replace_succeeds depth _ flows
  case dupTop | copy =>
    split at flows
    · cases flows
    · next peeked =>
      obtain ⟨other, found, _⟩ := akin.peek peeked
      rw [found]
      exact ⟨_, rfl⟩
  case unaryNegative | pushExcInfo =>
    split at flows
    · cases flows
    · next peeked =>
      obtain ⟨other, found, _⟩ := akin.peek peeked
      rw [found]
      exact replace_succeeds depth _ flows
  case storeFast =>
    split at flows
    · cases flows
    · next top rest above =>
      have one : 1 ≤ t.cells.length := by
        have deep : s.cells.length = t.cells.length := depth
        rw [above, List.length_cons] at deep
        omega
      obtain ⟨_, _, cells⟩ := List.exists_cons_of_length_pos one
      rw [cells]
      exact ⟨_, rfl⟩
  case forIter =>
    split at flows
    · cases flows
    · next popped =>
      obtain ⟨other, found⟩ := pop_succeeds depth popped
      rw [found]
      exact ⟨_, rfl⟩
  case setupFinally =>
    split at flows
    · cases flows
    · exact ⟨_, rfl⟩
  case popExcept =>
    split at flows
    · cases flows
    · next checked =>
      rw [akin.checkLeave checked]
      exact replace_succeeds depth _ flows
  case jumpIfNotExcMatch =>
    split at flows
    · cases flows
    · next checked =>
      have parts : Flow.checkTriple t = .ok () := akin.checkParts (by simp [Kind.widens]) checked
      rw [parts]
      exact branch_succeeds depth flows

end

theorem Below.widens {a b : Stack} (below : Below a b) : ShapeWidens a b := by
  obtain ⟨merged, unified, same⟩ := below 0
  exact (unify_widens unified).1.trans (same_widens (same_symm same))

/-- The named kinds of locals that can be loaded onto a stack and merged there. -/
def Loadable (kind : Kind) : Prop :=
  kind.isExceptionState = false ∧ kind ≠ .null ∧ ∀ code, kind ≠ .other code

theorem Loadable.value {kind : Kind} (loadable : Loadable kind) :
    kind = .unbound ∨ kind.widens = true := by
  obtain ⟨plain, bound, named⟩ := loadable
  cases kind with
  | null => exact absurd rfl bound
  | other code => exact absurd rfl (named code)
  | unbound => exact .inl rfl
  | excType | excValue | excTraceback | exception | prevException | lasti => cases plain
  | _ => exact .inr rfl

private theorem ShapeWidens.fine {s t : Stack} (widens : ShapeWidens s t)
    (loadable : ∀ slot ∈ s.locals, Loadable slot.kind) : ShapeLoosens (·.widens = true) s t := by
  refine widens.loosens Proofs.fine fun i => ?_
  rw [localSlot, List.getD_eq_getElem?_getD]
  cases found : s.locals[i]? with
  | none => exact .inl rfl
  | some slot => exact (loadable slot (List.mem_of_getElem? found)).value.imp_right .inl

/-- Flows are monotone and stable under widening. Of two shapes of which the first one is below the second
one, an instruction accepts both or neither; it then falls through and branches alike, and whatever it makes
of the first one is below what it makes of the second one. Constants are compared as well, so that none may
be NaN, and a local that is loaded has to be of a named kind. -/
theorem flow_monotone {plan : Plan} {o : Bound} {a b : Stack} (numbers : Numbers plan.function)
    (below : Below a b) (comparable : AllComparable b) (loadable : ∀ slot ∈ a.locals, Loadable slot.kind)
    (m n : Nat) :
    ((∃ f, o.flow plan m a = .ok f) ↔ ∃ g, o.flow plan n b = .ok g) ∧
    ∀ f g, o.flow plan m a = .ok f → o.flow plan n b = .ok g →
      f.falls = g.falls ∧ Below f.next g.next ∧
      List.Forall₂ (fun d e => d.target = e.target ∧ d.handler = e.handler ∧ Below d.shape e.shape)
        f.branches g.branches := by
  have widens := below.widens
  have akin := widens.akin
  refine ⟨⟨fun ⟨_, flows⟩ => akin.flows flows n, fun ⟨_, flows⟩ => akin.symm.flows flows m⟩,
    fun f g flows others => ?_⟩
  obtain ⟨own, same, loosens⟩ := (widens.fine loadable).flows fine
    (fun _ _ checked => akin.symm.checkLeave checked) others m
  cases flows.symm.trans same
  obtain ⟨firm, branching⟩ := flow_firm numbers comparable.firm others
  refine ⟨loosens.falls, loosens.next.widens.below firm, ?_⟩
  have listed := (List.forall₂_and_left g.branches f.branches).mpr ⟨fun _ => id, loosens.branches.flip⟩
  exact listed.flip.imp fun d e ⟨member, target, handler, shape⟩ =>
    ⟨target, handler, shape.widens.below (branching e member)⟩

/-- A function of one instruction, with a local and a constant. -/
def holding (constant : Value) (inst : Instruction) : Function where
  name := "f"
  version := ⟨3, 9⟩
  localNames := #["a"]
  constants := #[constant]
  instructions := #[inst]

def loading : Instruction := { offset := 0, code := Opcode.loadFast.code }

/-- A shape that knows a number and the text in its local. -/
def knowing : Stack := ⟨[⟨1, .int, some (.int 1), 0⟩], [⟨.str, some (.str "a"), 0⟩]⟩

/-- A shape above it, whose local may be without a binding. -/
def unknowing : Stack := ⟨[⟨2, .ofKind .int⟩], [.ofKind .unbound]⟩

theorem loading_monotone : ∃ plan o f g, Numbers plan.function ∧ Below knowing unknowing ∧
    AllComparable unknowing ∧ (∀ slot ∈ knowing.locals, Loadable slot.kind) ∧
    Plan.ofFunction (holding (.int 1) loading) = .ok plan ∧
    Bound.ofInstruction (holding (.int 1) loading) loading = .ok o ∧
    o.flow plan 3 knowing = .ok f ∧ o.flow plan 4 unknowing = .ok g ∧ Below f.next g.next := by
  obtain ⟨plan, o, f, g, drafted, made, constants, flows, others⟩ : ∃ plan o f g,
      Plan.ofFunction (holding (.int 1) loading) = .ok plan ∧
      Bound.ofInstruction (holding (.int 1) loading) loading = .ok o ∧
      plan.function.constants = #[.int 1] ∧
      o.flow plan 3 knowing = .ok f ∧ o.flow plan 4 unknowing = .ok g :=
    ⟨_, _, _, _, by cbv, by cbv, rfl, rfl, rfl⟩
  have numbers : Numbers plan.function := by
    intro x listed
    simp [constants] at listed
  have comparable : AllComparable unknowing := by
    constructor <;> simp [unknowing, Slot.ofKind, Comparable]
  have below : Below knowing unknowing := by
    refine ShapeWidens.below ⟨.cons (.fades rfl rfl (.inl rfl)) .nil, by decide, fun i => ?_⟩ comparable.firm
    cases i with
    | zero => exact .unbound
    | succ => exact .refl _
  have loadable : ∀ slot ∈ knowing.locals, Loadable slot.kind := by
    simp [knowing, Loadable, Kind.isExceptionState]
  obtain ⟨_, monotone⟩ := flow_monotone numbers below comparable loadable (o := o) 3 4
  exact ⟨plan, o, f, g, numbers, below, comparable, loadable, drafted, made, flows, others,
    (monotone f g flows others).2.1⟩

/-- No known value is NaN. -/
def NaNFree (s : Stack) : Prop :=
  ∀ slot ∈ s.slots ++ s.locals, ∀ x, slot.known = some (.float x) → x.isNaN = false

/-- No local holds exception state or a null. -/
def ValueLocals (s : Stack) : Prop :=
  ∀ slot ∈ s.locals, slot.kind.isExceptionState = false ∧ slot.kind ≠ .null

/-- An instruction that makes shapes which are not below each other of two which are. -/
def Disorders (fn : Function) (inst : Instruction) (a b : Stack) : Prop :=
  ∃ plan o f g, Plan.ofFunction fn = .ok plan ∧ Bound.ofInstruction fn inst = .ok o ∧
    Below a b ∧ NaNFree a ∧ NaNFree b ∧ ValueLocals a ∧ ValueLocals b ∧
    o.flow plan 3 a = .ok f ∧ o.flow plan 4 b = .ok g ∧ ¬ Below f.next g.next

def notANumber : Float := .ofBits 0x7ff8000000000000

def constantLoad : Instruction := { offset := 0, code := Opcode.loadConst.code }

def copying : Instruction := { offset := 0, code := Opcode.dupTop.code }

private theorem constant_disorders :
    Disorders (holding (.float notANumber) constantLoad) constantLoad ⟨[], []⟩ ⟨[], []⟩ := by
  obtain ⟨plan, o, drafted, made, flows⟩ : ∃ plan o,
      Plan.ofFunction (holding (.float notANumber) constantLoad) = .ok plan ∧
      Bound.ofInstruction (holding (.float notANumber) constantLoad) constantLoad = .ok o ∧
      ∀ stamp, o.flow plan stamp ⟨[], []⟩ =
        .ok (.through ⟨[⟨stamp, .float, some (.float notANumber), 0⟩], []⟩) :=
    ⟨_, _, by cbv, by cbv, fun _ => rfl⟩
  have free : NaNFree ⟨[], []⟩ := by simp [NaNFree, Stack.slots]
  have values : ValueLocals ⟨[], []⟩ := by simp [ValueLocals]
  refine ⟨plan, o, _, _, drafted, made, (ShapeWidens.refl _).below ⟨by simp, by simp⟩, free, free, values,
    values, flows 3, flows 4, fun below => ?_⟩
  obtain ⟨merged, unified, same⟩ := below 5
  cbv at unified
  cases unified
  cbv at same
  cases same

private theorem local_disorders :
    Disorders (holding .none loading) loading ⟨[], [.ofKind (.other 17)]⟩ ⟨[], [.ofKind .object]⟩ := by
  have widens : ShapeWidens ⟨[], [.ofKind (.other 17)]⟩ ⟨[], [.ofKind .object]⟩ := by
    refine ⟨.nil, Nat.le_refl _, fun i => ?_⟩
    cases i with
    | zero => exact .object nofun
    | succ => exact .refl _
  obtain ⟨plan, o, drafted, made, opcode, first⟩ : ∃ plan o, Plan.ofFunction (holding .none loading) = .ok plan ∧
      Bound.ofInstruction (holding .none loading) loading = .ok o ∧ o.opcode = .loadFast ∧ o.arg = 0 :=
    ⟨_, _, by cbv, by cbv, rfl, rfl⟩
  have flows : ∀ stamp slot, o.flow plan stamp ⟨[], [slot]⟩ = .ok (.through ⟨[⟨stamp,
      if slot.kind == .unbound then .ofKind .object else slot.untagged⟩], [slot]⟩) := by
    intro stamp slot
    simp only [Bound.flow, opcode, first]
    rfl
  refine ⟨plan, o, _, _, drafted, made, widens.below ⟨by simp, ?_⟩, ?_, ?_, ?_, ?_, flows 3 _, flows 4 _,
    fun below => ?_⟩
  · simp [Steady, Slot.ofKind, agree]
  · simp [NaNFree, Stack.slots, Slot.ofKind]
  · simp [NaNFree, Stack.slots, Slot.ofKind]
  · simp [ValueLocals, Slot.ofKind, Kind.isExceptionState]
  · simp [ValueLocals, Slot.ofKind, Kind.isExceptionState]
  · obtain ⟨merged, unified, same⟩ := below 5
    cbv at unified
    cases unified

private theorem text_disorders : Disorders (holding .none copying) copying
    ⟨[⟨1, .object, some (.other "[1]"), 0⟩], []⟩ ⟨[⟨1, .object, some (.other "[1]"), 0⟩], []⟩ := by
  have shared : ∀ cells : List Cell, Below ⟨cells, []⟩ ⟨cells, []⟩ := fun cells stamp => by
    refine ⟨⟨cells, []⟩, ?_, ?_⟩
    · cases cells <;> simp [Stack.unify, Stack.mergeCells, Stack.mergeLocals]
    · cases cells <;> simp [Stack.same, Stack.sameCells, Stack.sameLocals]
  obtain ⟨plan, o, drafted, made, opcode⟩ : ∃ plan o, Plan.ofFunction (holding .none copying) = .ok plan ∧
      Bound.ofInstruction (holding .none copying) copying = .ok o ∧ o.opcode = .dupTop :=
    ⟨_, _, by cbv, by cbv, rfl⟩
  have flows : ∀ stamp cell, o.flow plan stamp ⟨[cell], []⟩ =
      .ok (.through ⟨[⟨stamp, cell.slot.untagged⟩, cell], []⟩) := by
    intro stamp cell
    simp only [Bound.flow, opcode]
    rfl
  refine ⟨plan, o, _, _, drafted, made, shared _, ?_, ?_, ?_, ?_, flows 3 _, flows 4 _,
    fun below => ?_⟩
  · simp [NaNFree, Stack.slots]
  · simp [NaNFree, Stack.slots]
  · simp [ValueLocals]
  · simp [ValueLocals]
  · obtain ⟨merged, unified, same⟩ := below 5
    cbv at unified
    cases unified
    cbv at same
    cases same

/-- What flows are not monotone for: a constant that is NaN, a local of a kind without a name, and a known
value of which only the text is kept. -/
theorem flow_disorders :
    Disorders (holding (.float notANumber) constantLoad) constantLoad ⟨[], []⟩ ⟨[], []⟩ ∧
    Disorders (holding .none loading) loading ⟨[], [.ofKind (.other 17)]⟩ ⟨[], [.ofKind .object]⟩ ∧
    Disorders (holding .none copying) copying
      ⟨[⟨1, .object, some (.other "[1]"), 0⟩], []⟩ ⟨[⟨1, .object, some (.other "[1]"), 0⟩], []⟩ :=
  ⟨constant_disorders, local_disorders, text_disorders⟩

end Lowering.Proofs
