import Mathlib.Data.List.Forall2
import Lowering.Guest.Flow

/-! What the flow of an instruction is made of. Every instruction drops some slots and pushes others,
whatever the stamp of the pushed ones is; from this follow where its edges lead and that exception
state is moved around but never made up. -/

namespace Lowering.Proofs
open Guest Shape

theorem pop_spec {s rest : Stack} {n : Int64} (popped : s.pop n = .ok rest) :
    n.toInt ≤ s.depth ∧ rest = { s with cells := s.cells.drop n.toInt.toNat } := by
  unfold Stack.pop at popped
  split at popped
  · cases popped
  · next enough =>
    cases popped
    exact ⟨Int.not_lt.mp enough, rfl⟩

theorem peek_spec {s : Stack} {i : Int64} {slot : Slot} (peeked : s.peek i = .ok slot) :
    0 ≤ i.toInt ∧ ∃ cell, s.cells[i.toInt.toNat]? = some cell ∧ cell.slot = slot := by
  unfold Stack.peek at peeked
  split at peeked
  · cases peeked
  · next positive =>
    split at peeked
    · next cell found =>
      cases peeked
      exact ⟨Int.not_lt.mp positive, cell, found, rfl⟩
    · cases peeked

theorem top_spec {s : Stack} {n : Int64} {slots : List Slot} (taken : s.top n = .ok slots) :
    n.toInt ≤ s.depth ∧ slots = ((s.cells.take n.toInt.toNat).map Cell.slot).reverse := by
  unfold Stack.top at taken
  split at taken
  · cases taken
  · next enough =>
    cases taken
    exact ⟨Int.not_lt.mp enough, rfl⟩

theorem pushAll_eq (stamp : Nat) (slots : List Slot) (s : Stack) :
    s.pushAll stamp slots =
      { s with cells := (slots.map (Cell.mk stamp)).reverse ++ s.cells } := by
  unfold Stack.pushAll
  induction slots generalizing s with
  | nil => rfl
  | cons slot slots ih =>
    rw [List.foldl_cons, ih]
    simp [Stack.push]

/-- A stack from which slots were dropped before others were pushed. -/
def piled (stamp : Nat) (s : Stack) (dropped : Nat) (pushed : List Slot) : List Cell :=
  (pushed.map (Cell.mk stamp)).reverse ++ s.cells.drop dropped

/-- A branch of an instruction. -/
structure Leap where
  target : Int64
  dropped : Nat
  pushed : List Slot
  handler : Bool

/-- What an instruction does to a shape, but for the stamp of the slots that it pushes. -/
structure Form where
  dropped : Nat
  pushed : List Slot
  locals : List Slot
  falls : Bool
  leaps : List Leap

def Leap.edge (stamp : Nat) (s : Stack) (l : Leap) : Edge where
  target := l.target
  shape := { s with cells := piled stamp s l.dropped l.pushed }
  handler := l.handler

def Form.flow (stamp : Nat) (s : Stack) (f : Form) : Flow where
  next := ⟨piled stamp s f.dropped f.pushed, f.locals⟩
  falls := f.falls
  branches := f.leaps.map (Leap.edge stamp s)

/-- Where a slot that an instruction pushes or stores comes from. -/
inductive Drawn (plan : Plan) (s : Stack) : Slot → Prop
  | kind (kind : Kind) : Drawn plan s (.ofKind kind)
  | constant (i : Nat) : Drawn plan s (.ofConstant (plan.function.constants.getD i .none))
  | moved {cell : Cell} (member : cell ∈ s.cells) : Drawn plan s cell.slot
  | copied {cell : Cell} (member : cell ∈ s.cells) : Drawn plan s cell.slot.untagged
  | loaded (i : Int64) : Drawn plan s (s.local? i).untagged
  | saved {cell : Cell} (member : cell ∈ s.cells) :
      Drawn plan s (.owned .prevException cell.slot.region)

structure FormOf (plan : Plan) (o : Bound) (s : Stack) (f : Form) : Prop where
  falls : f.falls = !o.opcode.terminates
  pushed : ∀ slot ∈ f.pushed, Drawn plan s slot
  locals : f.locals = s.locals ∨ (o.opcode = .storeFast ∨ o.opcode = .deleteFast) ∧
    ∃ slot, Drawn plan s slot ∧ slot.region = 0 ∧
      f.locals = (s.setLocal o.arg.toInt.toNat slot).locals
  leaps : ∀ l ∈ f.leaps, l.target = o.arg ∧ o.opcode.jumps = true ∧
    (l.handler = false → l.pushed = []) ∧
    (l.handler = true → o.opcode = .setupFinally ∧ l.dropped = 0 ∧
      ∃ r, plan.setupRegion? o.inst.offset = some r ∧ l.pushed = r.state)
  jumps : o.opcode.jumps = true → ∃ l, l ∈ f.leaps

variable {plan : Plan} {stamp : Nat} {s : Stack} {flow : Flow} {o : Bound}

theorem replace_spec {n : Int64} {slots : List Slot}
    (done : Flow.replace stamp s n slots = .ok flow) : n.toInt ≤ s.depth ∧
      flow = .through { s with
        cells := (slots.map (Cell.mk stamp)).reverse ++ s.cells.drop n.toInt.toNat } := by
  unfold Flow.replace at done
  split at done
  · cases done
  · next popped =>
    cases done
    obtain ⟨enough, rfl⟩ := pop_spec popped
    exact ⟨enough, by rw [pushAll_eq]⟩

theorem leave_spec {n : Int64} (done : Flow.leave s n = .ok flow) : n.toInt ≤ s.depth ∧
    flow = ⟨{ s with cells := s.cells.drop n.toInt.toNat }, false, []⟩ := by
  unfold Flow.leave at done
  split at done
  · cases done
  · next popped =>
    cases done
    obtain ⟨enough, rfl⟩ := pop_spec popped
    exact ⟨enough, rfl⟩

theorem branch_spec {target : Int64} (done : Flow.branch s target = .ok flow) :
    ∃ cell cells, s.cells = cell :: cells ∧
      flow = ⟨{ s with cells }, true, [⟨target, { s with cells }, false⟩]⟩ := by
  unfold Flow.branch at done
  split at done
  · cases done
  · next popped =>
    cases done
    obtain ⟨enough, rfl⟩ := pop_spec popped
    cases below : s.cells with
    | nil =>
      simp [Stack.depth, below] at enough
    | cons cell cells => exact ⟨cell, cells, rfl, rfl⟩

theorem binary_spec {operator : Option Arithmetic} (done : Flow.binary stamp s operator = .ok flow) :
    ∃ b a cells, s.cells = b :: a :: cells ∧ flow = .through { s with
      cells := ⟨stamp, .ofKind (Flow.resultKind operator a.slot.kind b.slot.kind)⟩ :: cells } := by
  unfold Flow.binary at done
  split at done
  · next b a cells below =>
    cases done
    exact ⟨b, a, cells, below, rfl⟩
  · cases done

private theorem FormOf.straight {f : Form} {opcode : Opcode} (same : o.opcode = opcode)
    (jumps : opcode.jumps = false) (leaps : f.leaps = []) (falls : f.falls = !opcode.terminates)
    (pushed : ∀ slot ∈ f.pushed, Drawn plan s slot) (locals : f.locals = s.locals) :
    FormOf plan o s f where
  falls := same ▸ falls
  pushed := pushed
  locals := .inl locals
  leaps l listed := by
    rw [leaps] at listed
    cases listed
  jumps jumping := by
    rw [same, jumps] at jumping
    cases jumping

private theorem FormOf.branching {f : Form} {opcode : Opcode} (same : o.opcode = opcode)
    (jumps : opcode.jumps = true) {dropped : Nat} (leaps : f.leaps = [⟨o.arg, dropped, [], false⟩])
    (falls : f.falls = !opcode.terminates) (pushed : ∀ slot ∈ f.pushed, Drawn plan s slot)
    (locals : f.locals = s.locals) : FormOf plan o s f where
  falls := same ▸ falls
  pushed := pushed
  locals := .inl locals
  leaps l listed := by
    rw [leaps] at listed
    rw [List.mem_singleton.mp listed, same]
    exact ⟨rfl, jumps, fun _ => rfl, nofun⟩
  jumps _ := ⟨_, leaps ▸ List.mem_cons_self⟩

private theorem FormOf.storing {f : Form} {opcode : Opcode} (same : o.opcode = opcode)
    (stores : opcode = .storeFast ∨ opcode = .deleteFast) (leaps : f.leaps = [])
    (falls : f.falls = true) (pushed : f.pushed = []) {slot : Slot} (drawn : Drawn plan s slot)
    (free : slot.region = 0) (locals : f.locals = (s.setLocal o.arg.toInt.toNat slot).locals) :
    FormOf plan o s f where
  falls := by rcases stores with rfl | rfl <;> rw [same, falls] <;> rfl
  pushed slot listed := by
    rw [pushed] at listed
    cases listed
  locals := .inr ⟨same ▸ stores, slot, drawn, free, locals⟩
  leaps l listed := by
    rw [leaps] at listed
    cases listed
  jumps jumping := by rcases stores with rfl | rfl <;> rw [same] at jumping <;> cases jumping

private theorem replace_form {n : Int64} {slots : List Slot}
    (done : Flow.replace stamp s n slots = .ok flow) (other : Nat) :
    Flow.replace other s n slots =
      .ok (Form.flow other s ⟨n.toInt.toNat, slots, s.locals, true, []⟩) := by
  have enough := (replace_spec done).1
  simp only [Flow.replace, Stack.pop, if_neg (Int.not_lt.mpr enough)]
  rw [pushAll_eq]
  rfl

private theorem leave_form {n : Int64} (done : Flow.leave s n = .ok flow) (other : Nat) :
    Flow.leave s n = .ok (Form.flow other s ⟨n.toInt.toNat, [], s.locals, false, []⟩) := by
  rw [done, (leave_spec done).2]
  rfl

private theorem branch_form {target : Int64} (done : Flow.branch s target = .ok flow) (other : Nat) :
    Flow.branch s target =
      .ok (Form.flow other s ⟨1, [], s.locals, true, [⟨target, 1, [], false⟩]⟩) := by
  obtain ⟨cell, cells, below, rfl⟩ := branch_spec done
  rw [done]
  simp [Form.flow, Leap.edge, piled, below]

private theorem binary_form {operator : Option Arithmetic}
    (done : Flow.binary stamp s operator = .ok flow) : ∃ kind, ∀ other,
      Flow.binary other s operator =
        .ok (Form.flow other s ⟨2, [.ofKind kind], s.locals, true, []⟩) := by
  obtain ⟨b, a, cells, below, _⟩ := binary_spec done
  refine ⟨Flow.resultKind operator a.slot.kind b.slot.kind, fun other => ?_⟩
  simp only [Flow.binary, below, Form.flow, piled, Flow.through, Stack.push]
  rfl

private theorem push_form (slots : List Slot) (other : Nat) :
    Flow.through (s.pushAll other slots) =
      Form.flow other s ⟨0, slots, s.locals, true, []⟩ := by
  rw [pushAll_eq]
  rfl

private theorem drawn_kinds (kinds : List Kind) :
    ∀ slot ∈ kinds.map Slot.ofKind, Drawn plan s slot := by
  intro slot listed
  obtain ⟨kind, _, rfl⟩ := List.mem_map.mp listed
  exact .kind kind

private theorem drawn_top {n : Int64} {slots : List Slot} (taken : s.top n = .ok slots) :
    ∀ slot ∈ slots, Drawn plan s slot := by
  intro slot listed
  rw [(top_spec taken).2] at listed
  obtain ⟨cell, member, rfl⟩ := List.mem_map.mp (List.mem_reverse.mp listed)
  exact .moved (List.mem_of_mem_take member)

theorem exchange_length (slots : List Slot) : (Flow.exchange slots).length = slots.length := by
  unfold Flow.exchange
  split
  · rfl
  · next first rest =>
    cases last : rest.getLast? with
    | none => rw [List.getLast?_eq_none_iff.mp last]
    | some slot =>
      have some : rest ≠ [] := by
        rintro rfl
        cases last
      have positive := List.length_pos_iff.mpr some
      simp only [List.length_cons, List.length_append, List.length_dropLast, List.length_nil]
      omega

private theorem mem_of_mem_exchange {slots : List Slot} {slot : Slot}
    (listed : slot ∈ Flow.exchange slots) : slot ∈ slots := by
  unfold Flow.exchange at listed
  split at listed
  · exact listed
  · split at listed
    · simp_all
    · next last =>
      simp only [List.mem_cons, List.mem_append, List.not_mem_nil, or_false] at listed
      rcases listed with rfl | kept | rfl
      · exact List.mem_cons_of_mem _ (List.mem_of_getLast? last)
      · exact List.mem_cons_of_mem _ (List.dropLast_subset _ kept)
      · exact List.mem_cons_self

/-- Every flow has a form. -/
theorem flow_form (flows : o.flow plan stamp s = .ok flow) :
    ∃ f, FormOf plan o s f ∧ ∀ other, o.flow plan other s = .ok (f.flow other s) := by
  have nothing : ∀ slot ∈ ([] : List Slot), Drawn plan s slot := fun _ listed => by cases listed
  have one : ∀ {slot : Slot}, Drawn plan s slot → ∀ other ∈ [slot], Drawn plan s other :=
    fun drawn other listed => List.mem_singleton.mp listed ▸ drawn
  have objects : ∀ slot ∈ (if o.wantsNull then [Slot.ofKind .null, .ofKind .object]
      else [.ofKind .object]), Drawn plan s slot := by
    split
    · exact drawn_kinds [.null, .object]
    · exact drawn_kinds [.object]
  cases opcode : o.opcode <;> simp only [Bound.flow, opcode] at flows ⊢
  case nop | resume | cache | popBlock =>
    exact ⟨⟨0, [], s.locals, true, []⟩, .straight opcode rfl rfl rfl nothing rfl, fun _ => rfl⟩
  case popTop | storeGlobal | storeAttr =>
    exact ⟨_, .straight opcode rfl rfl rfl nothing rfl, replace_form flows⟩
  case unaryNot | compareOp | isOp | containsOp | buildTuple | buildList | callFunction | call
      | getIter | checkExcMatch =>
    exact ⟨_, .straight opcode rfl rfl rfl (one (.kind _)) rfl, replace_form flows⟩
  case loadAttr => exact ⟨_, .straight opcode rfl rfl rfl objects rfl, replace_form flows⟩
  case loadGlobal =>
    exact ⟨_, .straight opcode rfl rfl rfl objects rfl, fun other => congrArg _ (push_form _ other)⟩
  case pushNull =>
    exact ⟨_, .straight opcode rfl rfl rfl (one (.kind _)) rfl,
      fun other => congrArg _ (push_form [_] other)⟩
  case loadConst =>
    exact ⟨_, .straight opcode rfl rfl rfl (one (.constant _)) rfl,
      fun other => congrArg _ (push_form [_] other)⟩
  case loadFast =>
    refine ⟨_, .straight opcode rfl rfl rfl (one ?_) rfl,
      fun other => congrArg _ (push_form [_] other)⟩
    split
    · exact .kind _
    · exact .loaded _
  case binaryAdd | binarySubtract | binaryMultiply | binaryOp =>
    obtain ⟨kind, form⟩ := binary_form flows
    exact ⟨_, .straight opcode rfl rfl rfl (one (.kind kind)) rfl, form⟩
  case returnValue | reraise | raiseVarargs =>
    exact ⟨_, .straight opcode rfl rfl rfl nothing rfl, leave_form flows⟩
  case popJumpIfFalse | popJumpIfTrue =>
    exact ⟨_, .branching opcode rfl rfl rfl nothing rfl, branch_form flows⟩
  case jumpForward | jumpAbsolute | jumpBackward =>
    exact ⟨⟨0, [], s.locals, false, [⟨o.arg, 0, [], false⟩]⟩,
      .branching opcode rfl rfl rfl nothing rfl, fun _ => rfl⟩
  case deleteFast =>
    exact ⟨⟨0, [], (s.setLocal o.arg.toInt.toNat (.ofKind .unbound)).locals, true, []⟩,
      .storing opcode (.inr rfl) rfl rfl rfl (.kind _) rfl rfl, fun _ => rfl⟩
  -- The others first look at the stack, and may refuse it.
  case rotTwo =>
    split at flows
    · cases flows
    · next found =>
      refine ⟨_, .straight opcode rfl rfl rfl (fun slot listed => ?_) rfl, replace_form flows⟩
      exact drawn_top found slot (List.mem_reverse.mp listed)
  case swap =>
    split at flows
    · cases flows
    · next found =>
      refine ⟨_, .straight opcode rfl rfl rfl (fun slot listed => ?_) rfl, replace_form flows⟩
      exact drawn_top found slot (mem_of_mem_exchange listed)
  case dupTop | copy =>
    split at flows
    · cases flows
    · next peeked =>
      obtain ⟨_, cell, found, rfl⟩ := peek_spec peeked
      exact ⟨_, .straight opcode rfl rfl rfl (one (.copied (List.mem_of_getElem? found))) rfl,
        fun other => congrArg _ (push_form [_] other)⟩
  case storeFast =>
    split at flows
    · cases flows
    · next top rest below =>
      have drawn : Drawn plan s top.slot.untagged := .copied (by rw [below]; exact List.mem_cons_self)
      refine ⟨⟨1, [], (s.setLocal o.arg.toInt.toNat top.slot.untagged).locals, true, []⟩,
        .storing opcode (.inl rfl) rfl rfl rfl drawn rfl rfl, fun _ => ?_⟩
      simp [Form.flow, piled, below, Flow.through, Stack.setLocal, Stack.withLocals]
  case unaryNegative =>
    split at flows
    · cases flows
    · exact ⟨_, .straight opcode rfl rfl rfl (one (.kind _)) rfl, replace_form flows⟩
  case forIter =>
    split at flows
    · cases flows
    · next popped =>
      obtain ⟨_, rfl⟩ := pop_spec popped
      exact ⟨⟨0, [.ofKind .object], s.locals, true, [⟨o.arg, 1, [], false⟩]⟩,
        .branching opcode rfl rfl rfl (one (.kind _)) rfl, fun _ => rfl⟩
  case setupFinally =>
    split at flows
    · cases flows
    · next r found =>
      refine ⟨⟨0, [], s.locals, true, [⟨o.arg, 0, r.state, true⟩]⟩,
        ⟨by rw [opcode]; rfl, nothing, .inl rfl, fun l listed => ?_, fun _ => ⟨_, List.mem_cons_self⟩⟩,
        fun other => ?_⟩
      · rw [List.mem_singleton.mp listed, opcode]
        exact ⟨rfl, rfl, nofun, fun _ => ⟨rfl, rfl, r, found, rfl⟩⟩
      · simp only [Form.flow, piled, pushAll_eq]
        rfl
  case popExcept =>
    split at flows
    · cases flows
    · exact ⟨_, .straight opcode rfl rfl rfl nothing rfl, replace_form flows⟩
  case jumpIfNotExcMatch =>
    split at flows
    · cases flows
    · exact ⟨_, .branching opcode rfl rfl rfl nothing rfl, branch_form flows⟩
  case pushExcInfo =>
    split at flows
    · cases flows
    · next peeked =>
      obtain ⟨_, cell, found, rfl⟩ := peek_spec peeked
      have member := List.mem_of_getElem? found
      refine ⟨_, .straight opcode rfl rfl rfl (fun slot listed => ?_) rfl, replace_form flows⟩
      simp only [List.mem_cons, List.not_mem_nil, or_false] at listed
      rcases listed with rfl | rfl
      · exact .saved member
      · exact .moved member

private theorem flow_eq {f : Form} (flows : o.flow plan stamp s = .ok flow)
    (form : ∀ other, o.flow plan other s = .ok (f.flow other s)) : flow = f.flow stamp s := by
  have same := form stamp
  rw [flows] at same
  exact Except.ok.inj same

/-- Which edges an instruction has, whatever its shape is. -/
theorem flow_edges (flows : o.flow plan stamp s = .ok flow) :
    flow.falls = !o.opcode.terminates ∧ ∀ e ∈ flow.branches,
      e.target = o.arg ∧ o.opcode.jumps = true ∧ (e.handler = true → o.opcode = .setupFinally) := by
  obtain ⟨f, formed, form⟩ := flow_form flows
  cases flow_eq flows form
  refine ⟨formed.falls, fun e listed => ?_⟩
  obtain ⟨l, member, rfl⟩ := List.mem_map.mp listed
  obtain ⟨target, jumps, _, handler⟩ := formed.leaps l member
  exact ⟨target, jumps, fun handles => (handler handles).1⟩

theorem flow_jumps (flows : o.flow plan stamp s = .ok flow) (jumps : o.opcode.jumps = true) :
    ∃ e ∈ flow.branches, e.target = o.arg := by
  obtain ⟨f, formed, form⟩ := flow_form flows
  cases flow_eq flows form
  obtain ⟨l, member⟩ := formed.jumps jumps
  exact ⟨_, List.mem_map_of_mem member, (formed.leaps l member).1⟩

/-- The edge to a handler that is set up carries the exception state of its region. -/
theorem flow_handler (flows : o.flow plan stamp s = .ok flow) {e : Edge}
    (listed : e ∈ flow.branches) (handler : e.handler = true) :
    ∃ r, plan.setupRegion? o.inst.offset = some r ∧ e.shape = s.pushAll stamp r.state := by
  obtain ⟨f, formed, form⟩ := flow_form flows
  cases flow_eq flows form
  obtain ⟨l, member, rfl⟩ := List.mem_map.mp listed
  obtain ⟨_, dropped, r, found, pushed⟩ := (formed.leaps l member).2.2.2 handler
  refine ⟨r, found, ?_⟩
  rw [pushAll_eq]
  simp [Leap.edge, piled, dropped, pushed]

/-- A slot is owned by nobody, or by a region that owns a slot of the stack. -/
def Inherited (s : Stack) (slot : Slot) : Prop :=
  slot.region = 0 ∨ ∃ cell ∈ s.cells, cell.slot.region = slot.region

/-- No region owns a slot of the second stack that owns none of the first. -/
def Inherits (s t : Stack) : Prop := ∀ cell ∈ t.cells, Inherited s cell.slot

theorem inherited_of_mem {cell : Cell} (member : cell ∈ s.cells) : Inherited s cell.slot :=
  .inr ⟨cell, member, rfl⟩

theorem inherits_of_subset {t : Stack} (subset : ∀ cell ∈ t.cells, cell ∈ s.cells) :
    Inherits s t :=
  fun cell member => inherited_of_mem (subset cell member)

theorem ofConstant_region (v : Value) : (Slot.ofConstant v).region = 0 := by
  cases v <;> rfl

private theorem Drawn.inherited {slot : Slot} (drawn : Drawn plan s slot) : Inherited s slot := by
  cases drawn with
  | kind => exact .inl rfl
  | constant => exact .inl (ofConstant_region _)
  | moved member => exact inherited_of_mem member
  | copied => exact .inl rfl
  | loaded => exact .inl rfl
  | saved member => exact inherited_of_mem member

/-- Exception state is moved, copied without its owner, or dropped. -/
theorem flow_inherits (flows : o.flow plan stamp s = .ok flow) :
    Inherits s flow.next ∧ ∀ e ∈ flow.branches, e.handler = false → Inherits s e.shape := by
  obtain ⟨f, formed, form⟩ := flow_form flows
  cases flow_eq flows form
  refine ⟨fun cell member => ?_, fun e listed plain => ?_⟩
  · rcases List.mem_append.mp member with pushed | kept
    · obtain ⟨slot, listed, rfl⟩ := List.mem_map.mp (List.mem_reverse.mp pushed)
      exact (formed.pushed slot listed).inherited
    · exact inherited_of_mem (List.mem_of_mem_drop kept)
  · obtain ⟨l, member, rfl⟩ := List.mem_map.mp listed
    have none := (formed.leaps l member).2.2.1 plain
    apply inherits_of_subset
    intro cell kept
    simp only [Leap.edge, piled, none, List.map_nil, List.reverse_nil, List.nil_append] at kept
    exact List.mem_of_mem_drop kept

end Lowering.Proofs
