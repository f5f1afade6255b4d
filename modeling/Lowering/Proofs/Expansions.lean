import Lowering.Guest.Expansion
import Lowering.Proofs.Fixpoint
import Lowering.Proofs.Outlines

/-! The operations of an instruction do to a frame what its flow does to the shape. Straight-line code
is followed from an outline to every way out of it: its end, its branches, and what it raises. -/

namespace Lowering.Proofs
open Host Shape Guest

/-- What is asked of the outlines with which straight-line code is left. -/
structure Exits where
  through : Outline → Prop
  branch : Label → Outline → Prop
  raise : Outline → Prop

/-- Every way out of straight-line code that starts with an outline is as asked. -/
def Follows (exits : Exits) : List Operation → Outline → Prop
  | [], out => exits.through out
  | o :: rest, out =>
    (mayRaise o out = true → exits.raise (out.without o)) ∧
    ∀ next, out.after? o = some next →
      (∀ label, o.target? = some label → exits.branch label next) ∧
      (o.terminates = false → Follows exits rest next)

/-- The local saves an exception for a handler that runs, or whose exception is on the stack. -/
def saves (plan : Plan) (p : Point) (i : Nat) : Bool :=
  plan.dialect == .legacy &&
    (p.shape.cells.any (fun cell =>
        cell.slot.region != 0 && (plan.scratch cell.slot.region).toInt.toNat == i) ||
      p.blocks.any fun b => b.running && (plan.scratch b.region).toInt.toNat == i)

/-- What a frame holds before an instruction, given which of its arguments may be missing. -/
def outlineAt (absent : Nat → Bool) (plan : Plan) (p : Point) : Outline where
  stack := p.shape.cells.map Cell.slot
  locals i :=
    if i < plan.function.localCount then localSlot p.shape.locals i
    else .ofKind (if saves plan p i then .object else .unbound)
  absent i := decide (i < plan.function.localCount) && absent i

variable {absent : Nat → Bool} {plan : Plan} {p : Point} {next : List Block}

theorem saves_quiet {i : Int64} (outside : plan.function.localCount ≤ i.toInt.toNat)
    (saved : saves plan p i.toInt.toNat = true) (slots : List Slot) :
    mayRaise (.loadLocal i) { outlineAt absent plan p with stack := slots } = false := by
  simp only [mayRaise, outlineAt, if_neg (Nat.not_lt.mpr outside), if_pos saved,
    decide_eq_false (Nat.not_lt.mpr outside)]
  rfl

private theorem saves_of_inherits {q : Point} (inherits : Inherits p.shape q.shape)
    (running : ∀ b ∈ q.blocks, b.running = true → b ∈ p.blocks) {i : Nat}
    (saved : saves plan q i = true) : saves plan p i = true := by
  simp only [saves, Bool.and_eq_true, Bool.or_eq_true, List.any_eq_true, bne_iff_ne, ne_eq,
    beq_iff_eq] at saved ⊢
  obtain ⟨dialect, ⟨cell, member, tagged, place⟩ | ⟨b, member, runs, place⟩⟩ := saved
  · obtain ⟨source, present, same⟩ := (inherits cell member).resolve_left tagged
    exact ⟨dialect, .inl ⟨source, present, same ▸ tagged, same ▸ place⟩⟩
  · exact ⟨dialect, .inr ⟨b, running b member runs, runs, place⟩⟩

theorem refines_outlineAt {q : Point} {out : Outline} (inherits : Inherits p.shape q.shape)
    (running : ∀ b ∈ q.blocks, b.running = true → b ∈ p.blocks)
    (stack : List.Forall₂ Refines out.stack (q.shape.cells.map Cell.slot))
    (locals : ∀ i, i < plan.function.localCount →
      LocalRefines (out.locals i) (localSlot q.shape.locals i))
    (scratch : ∀ i, plan.function.localCount ≤ i → out.locals i = (outlineAt absent plan p).locals i)
    (missing : out.absent = (outlineAt absent plan p).absent) :
    OutlineRefines out (outlineAt absent plan q) := by
  refine ⟨stack, fun i => ?_, fun i holds => missing ▸ holds⟩
  simp only [outlineAt]
  split
  next inside => exact locals i inside
  next outside =>
    rw [scratch i (Nat.not_lt.mp outside)]
    simp only [outlineAt, if_neg outside]
    by_cases saved : saves plan q i = true
    · rw [if_pos saved, if_pos (saves_of_inherits inherits running saved)]
      exact fun _ conforms => conforms
    · rw [if_neg saved]
      exact localRefines_unbound _

theorem refines_withStack {t : Stack} {slots : List Slot} (inherits : Inherits p.shape t)
    (running : ∀ b ∈ next, b.running = true → b ∈ p.blocks) (locals : t.locals = p.shape.locals)
    (stack : List.Forall₂ Refines slots (t.cells.map Cell.slot)) :
    OutlineRefines { outlineAt absent plan p with stack := slots } (outlineAt absent plan ⟨t, next⟩) := by
  refine refines_outlineAt (p := p) inherits running stack (fun i inside => ?_) (fun i _ => rfl) rfl
  simp only [outlineAt, if_pos inside, locals]
  exact fun _ conforms => conforms

/-- How an instruction is left, according to its flow. What it leaves on the stack when it raises
agrees with what it found, up to what it took or had put on top. -/
def flowExits (absent : Nat → Bool) (plan : Plan) (fresh : Label) (o : Bound) (p : Point) (flow : Flow)
    (next : List Block) : Exits where
  through out := flow.falls = true ∧ OutlineRefines out (outlineAt absent plan ⟨flow.next, next⟩)
  branch label out :=
    (∃ e ∈ flow.branches, e.handler = false ∧ e.target = label ∧
      OutlineRefines out (outlineAt absent plan ⟨e.shape, next⟩)) ∨
    (o.opcode = .forIter ∧ label = fresh ∧ flow.falls = true ∧
      OutlineRefines out (outlineAt absent plan ⟨flow.next, next⟩))
  raise out := o.opcode.mayRaise = true ∧ out = { outlineAt absent plan p with stack := out.stack } ∧
    (out.stack <:+ (outlineAt absent plan p).stack ∨ (outlineAt absent plan p).stack <:+ out.stack)

private theorem swapTop?_one {α : Type} (a b : α) (rest : List α) :
    Machine.swapTop? 1 (a :: b :: rest) = some (b :: a :: rest) := rfl

private theorem slots_refl (cells : List Cell) :
    List.Forall₂ Refines (cells.map Cell.slot) (cells.map Cell.slot) :=
  List.forall₂_same.mpr fun _ _ => .refl _

private theorem untagged_refines (slot : Slot) : Refines slot slot.untagged :=
  fun _ conforms => conforms.congr rfl rfl

private theorem constantSlot_refines (v : Value) : Refines (constantSlot v) (.ofConstant v) := by
  cases v <;> first | exact .refl _ | exact refines_object _

private theorem loaded_refines (slot : Slot) : Refines (loaded slot)
    (if slot.kind == .unbound then .ofKind .object else slot.untagged) := by
  unfold loaded
  by_cases unbound : slot.kind = .unbound
  · simp [unbound, Refines.refl]
  · simp [unbound, untagged_refines]

private theorem cells_one {s : Stack} (enough : (1 : Int64).toInt ≤ s.depth) :
    ∃ cell cells, s.cells = cell :: cells := by
  cases below : s.cells with
  | nil => simp [Stack.depth, below] at enough
  | cons cell cells => exact ⟨cell, cells, rfl⟩

private theorem cells_two {s : Stack} (enough : (2 : Int64).toInt ≤ s.depth) :
    ∃ a b cells, s.cells = a :: b :: cells := by
  match below : s.cells with
  | [] => simp [Stack.depth, below] at enough
  | [_] => simp [Stack.depth, below] at enough
  | a :: b :: cells => exact ⟨a, b, cells, rfl⟩

private theorem follows_pops {exits : Exits} {rest : List Operation} (n : Nat) {out : Outline}
    (later : Follows exits rest { out with stack := out.stack.drop n }) :
    Follows exits (List.replicate n Operation.pop ++ rest) out := by
  induction n generalizing out with
  | zero => exact later
  | succ n ih =>
    refine ⟨nofun, fun popped after => ⟨nofun, fun _ => ?_⟩⟩
    cases below : out.stack with
    | nil =>
      simp only [Outline.after?, below] at after
      cases after
    | cons slot slots =>
      simp only [Outline.after?, below, Option.some.injEq] at after
      subst after
      exact ih (by simpa [below] using later)

private theorem after_pop {out next : Outline} (after : out.after? .pop = some next) :
    ∃ slot slots, out.stack = slot :: slots ∧ next = { out with stack := slots } := by
  cases below : out.stack with
  | nil =>
    simp only [Outline.after?, below] at after
    cases after
  | cons slot slots =>
    simp only [Outline.after?, below, Option.some.injEq] at after
    exact ⟨slot, slots, rfl, after.symm⟩

private theorem after_swap {out next : Outline} (after : out.after? (.swap 1) = some next) :
    ∃ a b slots, out.stack = a :: b :: slots ∧ next = { out with stack := b :: a :: slots } := by
  match below : out.stack with
  | [] | [_] =>
    simp only [Outline.after?, below] at after
    cases after
  | a :: b :: slots =>
    simp only [Outline.after?, below, swapTop?_one, Option.map_some, Option.some.injEq] at after
    exact ⟨a, b, slots, rfl, after.symm⟩

private theorem after_pick {depth : Int64} {out next : Outline}
    (after : out.after? (.pick depth) = some next) :
    ∃ slot, next = { out with stack := slot :: out.stack } := by
  obtain ⟨slot, _, same⟩ := Option.map_eq_some_iff.mp after
  exact ⟨slot, same.symm⟩

private theorem Follows.quiet {exits : Exits} {op : Operation} {rest : List Operation} {out : Outline}
    (quiet : mayRaise op out = false) (straight : op.target? = none)
    (later : ∀ next, out.after? op = some next → Follows exits rest next) :
    Follows exits (op :: rest) out := by
  refine ⟨fun may => ?_, fun next after => ⟨fun label named => ?_, fun _ => later next after⟩⟩
  · rw [quiet] at may
    cases may
  · rw [straight] at named
    cases named

private theorem Follows.invoke {exits : Exits} {inv : Invocation} {rest : List Operation}
    {out : Outline} (raise : exits.raise (out.without (.invoke inv)))
    (later : Follows exits rest { out with
      stack := (resultSlots inv (out.stack.take inv.args.toInt.toNat).reverse).reverse ++
        out.stack.drop inv.args.toInt.toNat }) :
    Follows exits (.invoke inv :: rest) out := by
  refine ⟨fun _ => raise, fun next after => ⟨nofun, fun _ => ?_⟩⟩
  cases after
  exact later

section
variable {fresh : Label} {o : Bound} {flow : Flow} {stamp : Nat}

private theorem follows_invoke {inv : Invocation} {n : Nat} {slots : List Slot}
    (flows : flow = .through { p.shape with
      cells := (slots.map (Cell.mk stamp)).reverse ++ p.shape.cells.drop n })
    (inherits : Inherits p.shape flow.next)
    (running : ∀ b ∈ next, b.running = true → b ∈ p.blocks) (raises : o.opcode.mayRaise = true)
    (count : inv.args.toInt.toNat = n)
    (results : List.Forall₂ Refines
      (resultSlots inv (((p.shape.cells.map Cell.slot).take n).reverse)) slots) :
    Follows (flowExits absent plan fresh o p flow next) [.invoke inv] (outlineAt absent plan p) := by
  refine ⟨fun _ => ⟨raises, rfl, .inl (List.drop_suffix _ _)⟩, fun out after => ⟨nofun, fun _ => ?_⟩⟩
  simp only [Outline.after?, Option.some.injEq] at after
  subst after
  subst flows
  refine ⟨rfl, refines_withStack inherits running rfl ?_⟩
  simp only [Flow.through, List.map_append, List.map_reverse, List.map_map, count, outlineAt]
  refine List.rel_append (List.rel_reverse ?_) (by rw [← List.map_drop]; exact slots_refl _)
  simpa using results

private theorem follows_binary {operand : Int64} {operator : Option Arithmetic}
    (flows : Flow.binary stamp p.shape operator = .ok flow)
    (inherits : Inherits p.shape flow.next)
    (running : ∀ b ∈ next, b.running = true → b ∈ p.blocks) (raises : o.opcode.mayRaise = true)
    (means : Arithmetic.ofOperand? operand = operator) :
    Follows (flowExits absent plan fresh o p flow next)
      [.invoke { helper := .binaryOp, args := 2, results := 1, arg := operand }]
      (outlineAt absent plan p) := by
  obtain ⟨b, a, cells, below, rfl⟩ := binary_spec flows
  have result : (.through { p.shape with cells :=
      ⟨stamp, .ofKind (Flow.resultKind operator a.slot.kind b.slot.kind)⟩ :: cells } : Flow) =
      .through { p.shape with
        cells := ([Slot.ofKind (Flow.resultKind operator a.slot.kind b.slot.kind)].map
          (Cell.mk stamp)).reverse ++ p.shape.cells.drop 2 } := by
    simp [below]
  refine follows_invoke result inherits running raises rfl ?_
  simp [below, resultSlots, means, Refines.refl]

private theorem follows_replace {inv : Invocation} {n : Int64} {slots : List Slot}
    (flows : Flow.replace stamp p.shape n slots = .ok flow) (inherits : Inherits p.shape flow.next)
    (running : ∀ b ∈ next, b.running = true → b ∈ p.blocks) (raises : o.opcode.mayRaise = true)
    (count : inv.args = n)
    (results : List.Forall₂ Refines
      (resultSlots inv (((p.shape.cells.map Cell.slot).take n.toInt.toNat).reverse)) slots) :
    Follows (flowExits absent plan fresh o p flow next) [.invoke inv] (outlineAt absent plan p) :=
  follows_invoke (replace_spec flows).2 inherits running raises (by rw [count]) results

private theorem follows_branch {cells : List Cell} {target : Int64} {jump : Operation}
    (flows : flow = ⟨{ p.shape with cells }, true, [⟨target, { p.shape with cells }, false⟩]⟩)
    (inherits : Inherits p.shape flow.next)
    (running : ∀ b ∈ next, b.running = true → b ∈ p.blocks)
    (jumps : jump = .ifTrue target ∨ jump = .ifFalse target) (condition : Slot) :
    Follows (flowExits absent plan fresh o p flow next) [jump]
      { outlineAt absent plan p with stack := condition :: cells.map Cell.slot } := by
  subst flows
  have refines : OutlineRefines { outlineAt absent plan p with stack := cells.map Cell.slot }
      (outlineAt absent plan ⟨{ p.shape with cells }, next⟩) :=
    refines_withStack inherits running rfl (slots_refl _)
  rcases jumps with rfl | rfl
  all_goals
    refine ⟨by rintro ⟨⟩, fun out after => ⟨fun label named => .inl ?_, fun _ => ?_⟩⟩
    · simp only [Outline.after?, Option.some.injEq] at after
      subst after
      cases named
      exact ⟨_, List.mem_singleton_self _, rfl, rfl, refines⟩
    · simp only [Outline.after?, Option.some.injEq] at after
      subst after
      exact ⟨rfl, refines⟩

private theorem through_same (running : ∀ b ∈ next, b.running = true → b ∈ p.blocks) :
    OutlineRefines (outlineAt absent plan p) (outlineAt absent plan ⟨p.shape, next⟩) :=
  refines_withStack (inherits_of_subset fun _ member => member) running rfl (slots_refl _)

private theorem follows_push {op : Operation} {pushed slot : Slot}
    (flows : flow = .through (p.shape.push stamp slot)) (inherits : Inherits p.shape flow.next)
    (running : ∀ b ∈ next, b.running = true → b ∈ p.blocks)
    (raises : mayRaise op (outlineAt absent plan p) = true → o.opcode.mayRaise = true ∧ op.pops = 0)
    (after : ∀ out, (outlineAt absent plan p).after? op = some out → out = (outlineAt absent plan p).push pushed)
    (straight : op.target? = none) (refines : Refines pushed slot) :
    Follows (flowExits absent plan fresh o p flow next) [op] (outlineAt absent plan p) := by
  subst flows
  refine ⟨fun may => ?_, fun out done => ⟨fun label named => ?_, fun _ => ?_⟩⟩
  · obtain ⟨opcode, none⟩ := raises may
    refine ⟨opcode, rfl, .inl ?_⟩
    simp [Outline.without, none]
  · rw [straight] at named
    cases named
  · rw [after out done]
    exact ⟨rfl, refines_withStack inherits running rfl (.cons refines (slots_refl _))⟩

private theorem follows_drop {op : Operation} (flows : Flow.replace stamp p.shape 1 [] = .ok flow)
    (inherits : Inherits p.shape flow.next)
    (running : ∀ b ∈ next, b.running = true → b ∈ p.blocks)
    (quiet : mayRaise op (outlineAt absent plan p) = false)
    (after : ∀ slot slots, (outlineAt absent plan p).stack = slot :: slots →
      (outlineAt absent plan p).after? op = some { outlineAt absent plan p with stack := slots })
    (straight : op.target? = none) :
    Follows (flowExits absent plan fresh o p flow next) [op] (outlineAt absent plan p) := by
  obtain ⟨enough, rfl⟩ := replace_spec flows
  refine ⟨fun may => ?_, fun out done => ⟨fun label named => ?_, fun _ => ⟨rfl, ?_⟩⟩⟩
  · rw [quiet] at may
    cases may
  · rw [straight] at named
    cases named
  · obtain ⟨cell, cells, below⟩ := cells_one enough
    rw [after cell.slot (cells.map Cell.slot) (by simp [outlineAt, below])] at done
    cases done
    refine refines_withStack inherits running rfl ?_
    simp [Flow.through, below, Refines.refl]

private theorem swap_exchanges {cells : List Cell} {n : Nat} (two : 2 ≤ n) (enough : n ≤ cells.length) :
    ∃ (first last : Cell) (middle below : List Cell), cells = first :: (middle ++ last :: below) ∧
      middle.length = n - 2 := by
  cases cells with
  | nil => simp at enough; omega
  | cons first rest =>
    simp only [List.length_cons] at enough
    have inside : n - 2 < rest.length := by omega
    refine ⟨first, rest[n - 2], rest.take (n - 2), rest.drop (n - 2 + 1), ?_, ?_⟩
    · rw [List.getElem_cons_drop, List.take_append_drop]
    · rw [List.length_take]
      omega

private theorem swapTop?_middle {α : Type} {depth : Int64} {first last : α} {middle below : List α}
    (positive : ¬ depth < 0) (count : depth.toInt.toNat = middle.length + 1) :
    Machine.swapTop? depth (first :: (middle ++ last :: below)) =
      some (last :: (middle ++ first :: below)) := by
  simp only [Machine.swapTop?, Machine.itemAt?, if_neg positive, count, List.getElem?_cons_succ,
    List.getElem?_append_right (Nat.le_refl _), Nat.sub_self, List.getElem?_cons_zero,
    List.set_cons_succ, List.set_cons_zero, List.set_append_right _ _ (Nat.le_refl _)]

theorem pred_toInt {n : Int64} (positive : 1 ≤ n.toInt) : (n - 1).toInt = n.toInt - 1 :=
  Int64.toInt_sub_of_le n 1 (by decide) (Int64.le_iff_toInt_le.mpr positive)

private theorem follows_swap {slots : List Slot} (two : ¬ o.arg < 2)
    (taken : p.shape.top o.arg = .ok slots)
    (flows : Flow.replace stamp p.shape o.arg (Flow.exchange slots) = .ok flow)
    (inherits : Inherits p.shape flow.next)
    (running : ∀ b ∈ next, b.running = true → b ∈ p.blocks) :
    Follows (flowExits absent plan fresh o p flow next) [.swap (o.arg - 1)] (outlineAt absent plan p) := by
  obtain ⟨enough, rfl⟩ := top_spec taken
  have count : 2 ≤ o.arg.toInt := Int.not_lt.mp fun less => two (Int64.lt_iff_toInt_lt.mpr less)
  have less : (o.arg - 1).toInt = o.arg.toInt - 1 := pred_toInt (by omega)
  obtain ⟨first, last, middle, below, cells, length⟩ : ∃ (first last : Cell) (middle below : List Cell),
      p.shape.cells = first :: (middle ++ last :: below) ∧ middle.length = o.arg.toInt.toNat - 2 :=
    swap_exchanges (by omega) (by simp only [Stack.depth] at enough; omega)
  have number : o.arg.toInt.toNat = (middle ++ [last]).length + 1 := by
    simp only [List.length_append, List.length_cons, List.length_nil]
    omega
  have upper : p.shape.cells.take o.arg.toInt.toNat = first :: (middle ++ [last]) := by
    rw [cells, number, List.take_succ_cons, show middle ++ last :: below = middle ++ [last] ++ below
      by simp, List.take_left]
  have lower : p.shape.cells.drop o.arg.toInt.toNat = below := by
    rw [cells, number, List.drop_succ_cons, show middle ++ last :: below = middle ++ [last] ++ below
      by simp, List.drop_left]
  obtain ⟨_, rfl⟩ := replace_spec flows
  refine ⟨by rintro ⟨⟩, fun out after => ⟨by rintro _ ⟨⟩, fun _ => ⟨rfl, ?_⟩⟩⟩
  have swapped : Machine.swapTop? (o.arg - 1) (outlineAt absent plan p).stack =
      some (last.slot :: (middle.map Cell.slot ++ first.slot :: below.map Cell.slot)) := by
    simp only [outlineAt, cells, List.map_cons, List.map_append]
    refine swapTop?_middle ?_ (by rw [less, List.length_map]; omega)
    rw [Int64.lt_iff_toInt_lt, less]
    simp only [Int64.toInt_zero]
    omega
  simp only [Outline.after?, swapped, Option.map_some, Option.some.injEq] at after
  subst after
  refine refines_withStack inherits running rfl ?_
  have exchanged : Flow.exchange (first :: (middle ++ [last]) |>.map Cell.slot).reverse =
      first.slot :: ((middle.map Cell.slot).reverse ++ [last.slot]) := by
    simp [Flow.exchange]
  simp only [Flow.through, upper, lower, exchanged]
  simp [Function.comp_def, Refines.refl]

/-- What is known of an instruction that was bound for a plan. -/
structure Lawful (plan : Plan) (o : Bound) : Prop where
  checked : Bound.check plan.function o = none
  dialect : o.dialect = plan.dialect
  slots : o.opcode = .popExcept ∨ o.opcode = .reraise →
    o.behavior.exceptionSlots = plan.dialect.exceptionSlots

theorem Lawful.popExcept {o : Bound} (valid : Lawful plan o) (leaves : o.opcode = .popExcept) :
    o.behavior.exceptionSlots = plan.dialect.exceptionSlots :=
  valid.slots (.inl leaves)

theorem Lawful.operand {o : Bound} (valid : Lawful plan o) :
    Bound.badOperand plan.function o = none := by
  have all := valid.checked
  unfold Bound.check at all
  split at all
  · cases all
  · exact all

/-- What is known of an instruction whose operations are followed. -/
structure Followable (plan : Plan) (o : Bound) (p : Point) : Prop extends Lawful plan o where
  scratch : ∀ cell ∈ p.shape.cells, cell.slot.region ≠ 0 → plan.dialect = .legacy →
    plan.function.localCount ≤ (plan.scratch cell.slot.region).toInt.toNat

/-- The innermost region that owns exception state owns a slot. -/
theorem enclosing_mem {s : Stack} (owner : enclosing s ≠ 0) :
    ∃ cell ∈ s.cells, cell.slot.region ≠ 0 ∧ cell.slot.region = enclosing s := by
  unfold enclosing at owner ⊢
  split
  next cell found =>
    have holds := List.find?_some found
    simp only [Bool.and_eq_true, bne_iff_ne, ne_eq] at holds
    exact ⟨cell, List.mem_of_find?_eq_some found, holds.1, rfl⟩
  next missing =>
    rw [missing] at owner
    exact absurd rfl owner

private theorem scratch_quiet (valid : Followable plan o p) (legacy : plan.dialect = .legacy)
    (owner : enclosing p.shape ≠ 0) (slots : List Slot) :
    mayRaise (.loadLocal (plan.scratch (enclosing p.shape)))
      { outlineAt absent plan p with stack := slots } = false := by
  obtain ⟨cell, member, tagged, same⟩ := enclosing_mem owner
  have outside := valid.scratch cell member tagged legacy
  rw [same] at outside
  have saved : saves plan p (plan.scratch (enclosing p.shape)).toInt.toNat = true := by
    simp only [saves, legacy, beq_self_eq_true, Bool.true_and, Bool.or_eq_true, List.any_eq_true,
      Bool.and_eq_true, bne_iff_ne, ne_eq, beq_iff_eq]
    exact .inl ⟨cell, member, tagged, by rw [same]⟩
  exact saves_quiet outside saved slots

/-- The operations of an instruction leave it as its flow says. -/
theorem expand_follows (valid : Followable plan o p)
    (flows : o.flow plan stamp p.shape = .ok flow)
    (running : ∀ b ∈ next, b.running = true → b ∈ p.blocks) :
    Follows (flowExits absent plan fresh o p flow next) (o.expand plan fresh p.shape)
      (outlineAt absent plan p) := by
  obtain ⟨inherits, branching⟩ := flow_inherits flows
  have checked := valid.operand
  cases opcode : o.opcode <;> simp only [Bound.flow, opcode] at flows <;>
    simp only [Bound.expand, opcode] <;> simp only [Bound.badOperand, opcode] at checked
  case nop | resume | cache | popBlock =>
    cases flows
    exact ⟨rfl, through_same running⟩
  case setupFinally =>
    split at flows
    · cases flows
    · cases flows
      exact ⟨rfl, through_same running⟩
  case unaryNot | compareOp | isOp | containsOp | buildTuple | buildList | callFunction | call
      | getIter | storeAttr =>
    refine follows_replace flows inherits running (by rw [opcode]; rfl) rfl ?_
    simp [resultSlots, Refines.refl]
  case loadAttr =>
    split
    next wants =>
      simp only [wants, if_true] at flows
      exact follows_replace flows inherits running (by rw [opcode]; rfl) rfl
        (by simp [resultSlots, Refines.refl])
    next plain =>
      simp only [plain, Bool.false_eq_true, if_false] at flows
      exact follows_replace flows inherits running (by rw [opcode]; rfl) rfl
        (by simp [resultSlots, Refines.refl])
  case unaryNegative =>
    split at flows
    · cases flows
    · next top peeked =>
      obtain ⟨_, cell, found, rfl⟩ := peek_spec peeked
      refine follows_replace flows inherits running (by rw [opcode]; rfl) rfl ?_
      cases below : p.shape.cells with
      | nil =>
        rw [below] at found
        cases found
      | cons first rest =>
        rw [below] at found
        cases found
        simp [resultSlots, Refines.refl]
  case binaryAdd | binarySubtract | binaryMultiply =>
    exact follows_binary flows inherits running (by rw [opcode]; rfl) (by decide)
  case binaryOp => exact follows_binary flows inherits running (by rw [opcode]; rfl) rfl
  case pushNull =>
    cases flows
    refine follows_push rfl inherits running (by rintro ⟨⟩) (fun out after => ?_) rfl (.refl _)
    simpa [Outline.after?, constantSlot] using after.symm
  case loadConst =>
    cases flows
    refine follows_push rfl inherits running (by rintro ⟨⟩) (fun out after => ?_) rfl
      (constantSlot_refines _)
    simpa only [Outline.after?, Option.some.injEq] using after.symm
  case loadFast =>
    cases flows
    obtain ⟨positive, inside⟩ := inRange_none checked
    have slot : (outlineAt absent plan p).locals o.arg.toInt.toNat = p.shape.local? o.arg := by
      simp only [outlineAt, if_pos inside, localSlot, Stack.local?, if_neg (Int.not_lt.mpr positive)]
    refine follows_push rfl inherits running (fun _ => ⟨by rw [opcode]; rfl, rfl⟩)
      (fun out after => ?_) rfl (loaded_refines _)
    simpa only [Outline.after?, slot, Option.some.injEq] using after.symm
  case dupTop =>
    split at flows
    · cases flows
    · next top peeked =>
      obtain ⟨_, cell, found, rfl⟩ := peek_spec peeked
      cases flows
      refine follows_push rfl inherits running (by rintro ⟨⟩) (fun out after => ?_) rfl (untagged_refines _)
      cases below : p.shape.cells with
      | nil =>
        rw [below] at found
        cases found
      | cons first rest =>
        rw [below] at found
        cases found
        simpa [Outline.after?, outlineAt, below, Outline.push] using after.symm
  case copy =>
    split at flows
    · cases flows
    · next top peeked =>
      obtain ⟨positive, cell, found, rfl⟩ := peek_spec peeked
      cases flows
      refine follows_push rfl inherits running (by rintro ⟨⟩) (fun out after => ?_) rfl (untagged_refines _)
      have item : Machine.itemAt? (o.arg - 1) (outlineAt absent plan p).stack = some cell.slot := by
        rw [Machine.itemAt?, if_neg (by rw [Int64.lt_iff_toInt_lt]; exact Int.not_lt.mpr positive)]
        simp only [outlineAt, List.getElem?_map, found, Option.map_some]
      simpa only [Outline.after?, item, Option.map_some, Option.some.injEq] using after.symm
  case swap =>
    split at flows
    · cases flows
    · next slots taken =>
      exact follows_swap (by intro less; rw [if_pos less] at checked; cases checked) taken flows
        inherits running
  case popTop | storeGlobal =>
    refine follows_drop flows inherits running rfl (fun slot slots below => ?_) rfl
    simp only [Outline.after?, below]
  case rotTwo =>
    split at flows
    · cases flows
    · next slots taken =>
      obtain ⟨enough, rfl⟩ := top_spec taken
      obtain ⟨_, rfl⟩ := replace_spec flows
      refine ⟨by rintro ⟨⟩, fun out after => ⟨by rintro _ ⟨⟩, fun _ => ⟨rfl, ?_⟩⟩⟩
      obtain ⟨a, b, cells, below⟩ := cells_two enough
      simp only [Outline.after?, outlineAt, below, List.map_cons, swapTop?_one, Option.map_some,
        Option.some.injEq] at after
      subst after
      refine refines_withStack inherits running rfl ?_
      simp [Flow.through, below, Refines.refl]
  case storeFast =>
    obtain ⟨_, inside⟩ := inRange_none checked
    split at flows
    · cases flows
    · next top rest below =>
      cases flows
      refine ⟨by rintro ⟨⟩, fun out after => ⟨by rintro _ ⟨⟩, fun _ => ⟨rfl, ?_⟩⟩⟩
      simp only [Outline.after?, outlineAt, below, List.map_cons, Option.some.injEq] at after
      subst after
      refine refines_outlineAt inherits running (slots_refl _) (fun i within => ?_) (fun i beyond => ?_)
        rfl
      · simp only [Flow.through, setLocal_slot, Outline.setLocal, if_pos within]
        split
        · exact fun v conforms => conforms.imp_right fun holds =>
            ⟨holds.1, untagged_refines _ v holds.2⟩
        · exact fun _ conforms => conforms
      · simp only [Outline.setLocal, outlineAt]
        rw [if_neg (by omega)]
  case deleteFast =>
    obtain ⟨_, inside⟩ := inRange_none checked
    cases flows
    refine ⟨fun _ => ⟨by rw [opcode]; rfl, rfl, .inl (List.drop_suffix _ _)⟩, fun out after =>
      ⟨by rintro _ ⟨⟩, fun _ => ⟨rfl, ?_⟩⟩⟩
    simp only [Outline.after?, Option.some.injEq] at after
    subst after
    refine refines_outlineAt inherits running (slots_refl _) (fun i within => ?_) (fun i beyond => ?_)
      rfl
    · simp only [Flow.through, setLocal_slot, Outline.setLocal, outlineAt, if_pos within]
      split <;> exact fun _ conforms => conforms
    · simp only [Outline.setLocal, outlineAt]
      rw [if_neg (by omega)]
  case loadGlobal =>
    cases flows
    have raises : o.opcode.mayRaise = true := by rw [opcode]; rfl
    split
    next wants =>
      simp only [wants, if_true] at inherits ⊢
      refine .quiet rfl rfl fun out after => ?_
      cases after
      refine ⟨fun _ => ⟨raises, rfl, .inr (List.suffix_cons _ _)⟩, fun out after =>
        ⟨by rintro _ ⟨⟩, fun _ => ⟨rfl, ?_⟩⟩⟩
      cases after
      exact refines_withStack inherits running rfl
        (.cons (.refl _) (.cons (.refl _) (slots_refl _)))
    next plain =>
      simp only [plain, Bool.false_eq_true, if_false] at inherits ⊢
      exact follows_push rfl inherits running (fun _ => ⟨raises, rfl⟩)
        (fun out after => (Option.some.inj after).symm) rfl (.refl _)
  case returnValue => exact ⟨by rintro ⟨⟩, by rintro _ ⟨⟩⟩
  case jumpForward | jumpAbsolute | jumpBackward =>
    cases flows
    refine ⟨by rintro ⟨⟩, fun out after => ⟨fun label named => ?_, by rintro ⟨⟩⟩⟩
    cases named
    cases after
    exact .inl ⟨_, List.mem_singleton_self _, rfl, rfl, through_same running⟩
  case popJumpIfFalse | popJumpIfTrue =>
    obtain ⟨cell, cells, below, same⟩ := branch_spec flows
    refine .invoke ⟨by rw [opcode]; rfl, rfl, .inl (List.drop_suffix _ _)⟩ ?_
    have rest : (outlineAt absent plan p).stack.drop (1 : Int64).toInt.toNat = cells.map Cell.slot := by
      simp [outlineAt, below]
    simp only [rest]
    exact follows_branch same inherits running (by simp) _
  case forIter =>
    split at flows
    · cases flows
    · next exhausted popped =>
      obtain ⟨enough, rfl⟩ := pop_spec popped
      obtain ⟨cell, cells, below⟩ := cells_one enough
      cases flows
      have more : OutlineRefines
          { outlineAt absent plan p with stack := .ofKind .object :: cell.slot :: cells.map Cell.slot }
          (outlineAt absent plan ⟨p.shape.push stamp (.ofKind .object), next⟩) :=
        refines_withStack inherits running rfl (.cons (.refl _) (by
          rw [below]
          exact slots_refl (cell :: cells)))
      have done : OutlineRefines { outlineAt absent plan p with stack := cells.map Cell.slot }
          (outlineAt absent plan ⟨{ p.shape with cells := p.shape.cells.drop (1 : Int64).toInt.toNat }, next⟩) :=
        refines_withStack (branching _ (List.mem_singleton_self _) rfl) running rfl
          (by simp [below, Refines.refl])
      refine .quiet rfl rfl fun out after => ?_
      simp only [Outline.after?, outlineAt, below, List.map_cons, Option.some.injEq] at after
      subst after
      refine .invoke ⟨by rw [opcode]; rfl, rfl, .inl (by simp [Outline.without, Outline.push,
        Operation.pops, outlineAt, below])⟩ ?_
      refine ⟨by rintro ⟨⟩, fun out after => ⟨fun label named => ?_, fun _ => ?_⟩⟩
      · cases named
        cases after
        exact .inr ⟨opcode, rfl, rfl, more⟩
      · cases after
        refine .quiet rfl rfl fun out after => ?_
        cases after
        refine .quiet rfl rfl fun out after => ?_
        cases after
        refine ⟨by rintro ⟨⟩, fun out after => ⟨fun label named => ?_, by rintro ⟨⟩⟩⟩
        cases named
        cases after
        exact .inl ⟨_, List.mem_singleton_self _, rfl, rfl, done⟩
  case popExcept =>
    split at flows
    · cases flows
    · next =>
      unfold Plan.leave
      split
      next modern =>
        rw [valid.popExcept opcode, modern] at flows
        refine follows_drop flows inherits running rfl (fun slot slots below => ?_) rfl
        simp only [Outline.after?, below]
      next legacy =>
        obtain ⟨enough, rfl⟩ := replace_spec flows
        have count : (Int64.ofNat o.behavior.exceptionSlots).toInt.toNat =
            o.behavior.exceptionSlots := by
          rw [valid.popExcept opcode, legacy]
          rfl
        have refines : OutlineRefines { outlineAt absent plan p with
            stack := (outlineAt absent plan p).stack.drop o.behavior.exceptionSlots }
            (outlineAt absent plan ⟨_, next⟩) :=
          refines_withStack inherits running rfl (by
            simp only [Flow.through, outlineAt, count, List.map_nil, List.reverse_nil,
              List.nil_append, List.map_drop]
            exact List.forall₂_same.mpr fun _ _ => .refl _)
        refine follows_pops _ ?_
        split
        · refine .quiet rfl rfl fun out after => ?_
          cases after
          refine .quiet rfl rfl fun out after => ?_
          cases after
          exact ⟨rfl, refines⟩
        · next owner =>
          refine .quiet (scratch_quiet valid legacy (by simpa using owner) _) rfl fun out after => ?_
          cases after
          refine .quiet rfl rfl fun out after => ?_
          cases after
          exact ⟨rfl, refines⟩
  case reraise =>
    have raises : o.opcode.mayRaise = true := by rw [opcode]; rfl
    unfold Guest.reraise
    split
    · refine .quiet rfl rfl fun out after => ?_
      obtain ⟨first, slots, below, rfl⟩ := after_pop after
      refine .quiet rfl rfl fun out after => ?_
      obtain ⟨a, b, rest, above, rfl⟩ := after_swap after
      refine .quiet rfl rfl fun out after => ?_
      cases after
      refine ⟨fun _ => ⟨raises, rfl, .inl ?_⟩, by rintro _ ⟨⟩⟩
      rw [below, show slots = a :: b :: rest from above]
      exact ⟨[first, a, b], rfl⟩
    · split
      · exact ⟨fun _ => ⟨raises, rfl, .inl (List.drop_suffix _ _)⟩, by rintro _ ⟨⟩⟩
      · refine .quiet rfl rfl fun out after => ?_
        obtain ⟨a, b, rest, above, rfl⟩ := after_swap after
        refine .quiet rfl rfl fun out after => ?_
        cases after
        refine ⟨fun _ => ⟨raises, rfl, .inl ?_⟩, by rintro _ ⟨⟩⟩
        rw [above]
        exact ⟨[a, b], rfl⟩
  case raiseVarargs =>
    have raises : o.opcode.mayRaise = true := by rw [opcode]; rfl
    split
    · refine .quiet rfl rfl fun out after => ?_
      cases after
      exact ⟨fun _ => ⟨raises, rfl, .inl List.suffix_rfl⟩, by rintro _ ⟨⟩⟩
    · split
      all_goals
        refine .invoke ⟨raises, rfl, .inl (List.drop_suffix _ _)⟩ ?_
        refine ⟨fun _ => ⟨raises, rfl, .inl ?_⟩, by rintro _ ⟨⟩⟩
        simp [Outline.without, Operation.pops, resultSlots, List.drop_suffix, List.tail_suffix]
  case jumpIfNotExcMatch =>
    split at flows
    · cases flows
    · obtain ⟨cell, cells, below, same⟩ := branch_spec flows
      refine .quiet rfl rfl fun out after => ?_
      obtain ⟨slot, rfl⟩ := after_pick after
      refine .quiet rfl rfl fun out after => ?_
      obtain ⟨a, b, slots, above, rfl⟩ := after_swap after
      simp only [outlineAt, below, List.map_cons, List.cons.injEq] at above
      obtain ⟨rfl, rfl, rfl⟩ := above
      refine .invoke ⟨by rw [opcode]; rfl, rfl, .inl ?_⟩
        (follows_branch same inherits running (.inr rfl) (.ofKind .bool))
      simp [Outline.without, Operation.pops, outlineAt, below]
  case pushExcInfo =>
    split at flows
    · cases flows
    · next top peeked =>
      obtain ⟨_, first, found, rfl⟩ := peek_spec peeked
      obtain ⟨enough, rfl⟩ := replace_spec flows
      obtain ⟨cell, cells, below⟩ := cells_one enough
      have same : first = cell := by simpa [below] using found.symm
      subst same
      refine .quiet rfl rfl fun out after => ?_
      cases after
      refine .quiet rfl rfl fun out after => ?_
      simp only [Outline.after?, Outline.push, outlineAt, below, List.map_cons, swapTop?_one,
        Option.map_some, Option.some.injEq] at after
      subst after
      refine .quiet rfl rfl fun out after => ?_
      cases after
      refine .quiet rfl rfl fun out after => ?_
      cases after
      refine ⟨rfl, refines_withStack inherits running rfl ?_⟩
      have saved : Refines (.ofKind .object) (.owned .prevException first.slot.region) :=
        fun _ _ => ⟨rfl, by rintro _ ⟨⟩⟩
      simp [Flow.through, below, Refines.refl, saved]
  case checkExcMatch =>
    obtain ⟨enough, rfl⟩ := replace_spec flows
    obtain ⟨cell, cells, below⟩ := cells_one enough
    refine .quiet rfl rfl fun out after => ?_
    obtain ⟨slot, rfl⟩ := after_pick after
    refine .quiet rfl rfl fun out after => ?_
    obtain ⟨a, b, slots, above, rfl⟩ := after_swap after
    simp only [outlineAt, below, List.map_cons, List.cons.injEq] at above
    obtain ⟨rfl, rfl, rfl⟩ := above
    refine .invoke ⟨by rw [opcode]; rfl, rfl, .inl ?_⟩
      ⟨rfl, refines_withStack inherits running rfl ?_⟩
    · simp [Outline.without, Operation.pops, outlineAt, below]
    · simp [Flow.through, below, resultSlots, Refines.refl]

end

end Lowering.Proofs
