import Lowering.Proofs.Emissions
import Lowering.Proofs.Expansions

/-! Ways into a handler. Its prologue finds the exception on the cut stack and leaves what the edge to
the handler carries; a cleanup raises again what it was given. -/

namespace Lowering.Proofs
open Host Shape Guest Emission

variable {absent : Nat → Bool} {plan : Plan} {bound : Array Bound} {analysis : Analysis.State}

theorem OutlineRefines.trans {a b c : Outline} (first : OutlineRefines a b)
    (second : OutlineRefines b c) : OutlineRefines a c := by
  refine ⟨?_, fun i v conforms => second.locals i v (first.locals i v conforms),
    fun i holds => second.absent i (first.absent i holds)⟩
  have stacked := first.stack
  have others := second.stack
  generalize a.stack = slots at stacked
  generalize b.stack = middle at stacked others
  generalize c.stack = last at others
  induction stacked generalizing last with
  | nil =>
    cases others
    exact .nil
  | cons head _ ih =>
    cases others with
    | cons next rest => exact .cons (head.trans next) (ih _ rest)

private theorem saves_of_covered {p q : Point} (blocks : q.blocks = p.blocks)
    (cells : List.Forall₂ CellRefines p.shape.cells q.shape.cells) {i : Nat}
    (saved : saves plan q i = true) : saves plan p i = true := by
  simp only [saves, Bool.and_eq_true, Bool.or_eq_true, List.any_eq_true, bne_iff_ne, ne_eq,
    beq_iff_eq] at saved ⊢
  obtain ⟨dialect, ⟨cell, member, tagged, place⟩ | running⟩ := saved
  · obtain ⟨k, found⟩ := List.mem_iff_getElem?.mp member
    obtain ⟨inside, rfl⟩ := List.getElem?_eq_some_iff.mp found
    have also : k < p.shape.cells.length := cells.length_eq ▸ inside
    have same := ((List.forall₂_iff_get.mp cells).2 k also inside).2
    simp only [List.get_eq_getElem] at same
    exact ⟨dialect, .inl ⟨_, List.getElem_mem also, same ▸ tagged, same ▸ place⟩⟩
  · exact ⟨dialect, .inr (blocks ▸ running)⟩

/-- What is known at an instruction is what its edges carry, or less. -/
theorem outlineAt_refines {p q : Point} (blocks : q.blocks = p.blocks)
    (refines : ShapeRefines p.shape q.shape) :
    OutlineRefines (outlineAt absent plan p) (outlineAt absent plan q) := by
  refine ⟨?_, fun i => ?_, fun _ holds => holds⟩
  · simp only [outlineAt, List.forall₂_map_left_iff, List.forall₂_map_right_iff]
    exact refines.cells.imp fun _ _ both => both.1
  · simp only [outlineAt]
    split
    · exact refines.locals i
    · by_cases saved : saves plan q i = true
      · rw [if_pos saved, if_pos (saves_of_covered blocks refines.cells saved)]
        exact fun _ conforms => conforms
      · rw [if_neg saved]
        exact localRefines_unbound _

/-- The stack is one of two that agree from the bottom on, as far as both go. -/
def Alike (slots stack : List Slot) : Prop := stack <:+ slots ∨ slots <:+ stack

theorem Alike.suffix {slots stack lower : List Slot} (alike : Alike slots stack)
    (part : lower <:+ stack) : Alike slots lower := by
  rcases alike with below | above
  · exact .inl (part.trans below)
  · exact List.suffix_or_suffix_of_suffix part above

private theorem bottom_append (top lower : List Slot) {n : Nat} (within : n ≤ lower.length) :
    (top ++ lower).drop ((top ++ lower).length - n) = lower.drop (lower.length - n) := by
  have above : top.drop (top.length + lower.length - n) = [] := List.drop_eq_nil_of_le (by omega)
  rw [List.length_append, List.drop_append, above, List.nil_append]
  congr 1
  omega

theorem Alike.bottom {slots stack : List Slot} (alike : Alike slots stack) {n : Nat}
    (first : n ≤ slots.length) (second : n ≤ stack.length) :
    stack.drop (stack.length - n) = slots.drop (slots.length - n) := by
  rcases alike with ⟨top, rfl⟩ | ⟨top, rfl⟩
  · exact (bottom_append top stack second).symm
  · exact bottom_append top slots first

/-- A region of an analysed function. -/
structure Placing (plan : Plan) (r : Region) : Prop where
  dialect : r.dialect = plan.dialect
  handler : (plan.function.indexOf? r.handler).isSome
  scratch : plan.dialect = .legacy →
    r.scratch = plan.scratch r.id ∧ plan.function.localCount ≤ r.scratch.toInt.toNat
  room : plan.dialect = .legacy → 0 ≤ r.scratch ∧ r.scratch.toInt.toNat < plan.hostLocals

theorem Stable.placing (planned : Planned plan bound) (stable : Stable plan bound analysis)
    {r : Region} (member : r ∈ analysis.regions) : Placing plan r := by
  have numbered := planned.numbered.later stable.regions
  have found := numbered.find member
  obtain ⟨_, k, listed, number⟩ := regionIn?_spec numbered found
  obtain ⟨draft, before, later⟩ := regionIn?_earlier stable.regions found
  have drafted := planned.regions draft (regionIn?_mem before)
  have inside := (List.getElem?_eq_some_iff.mp listed).1
  have small := planned.locals
  rw [← stable.regions.length_eq] at inside
  have own : plan.dialect = .legacy → r.scratch = plan.scratch r.id := by
    intro legacy
    rw [later.scratch, (drafted.legacy legacy).2, ← later.id]
    rfl
  have place : plan.dialect = .legacy → r.scratch.toInt = plan.function.localCount + k ∧
      plan.function.localCount + k < plan.hostLocals := by
    intro legacy
    simp only [Plan.hostLocals, legacy, addressable] at small ⊢
    have value : r.scratch = Int64.ofNat (plan.function.localCount + k) := by
      rw [own legacy, Plan.scratch, number, ← Int64.ofNat_add]
      simp only [Int64.ofNat_add]
      grind
    rw [value, Int64.toInt_ofNat_of_lt (by omega)]
    omega
  refine ⟨later.dialect.trans drafted.own, later.handler ▸ drafted.handler,
    fun legacy => ⟨own legacy, ?_⟩, fun legacy => ?_⟩
  · have here := (place legacy).1
    omega
  · obtain ⟨here, within⟩ := place legacy
    refine ⟨?_, by omega⟩
    rw [Int64.le_iff_toInt_le, Int64.toInt_zero]
    omega

/-- The outline that a prologue leaves when the exception was caught on top of one. -/
def Outline.prologued (r : Region) (out : Outline) : Outline where
  stack := match r.dialect with
    | .legacy => .ofKind .excTraceback :: .ofKind .exception :: .ofKind .excType :: out.stack
    | .modern =>
      if r.lasti then .ofKind .exception :: .ofKind .lasti :: out.stack
      else .ofKind .exception :: out.stack
  locals := match r.dialect with
    | .legacy => fun i => if i = r.scratch.toInt.toNat then .ofKind .object else out.locals i
    | .modern => out.locals
  absent := out.absent

private theorem follows_quiet {exits : Exits} {op : Operation} {rest : List Operation}
    {out next : Outline} (quiet : mayRaise op out = false) (straight : op.target? = none)
    (after : out.after? op = some next) (later : Follows exits rest next) :
    Follows exits (op :: rest) out := by
  refine ⟨fun raises => ?_, fun other same => ⟨fun label named => ?_, fun _ => ?_⟩⟩
  · rw [quiet] at raises
    cases raises
  · rw [straight] at named
    cases named
  · rw [after] at same
    cases same
    exact later

theorem prologue_follows {exits : Exits} {rest : List Operation} (r : Region) {out : Outline}
    (later : Follows exits rest (out.prologued r)) :
    Follows exits (r.prologue ++ rest) (out.push (.ofKind .exception)) := by
  unfold Region.prologue
  unfold Outline.prologued at later
  cases dialect : r.dialect with
  | legacy =>
    simp only [dialect, List.cons_append, List.nil_append] at later ⊢
    refine follows_quiet rfl rfl rfl ?_
    refine follows_quiet rfl rfl rfl ?_
    refine follows_quiet rfl rfl rfl ?_
    refine follows_quiet rfl rfl rfl ?_
    refine follows_quiet rfl rfl rfl ?_
    refine follows_quiet rfl rfl rfl ?_
    refine follows_quiet rfl rfl rfl ?_
    refine follows_quiet rfl rfl rfl ?_
    exact follows_quiet rfl rfl rfl later
  | modern =>
    cases lasti : r.lasti with
    | false =>
      simp only [dialect, lasti, Bool.false_eq_true, if_false, List.nil_append] at later ⊢
      exact later
    | true =>
      simp only [dialect, lasti, if_true, List.cons_append, List.nil_append] at later ⊢
      refine follows_quiet rfl rfl rfl ?_
      refine follows_quiet rfl rfl rfl ?_
      exact follows_quiet rfl rfl rfl later

private theorem saves_caught {r : Region} (placing : Placing plan r) {stamp : Nat} {p : Point}
    {i : Nat} (saved : saves plan (caughtPoint stamp p r) i = true) :
    r.dialect = .legacy ∧ (i = r.scratch.toInt.toNat ∨ saves plan p i = true) := by
  simp only [saves, Bool.and_eq_true, Bool.or_eq_true, List.any_eq_true, bne_iff_ne, ne_eq,
    beq_iff_eq] at saved ⊢
  obtain ⟨legacy, places⟩ := saved
  have dialect := placing.dialect.trans legacy
  have own := (placing.scratch legacy).1
  refine ⟨dialect, ?_⟩
  rcases places with ⟨cell, member, tagged, place⟩ | ⟨block, member, runs, place⟩
  · simp only [caughtPoint, pushAll_eq, Stack.truncate, List.mem_append, List.mem_reverse,
      List.mem_map] at member
    rcases member with ⟨slot, listed, rfl⟩ | kept
    · rw [state_region listed] at place
      exact .inl (by rw [own, place])
    · exact .inr ⟨legacy, .inl ⟨cell, List.mem_of_mem_drop kept, tagged, place⟩⟩
  · simp only [caughtPoint, dialect, List.mem_cons] at member
    rcases member with rfl | below
    · exact .inl (by rw [own, place])
    · have before := setupBlocks_mem (List.mem_of_mem_tail below)
      exact .inr ⟨legacy, .inr ⟨block, before, runs, place⟩⟩

/-- A prologue that finds the bottom of the stack of an instruction leaves what its exceptional edge
carries. -/
theorem prologued_refines {r : Region} (placing : Placing plan r) (stamp : Nat) (p : Point)
    {slots : List Slot} (bottom : slots = (outlineAt absent plan p).stack.drop
      ((outlineAt absent plan p).stack.length - r.depth.toInt.toNat)) :
    OutlineRefines ({ outlineAt absent plan p with stack := slots }.prologued r)
      (outlineAt absent plan (caughtPoint stamp p r)) := by
  have below : ((p.shape.truncate r.depth).cells.map Cell.slot) = slots := by
    rw [bottom]
    simp [outlineAt, Stack.truncate, Stack.depth]
  refine ⟨?_, fun i => ?_, fun _ holds => holds⟩
  · have state : (outlineAt absent plan (caughtPoint stamp p r)).stack = r.state.reverse ++ slots := by
      simp only [outlineAt, caughtPoint, pushAll_eq, List.map_append, below, List.map_reverse,
        List.map_map]
      congr 2
      exact List.map_id _
    have owned : ∀ {kind other : Kind}, (∀ v, admits kind v = true → admits other v = true) →
        Refines (.ofKind kind) (.owned other r.id) :=
      fun wider v conforms => ⟨wider v conforms.kind, by rintro _ ⟨⟩⟩
    have rest : List.Forall₂ Refines slots slots := List.forall₂_same.mpr fun _ _ => .refl _
    have value : ∀ v, admits .exception v = true → admits .excValue v = true := by
      intro v
      cases v <;> exact id
    rw [state]
    unfold Outline.prologued Region.state
    cases r.dialect with
    | legacy =>
      exact .cons (owned fun _ => id) (.cons (owned value) (.cons (owned fun _ => id) rest))
    | modern =>
      cases r.lasti with
      | false => exact .cons (owned fun _ => id) rest
      | true => exact .cons (owned fun _ => id) (.cons (owned fun _ => id) rest)
  · have same : (caughtPoint stamp p r).shape.locals = p.shape.locals := by
      simp only [caughtPoint, pushAll_eq, Stack.truncate]
    by_cases inside : i < plan.function.localCount
    · have apart : ({ outlineAt absent plan p with stack := slots }.prologued r).locals i =
          (outlineAt absent plan p).locals i := by
        unfold Outline.prologued
        cases dialect : r.dialect with
        | legacy =>
          have outside := (placing.scratch (placing.dialect ▸ dialect)).2
          exact if_neg (by omega)
        | modern => rfl
      rw [apart]
      simp only [outlineAt, if_pos inside, same]
      exact fun _ conforms => conforms
    · simp only [outlineAt, if_neg inside]
      by_cases saved : saves plan (caughtPoint stamp p r) i = true
      · obtain ⟨dialect, either⟩ := saves_caught placing saved
        rw [if_pos saved]
        simp only [Outline.prologued, dialect]
        rcases either with equal | before
        · rw [if_pos equal]
          exact fun _ conforms => conforms
        · rw [if_pos before, if_neg inside, ite_self]
          exact fun _ conforms => conforms
      · rw [if_neg saved]
        exact localRefines_unbound _

theorem restore_follows {exits : Exits} (c : Context) (entry : Cleanup) {out : Outline}
    (saved : mayRaise (.loadLocal ((c.region? entry.block.region).getD default).scratch)
      (out.push (.ofKind .exception)) = false)
    (raise : exits.raise out) :
    Follows exits (restore c entry) (out.push (.ofKind .exception)) := by
  refine follows_quiet rfl rfl rfl ?_
  refine follows_quiet saved rfl rfl ?_
  refine follows_quiet rfl rfl rfl ?_
  exact ⟨fun _ => raise, nofun⟩

end Lowering.Proofs
