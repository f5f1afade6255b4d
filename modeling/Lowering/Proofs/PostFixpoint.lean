import Lowering.Proofs.Fixpoint

/-! The result of the analysis is a post-fixpoint of its own join: what an edge carries, unified with
what is known where it leads, gives what is known there. A known value that differs from itself would
be forgotten by every join, so that this needs the constants to be numbers. -/

namespace Lowering.Proofs
open Guest Shape Analysis

/-- Unifying the first stack with the second one gives the second one. -/
def Below (a b : Stack) : Prop :=
  ∀ stamp, ∃ merged, Stack.unify stamp a b = .ok merged ∧ merged.same b = true

/-- Known values do not differ from themselves. -/
def Steady (slot : Slot) : Prop := agree slot.known slot.known = true

structure Firm (s : Stack) : Prop where
  cells : ∀ cell ∈ s.cells, Steady cell.slot
  locals : ∀ slot ∈ s.locals, Steady slot

theorem Fades.steady {a b : Option Known} (fades : Fades a b) (steady : agree a a = true) :
    agree b b = true := by
  rcases fades with rfl | rfl | agrees
  · rfl
  · exact steady
  · exact agree_euclidean agrees agrees

private theorem Widens.steady {a b : Slot} (widens : Widens a b) (steady : Steady a) : Steady b := by
  cases widens with
  | fades _ _ known => exact known.steady steady
  | object => rfl

private theorem LocalWidens.steady {a b : Slot} (widens : LocalWidens a b) (steady : Steady a) :
    Steady b := by
  cases widens with
  | fades _ _ known => exact known.steady steady
  | unbound => rfl
  | object => rfl

theorem steady_local {locals : List Slot} (steady : ∀ slot ∈ locals, Steady slot) (i : Nat) :
    Steady (localSlot locals i) := by
  unfold localSlot
  rw [List.getD_eq_getElem?_getD]
  cases found : locals[i]? with
  | none => rfl
  | some slot => exact steady slot (List.mem_of_getElem? found)

/-- What widens stays firm. -/
theorem ShapeWidens.firm {s t : Stack} (widens : ShapeWidens s t) (firm : Firm s) : Firm t := by
  constructor
  · intro cell member
    obtain ⟨before, present, kept⟩ := widens.origin member
    exact kept.steady (firm.cells before present)
  · intro slot member
    obtain ⟨i, found⟩ := List.mem_iff_getElem?.mp member
    have kept := (widens.locals i).steady (steady_local firm.locals i)
    rwa [localSlot, List.getD_eq_getElem?_getD, found] at kept

private theorem forget_same {a b : Slot} (kind : a.kind = b.kind) (region : a.region = b.region)
    (fades : Fades a.known b.known) (steady : Steady b) : (a.forget b).same b = true := by
  unfold Slot.forget
  split
  next agrees => simp [Slot.same, kind, region, agrees]
  next differs =>
    rcases fades with none | same | agrees
    · simp [Slot.same, kind, region, none, agree]
    · rw [same] at differs
      exact absurd steady differs
    · exact absurd agrees differs

private theorem merge?_same {a b : Slot} (widens : Widens a b) (steady : Steady b) :
    ∃ c, a.merge? b = some c ∧ c.same b = true := by
  unfold Slot.merge?
  cases widens with
  | fades kind region known =>
    exact ⟨_, by rw [if_pos (by simp [kind, region])], forget_same kind region known steady⟩
  | object free value =>
    by_cases kind : a.kind = .object
    · refine ⟨_, by rw [if_pos (by simp [kind, free, Slot.ofKind])], ?_⟩
      exact forget_same kind free (.inl rfl) steady
    · refine ⟨.ofKind .object, ?_, by decide⟩
      have widens : Kind.object.widens = true := rfl
      rw [if_neg (by simp [kind, Slot.ofKind]), if_pos (by simp [free, value, widens, Slot.ofKind])]

private theorem mergeLocal_same {a b : Slot} (widens : LocalWidens a b) (steady : Steady b) :
    (a.mergeLocal b).same b = true := by
  unfold Slot.mergeLocal
  cases widens with
  | fades kind region known =>
    rw [if_pos (by simp [kind, region])]
    exact forget_same kind region known steady
  | unbound =>
    split
    next alike =>
      simp only [Bool.and_eq_true, beq_iff_eq] at alike
      exact forget_same alike.1 alike.2 (.inl rfl) steady
    next =>
      rw [if_pos (by simp [Slot.ofKind])]
      decide
  | object bound =>
    split
    next alike =>
      simp only [Bool.and_eq_true, beq_iff_eq] at alike
      exact forget_same alike.1 alike.2 (.inl rfl) steady
    next =>
      rw [if_neg (by simp [Slot.ofKind, bound])]
      decide

private theorem sameCells_refl (cells : List Cell) : Stack.sameCells cells cells = true := by
  cases cells with
  | nil => rfl
  | cons cell rest => simp [Stack.sameCells]

private theorem sameCells_cons {a b : Cell} {as bs : List Cell} (same : a.slot.same b.slot = true)
    (rest : Stack.sameCells as bs = true) : Stack.sameCells (a :: as) (b :: bs) = true := by
  rw [Stack.sameCells]
  split
  · rfl
  · simp [same, rest]

private theorem mergeCells_same {a b : List Cell} (stamp : Nat)
    (widens : List.Forall₂ (fun a b => Widens a.slot b.slot) a b)
    (steady : ∀ cell ∈ b, Steady cell.slot) : ∃ slots shared,
      Stack.mergeCells a b = .ok (slots, shared) ∧
        Stack.sameCells (slots.map (Cell.mk stamp) ++ shared) b = true := by
  induction widens with
  | nil => exact ⟨[], [], rfl, rfl⟩
  | @cons a b as bs head _ ih =>
    rw [Stack.mergeCells]
    split
    · next shared => exact ⟨[], _, rfl, shared ▸ sameCells_refl _⟩
    · obtain ⟨slots, shared, merged, same⟩ :=
        ih fun cell member => steady cell (List.mem_cons_of_mem _ member)
      obtain ⟨slot, found, alike⟩ := merge?_same head (steady b List.mem_cons_self)
      rw [found]
      dsimp only
      rw [merged]
      exact ⟨slot :: slots, shared, rfl, sameCells_cons alike same⟩

private theorem mergeLocals_same {a b : List Slot} (wide : a.length ≤ b.length)
    (widens : ∀ i, LocalWidens (localSlot a i) (localSlot b i)) (steady : ∀ slot ∈ b, Steady slot) :
    Stack.sameLocals (Stack.mergeLocals a b) b = true := by
  induction b generalizing a with
  | nil =>
    cases a with
    | nil => simp [Stack.mergeLocals, Stack.sameLocals]
    | cons => cases wide
  | cons b bs ih =>
    have first := mergeLocal_same (widens 0) (steady b List.mem_cons_self)
    have others : ∀ slot ∈ bs, Steady slot := fun slot member =>
      steady slot (List.mem_cons_of_mem _ member)
    cases a with
    | nil =>
      have rest := ih (a := []) (Nat.zero_le _) (fun i => widens (i + 1)) others
      rw [Stack.mergeLocals] at rest ⊢
      rw [List.map_cons, Stack.sameLocals, Bool.and_eq_true]
      exact ⟨first, rest⟩
    | cons a as =>
      have rest := ih (a := as) (Nat.le_of_succ_le_succ wide) (fun i => widens (i + 1)) others
      rw [Stack.mergeLocals, Stack.sameLocals, Bool.and_eq_true]
      exact ⟨first, rest⟩

theorem ShapeWidens.below {s t : Stack} (widens : ShapeWidens s t) (firm : Firm t) : Below s t := by
  intro stamp
  obtain ⟨slots, shared, merged, same⟩ := mergeCells_same stamp widens.cells firm.cells
  refine ⟨⟨slots.map (Cell.mk stamp) ++ shared, Stack.mergeLocals s.locals t.locals⟩, ?_, ?_⟩
  · have depth : s.depth = t.depth := widens.cells.length_eq
    simp [Stack.unify, depth, merged]
  · rw [Stack.same, Bool.and_eq_true]
    exact ⟨same, mergeLocals_same widens.wide widens.locals firm.locals⟩

variable {plan : Plan} {bound : Array Bound} {last : Analysis.State}

/-- An edge of an instruction of an analysed function: where it leads, if anywhere, and what it
carries there. -/
inductive EdgeOf (plan : Plan) (bound : Array Bound) (last : Analysis.State) (i : Nat) :
    Option Nat → Point → Prop
  | falls {o : Bound} {p : Point} {stamp : Nat} {flow : Flow} {next : List Block}
      {st : Analysis.State} (found : bound[i]? = some o) (known : last.point? i = some p)
      (flows : o.flow plan stamp p.shape = .ok flow)
      (after : blocksAfter plan last i o p = .ok (next, st)) (through : flow.falls = true) :
      EdgeOf plan bound last i (some (i + 1)) ⟨flow.next, next⟩
  | branch {o : Bound} {p : Point} {stamp : Nat} {flow : Flow} {next : List Block}
      {st : Analysis.State} {e : Edge} (found : bound[i]? = some o) (known : last.point? i = some p)
      (flows : o.flow plan stamp p.shape = .ok flow)
      (after : blocksAfter plan last i o p = .ok (next, st)) (listed : e ∈ flow.branches)
      (plain : e.handler = false) :
      EdgeOf plan bound last i (plan.function.indexOf? e.target) ⟨e.shape, next⟩
  | setup {o : Bound} {p : Point} {stamp : Nat} {flow : Flow} {e : Edge} {r : Region}
      (found : bound[i]? = some o) (known : last.point? i = some p)
      (flows : o.flow plan stamp p.shape = .ok flow) (listed : e ∈ flow.branches)
      (handler : e.handler = true) (region : plan.setupRegion? o.inst.offset = some r) :
      EdgeOf plan bound last i (plan.function.indexOf? e.target) ⟨e.shape, ⟨r.id, true⟩ :: p.blocks⟩
  | raises {o : Bound} {p : Point} {r : Region} (stamp : Nat) (found : bound[i]? = some o)
      (known : last.point? i = some p) (protects : protecting? plan last i p = some r)
      (raises : o.opcode.mayRaise = true) :
      EdgeOf plan bound last i (plan.function.indexOf? r.handler) (caughtPoint stamp p r)

/-- An instruction that edges lead to from the first one. -/
inductive Traced (plan : Plan) (bound : Array Bound) (last : Analysis.State) : Nat → Prop
  | entry : Traced plan bound last 0
  | step {i j : Nat} {edge : Point} (before : Traced plan bound last i)
      (leads : EdgeOf plan bound last i (some j) edge) : Traced plan bound last j

private theorem widens_of_slots {s t : Stack} (slots : s.cells.map Cell.slot = t.cells.map Cell.slot)
    (locals : s.locals = t.locals) : ShapeWidens s t := by
  refine ⟨?_, locals ▸ Nat.le_refl _, fun i => locals ▸ .refl _⟩
  have same : List.Forall₂ Widens (s.cells.map Cell.slot) (t.cells.map Cell.slot) :=
    slots ▸ List.forall₂_same.mpr fun slot _ => .refl slot
  rwa [List.forall₂_map_left_iff, List.forall₂_map_right_iff] at same

private theorem piled_slots (s : Stack) (dropped : Nat) (pushed : List Slot) (a b : Nat) :
    (piled a s dropped pushed).map Cell.slot = (piled b s dropped pushed).map Cell.slot := by
  simp [piled, Function.comp_def]

private theorem flow_restamped {o : Bound} {s : Stack} {a b : Nat} {flow other : Flow}
    (flows : o.flow plan a s = .ok flow) (others : o.flow plan b s = .ok other) :
    flow.falls = other.falls ∧ ShapeWidens flow.next other.next ∧ ∀ e ∈ flow.branches,
      ∃ f ∈ other.branches, f.target = e.target ∧ f.handler = e.handler ∧
        ShapeWidens e.shape f.shape := by
  obtain ⟨f, _, form⟩ := flow_form flows
  have first := form a
  have second := form b
  rw [flows] at first
  rw [others] at second
  cases first
  cases second
  refine ⟨rfl, widens_of_slots (piled_slots ..) rfl, fun e listed => ?_⟩
  obtain ⟨l, member, rfl⟩ := List.mem_map.mp listed
  exact ⟨l.edge b s, List.mem_map_of_mem member, rfl, rfl, widens_of_slots (piled_slots ..) rfl⟩

private theorem caught_restamped (a b : Nat) (p : Point) (r : Region) :
    ShapeWidens (caughtPoint a p r).shape (caughtPoint b p r).shape := by
  simp only [caughtPoint, pushAll_eq]
  exact widens_of_slots (by simp [Function.comp_def]) rfl

theorem blocksAfter_ok {i : Nat} {o : Bound} {p : Point} {next : List Block}
    (numbered : Numbered last.regions) (turns : Turns plan o p.blocks next)
    (fixes : Fixes plan last.regions o p) : ∃ st, blocksAfter plan last i o p = .ok (next, st) := by
  generalize same : p.blocks = blocks at turns
  unfold blocksAfter
  cases turns with
  | opens setup found =>
    obtain ⟨r, s, own, present, depth⟩ := fixes setup
    rw [found] at own
    cases own
    have number := (regionIn?_spec numbered present).1
    simp [setup, found, present, depth, same, number]
  | closes pops => simp [pops, same]
  | leaves pops legacy => simp [pops, legacy, same]
  | keeps setup pops modern =>
    split
    · next opcode => exact absurd opcode setup
    · next opcode => exact absurd opcode pops
    · next opcode =>
      rw [modern opcode, same]
      exact ⟨_, rfl⟩
    · exact ⟨last, by rw [same]⟩

private theorem point_lt {i : Nat} {p : Point} (known : last.point? i = some p) :
    i < last.points.size := by
  unfold Analysis.State.point? at known
  cases found : last.points[i]? with
  | none =>
    rw [found] at known
    cases known
  | some => exact (Array.getElem?_eq_some_iff.mp found).1

theorem index_some {fn : Function} {offset : Int64} (somewhere : (fn.indexOf? offset).isSome) :
    fn.indexOf? offset = some (indexOf fn offset) := by
  obtain ⟨j, found⟩ := Option.isSome_iff_exists.mp somewhere
  simp [indexOf, found]

theorem edge_target (planned : Planned plan bound) {i stamp : Nat} {o : Bound} {s : Stack}
    {flow : Flow} {e : Edge} (found : bound[i]? = some o) (flows : o.flow plan stamp s = .ok flow)
    (listed : e ∈ flow.branches) : (plan.function.indexOf? e.target).isSome := by
  obtain ⟨target, jumps, _⟩ := (flow_edges flows).2 e listed
  obtain ⟨_, made⟩ := planned.bounds found
  obtain ⟨_, _, _, checked⟩ := ofInstruction_spec made
  rw [target]
  exact jumps_somewhere checked jumps

/-- Every edge was followed. -/
theorem EdgeOf.covered (planned : Planned plan bound) (stable : Stable plan bound last)
    {i : Nat} {target : Option Nat} {q : Point} (edge : EdgeOf plan bound last i target q) :
    ∃ j, target = some j ∧ j < plan.function.instructions.size ∧ Covers last j q := by
  have numbered := planned.numbered.later stable.regions
  have inside : ∀ offset, indexOf plan.function offset < plan.function.instructions.size :=
    indexOf_lt planned.positive
  -- What the flow of an instruction carries is covered whatever stamp it has.
  have widened : ∀ {j : Nat} {s t : Stack} {blocks : List Block}, ShapeWidens s t →
      Covers last j ⟨t, blocks⟩ → Covers last j ⟨s, blocks⟩ := by
    rintro j s t blocks wider ⟨q, known, same, covers⟩
    exact ⟨q, known, same, wider.trans covers⟩
  cases edge with
  | falls found known flows after through =>
    obtain ⟨_, other, next, others, turns, _, covered⟩ := (stable.processed i _ _ found known).flows
    obtain ⟨_, same⟩ := blocksAfter_ok numbered turns (stable.processed i _ _ found known).fixes
    rw [after] at same
    cases same
    obtain ⟨falls, wider, _⟩ := flow_restamped flows others
    obtain ⟨inside, covers⟩ := covered (falls ▸ through)
    exact ⟨_, rfl, inside, widened wider covers⟩
  | @branch o p stamp flow next st e found known flows after listed plain =>
    obtain ⟨_, other, _, others, turns, covered, _⟩ := (stable.processed i _ _ found known).flows
    obtain ⟨_, same⟩ := blocksAfter_ok numbered turns (stable.processed i _ _ found known).fixes
    rw [after] at same
    cases same
    obtain ⟨f, member, target, handler, wider⟩ := (flow_restamped flows others).2.2 e listed
    obtain ⟨_, covers⟩ := covered f member
    rw [edgeBlocks, if_neg (by simp [handler, plain]), target] at covers
    exact ⟨_, index_some (edge_target planned found flows listed), inside _, widened wider covers⟩
  | @setup o p stamp flow e r found known flows listed handles region =>
    obtain ⟨_, other, _, others, _, covered, _⟩ := (stable.processed i _ _ found known).flows
    obtain ⟨f, member, target, handler, wider⟩ := (flow_restamped flows others).2.2 e listed
    obtain ⟨_, covers⟩ := covered f member
    rw [edgeBlocks, if_pos (handler.trans handles), target, region] at covers
    exact ⟨_, index_some (edge_target planned found flows listed), inside _, widened wider covers⟩
  | @raises o p r stamp found known protects raises =>
    obtain ⟨_, rooted, _⟩ := stable.sane i p known
    obtain ⟨member, _⟩ := protecting?_spec planned stable.regions rooted protects
    obtain ⟨_, covered⟩ := (stable.processed i o p found known).raises r protects
    obtain ⟨_, other, covers⟩ := covered raises
    refine ⟨_, index_some ?_, inside _, widened (caught_restamped stamp other p r) covers⟩
    obtain ⟨drafted, before, grown⟩ := regionIn?_earlier stable.regions (numbered.find member)
    rw [grown.handler]
    exact (planned.regions drafted (regionIn?_mem before)).handler

/-- Wherever control may go, an edge leads. -/
theorem Leads.edge (planned : Planned plan bound) (stable : Stable plan bound last) {i j : Nat}
    {p : Point} (known : last.point? i = some p) (leads : Leads plan bound last i j) :
    ∃ edge, EdgeOf plan bound last i (some j) edge := by
  have numbered := planned.numbered.later stable.regions
  cases leads with
  | @falls o found through =>
    have processed := stable.processed i o p found known
    obtain ⟨_, flow, next, flows, turns, _, covered⟩ := processed.flows
    obtain ⟨_, after⟩ := blocksAfter_ok numbered turns processed.fixes
    exact ⟨_, .falls found known flows after (by simp [(flow_edges flows).1, through])⟩
  | @jumps o found jumps =>
    have processed := stable.processed i o p found known
    obtain ⟨_, flow, next, flows, turns, _, _⟩ := processed.flows
    obtain ⟨_, after⟩ := blocksAfter_ok numbered turns processed.fixes
    obtain ⟨e, listed, target⟩ := flow_jumps flows jumps
    rw [← target, ← index_some (edge_target planned found flows listed)]
    cases handler : e.handler with
    | true =>
      obtain ⟨r, region, _⟩ := flow_handler flows listed handler
      exact ⟨_, .setup found known flows listed handler region⟩
    | false => exact ⟨_, .branch found known flows after listed handler⟩
  | @raises o q r found present protects raises =>
    have edge : EdgeOf plan bound last i (plan.function.indexOf? r.handler) (caughtPoint 0 q r) :=
      .raises 0 found present protects raises
    obtain ⟨j, place, _⟩ := edge.covered planned stable
    rw [place] at edge
    exact ⟨_, by simpa [indexOf, place] using edge⟩

/-- No constant differs from itself. -/
def Numbers (fn : Function) : Prop := ∀ x, Value.float x ∈ fn.constants → x.isNaN = false

theorem steady_number {x : Float} (number : x.isNaN = false) : (x == x) = true := by
  have known := isKnown_float x
  simpa only [isKnown, number, Bool.and_self, Bool.or_false] using known

private theorem constant_steady {fn : Function} (numbers : Numbers fn) (i : Nat) :
    Steady (.ofConstant (fn.constants.getD i .none)) := by
  have steady : ∀ v, (v = .none ∨ v ∈ fn.constants) → Steady (.ofConstant v) := by
    intro v listed
    cases v with
    | float x => exact steady_number (numbers x (listed.resolve_left nofun))
    | bool | int | word | str => simp [Steady, Slot.ofConstant, agree, Known.agrees]
    | _ => rfl
  apply steady
  rw [Array.getD_eq_getD_getElem?]
  cases found : fn.constants[i]? with
  | none => exact .inl rfl
  | some v => exact .inr (Array.mem_of_getElem? found)

private theorem Drawn.steady {s : Stack} {slot : Slot} (numbers : Numbers plan.function)
    (firm : Firm s) (drawn : Drawn plan s slot) : Steady slot := by
  cases drawn with
  | kind => rfl
  | constant i => exact constant_steady numbers i
  | moved member => exact firm.cells _ member
  | copied member => exact firm.cells _ member
  | loaded i =>
    unfold Stack.local?
    split
    · rfl
    · exact steady_local firm.locals i.toInt.toNat
  | saved => rfl

private theorem setLocal_steady {s : Stack} {slot : Slot} (firm : Firm s) (steady : Steady slot)
    (i : Nat) : ∀ other ∈ (s.setLocal i slot).locals, Steady other := by
  intro other member
  simp only [Stack.setLocal, Stack.withLocals] at member
  rcases List.mem_or_eq_of_mem_set member with kept | rfl
  · rcases List.mem_append.mp kept with old | new
    · exact firm.locals other (List.mem_of_mem_take old)
    · rw [List.eq_of_mem_replicate new]
      rfl
  · exact steady

private theorem piled_steady {s : Stack} (firm : Firm s) {pushed : List Slot}
    (steady : ∀ slot ∈ pushed, Steady slot) (stamp dropped : Nat) :
    ∀ cell ∈ piled stamp s dropped pushed, Steady cell.slot := by
  intro cell member
  rcases List.mem_append.mp member with new | old
  · obtain ⟨slot, listed, rfl⟩ := List.mem_map.mp (List.mem_reverse.mp new)
    exact steady slot listed
  · exact firm.cells cell (List.mem_of_mem_drop old)

private theorem state_steady {r : Region} : ∀ slot ∈ r.state, Steady slot := by
  intro slot member
  unfold Region.state at member
  split at member
  · simp only [List.mem_cons, List.not_mem_nil, or_false] at member
    rcases member with rfl | rfl | rfl <;> rfl
  · split at member <;> simp only [List.mem_cons, List.not_mem_nil, or_false] at member
    · rcases member with rfl | rfl <;> rfl
    · rw [member]
      rfl

theorem flow_firm {o : Bound} {s : Stack} {stamp : Nat} {flow : Flow}
    (numbers : Numbers plan.function) (firm : Firm s) (flows : o.flow plan stamp s = .ok flow) :
    Firm flow.next ∧ ∀ e ∈ flow.branches, Firm e.shape := by
  obtain ⟨f, formed, form⟩ := flow_form flows
  have same := form stamp
  rw [flows] at same
  cases same
  refine ⟨⟨piled_steady firm (fun slot listed => (formed.pushed slot listed).steady numbers firm) _ _,
    ?_⟩, fun e listed => ?_⟩
  · rcases formed.locals with locals | ⟨_, slot, drawn, _, locals⟩
    · intro other member
      exact firm.locals other (locals ▸ member)
    · intro other member
      have stored : other ∈ f.locals := member
      rw [locals] at stored
      exact setLocal_steady firm (drawn.steady numbers firm) _ other stored
  · obtain ⟨l, member, rfl⟩ := List.mem_map.mp listed
    refine ⟨piled_steady firm (fun slot pushed => ?_) _ _, firm.locals⟩
    obtain ⟨_, _, plain, setup⟩ := formed.leaps l member
    cases handler : l.handler with
    | true =>
      obtain ⟨_, _, r, _, state⟩ := setup handler
      exact state_steady slot (state ▸ pushed)
    | false =>
      rw [plain handler] at pushed
      cases pushed

private theorem EdgeOf.firm (numbers : Numbers plan.function) {i : Nat} {target : Option Nat}
    {p q : Point} (known : last.point? i = some p) (firm : Firm p.shape)
    (edge : EdgeOf plan bound last i target q) : Firm q.shape := by
  cases edge with
  | falls _ present flows =>
    rw [known] at present
    cases present
    exact (flow_firm numbers firm flows).1
  | branch _ present flows _ listed =>
    rw [known] at present
    cases present
    exact (flow_firm numbers firm flows).2 _ listed
  | setup _ present flows listed =>
    rw [known] at present
    cases present
    exact (flow_firm numbers firm flows).2 _ listed
  | raises stamp _ present =>
    rw [known] at present
    cases present
    simp only [caughtPoint, pushAll_eq]
    exact ⟨piled_steady firm state_steady stamp _, firm.locals⟩

private theorem entry_firm (localCount : Nat) (argCount : Int64) :
    Firm (Stack.entry localCount argCount) := by
  refine ⟨nofun, fun slot member => ?_⟩
  rcases List.mem_append.mp member with bound | free
  · rw [List.eq_of_mem_replicate bound]
    rfl
  · rw [List.eq_of_mem_replicate free]
    rfl

/-- All that is known is steady, by induction on the way control takes to it. -/
theorem Linked.firm (planned : Planned plan bound) (stable : Stable plan bound last)
    (numbers : Numbers plan.function) {i : Nat} {p : Point} (linked : Linked plan bound last i)
    (known : last.point? i = some p) : Firm p.shape := by
  induction linked generalizing p with
  | entry =>
    obtain ⟨q, present, _, widens⟩ := stable.entry
    rw [known] at present
    cases present
    exact widens.firm (entry_firm _ _)
  | step _ before leads ih =>
    obtain ⟨edge, carried⟩ := leads.edge planned stable before
    obtain ⟨_, same, _, q, present, _, widens⟩ := carried.covered planned stable
    cases same
    rw [known] at present
    cases present
    exact widens.firm (carried.firm numbers before (ih before))

private theorem Linked.traced (planned : Planned plan bound) (stable : Stable plan bound last)
    {i : Nat} (linked : Linked plan bound last i) : Traced plan bound last i := by
  induction linked with
  | entry => exact .entry
  | step _ before leads ih =>
    obtain ⟨_, carried⟩ := leads.edge planned stable before
    exact .step ih carried

/-- The analysis ends in a post-fixpoint. What is known before the first instruction is above the
entry; whatever an edge carries is below what is known where it leads, with the same blocks; and
nothing is known where no edges lead. -/
theorem analysis_postfixpoint {fn : Function} (numbers : Numbers fn)
    (prepared : prepare fn = .ok (plan, bound, last)) :
    (∃ p, last.point? 0 = some p ∧ Below (Stack.entry fn.localCount fn.argCount) p.shape) ∧
    (∀ i p, last.point? i = some p → ∃ o, bound[i]? = some o ∧
      (∀ stamp, ∃ flow, o.flow plan stamp p.shape = .ok flow) ∧
      (∃ next st, blocksAfter plan last i o p = .ok (next, st)) ∧
      ∀ target edge, EdgeOf plan bound last i target edge → ∃ j q, target = some j ∧
        j < fn.instructions.size ∧ last.point? j = some q ∧ Below edge.shape q.shape ∧
        q.blocks = edge.blocks) ∧
    ∀ i p, last.point? i = some p → Traced plan bound last i := by
  obtain ⟨rfl, planned, analysed⟩ := prepare_planned prepared
  have stable := analyze_stable planned analysed
  have firm : ∀ {i : Nat} {p : Point}, last.point? i = some p → Firm p.shape := fun known =>
    (stable.sane _ _ known).2.2.firm planned stable numbers known
  refine ⟨?_, fun i p known => ?_, fun i p known =>
    (stable.sane i p known).2.2.traced planned stable⟩
  · obtain ⟨p, known, _, widens⟩ := stable.entry
    exact ⟨p, known, widens.below (firm known)⟩
  · have inside : i < bound.size := by
      rw [planned.size, ← stable.size]
      exact point_lt known
    have found : bound[i]? = some bound[i] := Array.getElem?_eq_getElem inside
    have processed := stable.processed i _ p found known
    obtain ⟨_, _, next, flows, turns, _⟩ := processed.flows
    obtain ⟨f, _, form⟩ := flow_form flows
    refine ⟨_, found, fun stamp => ⟨_, form stamp⟩,
      ⟨next, blocksAfter_ok (planned.numbered.later stable.regions) turns processed.fixes⟩,
      fun target edge carried => ?_⟩
    obtain ⟨j, leads, exists_, q, present, blocks, widens⟩ := carried.covered planned stable
    exact ⟨j, q, leads, exists_, present, widens.below (firm present), blocks⟩

/-- A function that keeps storing a number where its argument was. -/
def spinning : Function where
  name := "f"
  version := ⟨3, 9⟩
  argCount := 1
  localNames := #["a"]
  constants := #[.int 1]
  instructions := #[{ offset := 0, code := Opcode.loadConst.code },
    { offset := 2, code := Opcode.storeFast.code },
    { offset := 4, code := Opcode.jumpAbsolute.code }]

theorem spinning_postfixpoint : ∃ plan bound last q, prepare spinning = .ok (plan, bound, last) ∧
    last.point? 0 = some q ∧ Below ⟨[], [⟨.int, some (.int 1), 0⟩]⟩ q.shape := by
  obtain ⟨plan, bound, last, prepared, p, o, flow, found, known, flows, after, branches⟩ :
      ∃ plan bound last, prepare spinning = .ok (plan, bound, last) ∧ ∃ p o flow,
        bound[2]? = some o ∧ last.point? 2 = some p ∧ o.flow plan 0 p.shape = .ok flow ∧
        blocksAfter plan last 2 o p = .ok ([], last) ∧
        flow.branches = [⟨0, ⟨[], [⟨.int, some (.int 1), 0⟩]⟩, false⟩] := by
    have checked : preparesTo spinning (fun plan bound last =>
        (bound[2]?).any fun o : Bound => o.opcode == .jumpAbsolute && (last.point? 2).any fun p =>
          p.blocks == [] && (o.flow plan 0 p.shape).toOption.any fun flow =>
            flow.branches == [⟨0, ⟨[], [⟨.int, some (.int 1), 0⟩]⟩, false⟩]) = true := by decide +kernel
    obtain ⟨plan, bound, last, prepared, holds⟩ := preparesTo_spec checked
    simp only [Bool.and_eq_true, beq_iff_eq, Option.any_eq_true] at holds
    obtain ⟨o, found, jumps, p, known, blocks, flow, flows, branches⟩ := holds
    exact ⟨plan, bound, last, prepared, p, o, flow, found, known, ok_of_toOption flows,
      by simp [blocksAfter, jumps, blocks], branches⟩
  have function : plan.function = spinning := (prepare_planned prepared).1
  have edge : EdgeOf plan bound last 2 (plan.function.indexOf? 0) _ := .branch found known flows after
    (by rw [branches]; exact List.mem_cons_self) rfl
  have numbers : Numbers spinning := by
    intro x listed
    simp [spinning] at listed
  obtain ⟨_, _, _, _, edges⟩ := (analysis_postfixpoint numbers prepared).2.1 2 p known
  obtain ⟨j, q, leads, _, point, below, _⟩ := edges _ _ edge
  have first : spinning.indexOf? 0 = some 0 := by cbv
  rw [function, first] at leads
  cases leads
  exact ⟨plan, bound, last, q, prepared, point, below⟩

end Lowering.Proofs
