import Lowering.Proofs.Loosening
import Lowering.Proofs.Pacing

/-! The order of processing. Whatever the order, an analysis stays below every other one that ended:
flows are monotone, and a merge of two shapes below a third one stays below it, unless slots meet that
do not merge. That happens only where a local has turned into an object although its kind does not
widen; otherwise all orders come to the same result. -/

namespace Lowering.Proofs
open Guest Shape Analysis

section
variable {may : Kind → Prop}

private theorem Fades.agree {a b : Option Known} (fades : Fades a b) (steady : Shape.agree b b = true) :
    b = Option.none ∨ Shape.agree a b = true := by
  rcases fades with none | same | agrees
  · exact .inl none
  · exact .inr (same ▸ steady)
  · exact .inr agrees

private theorem forget_fades {a b : Slot} {known : Option Known} (steady : agree known known = true)
    (first : Fades a.known known) (second : Fades b.known known) :
    Fades (a.forget b).known known := by
  unfold Slot.forget
  split
  · exact first
  · next differs =>
    rcases first.agree steady with none | agrees
    · exact .inl none
    · rcases second.agree steady with none | other
      · exact .inl none
      · exact absurd (agree_trans agrees (agree_symm other)) differs

private theorem forget_shape (a b : Slot) :
    (a.forget b).kind = a.kind ∧ (a.forget b).region = a.region := by
  unfold Slot.forget
  split <;> exact ⟨rfl, rfl⟩

private theorem Loosens.known {a b : Slot} (loosens : Loosens may a b) : Fades a.known b.known := by
  cases loosens with
  | fades _ _ known => exact known
  | object => exact .inl rfl

private theorem LocalLoosens.known {a b : Slot} (loosens : LocalLoosens may a b) :
    Fades a.known b.known := by
  cases loosens with
  | fades _ _ known => exact known
  | unbound => exact .inl rfl
  | object => exact .inl rfl

/-- Two slots of the stack below a third one merge below it, or one of them has a kind that may turn
into an object but does not widen. -/
private theorem merge?_loosens {a b c : Slot} (steady : Steady c) (first : Loosens may a c)
    (second : Loosens may b c) : (∃ merged, a.merge? b = some merged ∧ Loosens may merged c) ∨
      a.merge? b = none ∧ ∃ kind, may kind ∧ kind.widens = false := by
  unfold Slot.merge?
  by_cases alike : a.kind = b.kind ∧ a.region = b.region
  · rw [if_pos (by simpa using alike)]
    refine .inl ⟨_, rfl, ?_⟩
    obtain ⟨kind, region⟩ := forget_shape a b
    have known := forget_fades steady first.known second.known
    cases first with
    | fades same owner => exact .fades (kind.trans same) (region.trans owner) known
    | object free value => exact .object (region.trans free) (kind ▸ value)
  · rw [if_neg (by simpa using alike)]
    -- Slots that differ have both turned into objects, or one of them is one.
    have object : c = .ofKind .object ∧ a.region = 0 ∧ b.region = 0 ∧
        (a.kind = .object ∨ may a.kind) ∧ (b.kind = .object ∨ may b.kind) := by
      cases first with
      | fades kind region =>
        cases second with
        | fades kind' region' => exact absurd ⟨kind.trans kind'.symm, region.trans region'.symm⟩ alike
        | object free value => exact ⟨rfl, region, free, .inl kind, .inr value⟩
      | object free value =>
        refine ⟨rfl, free, second.region, .inr value, ?_⟩
        cases second with
        | fades kind => exact .inl kind
        | object _ value => exact .inr value
    obtain ⟨rfl, free, also, left, right⟩ := object
    have narrow : ∀ {kind : Kind}, kind = .object ∨ may kind → kind.widens = false →
        ∃ kind, may kind ∧ kind.widens = false := by
      rintro kind (rfl | allowed) narrow
      · cases narrow
      · exact ⟨kind, allowed, narrow⟩
    by_cases wide : a.kind.widens = true ∧ b.kind.widens = true
    · rw [if_pos (by simp [wide, free, also])]
      exact .inl ⟨_, rfl, .refl _⟩
    · rw [if_neg (by simpa [free, also] using wide)]
      refine .inr ⟨rfl, ?_⟩
      cases widens : a.kind.widens with
      | false => exact narrow left widens
      | true => exact narrow right (by simpa [widens] using wide)

theorem mergeLocal_loosens (latitude : Latitude may) {a b c : Slot} (steady : Steady c)
    (first : LocalLoosens may a c) (second : LocalLoosens may b c) :
    LocalLoosens may (a.mergeLocal b) c := by
  unfold Slot.mergeLocal
  by_cases alike : a.kind = b.kind ∧ a.region = b.region
  · rw [if_pos (by simpa using alike)]
    obtain ⟨kind, region⟩ := forget_shape a b
    have known := forget_fades steady first.known second.known
    cases first with
    | fades same owner => exact .fades (kind.trans same) (region.trans owner) known
    | unbound lost => exact .unbound (kind ▸ lost)
    | object value => exact .object (kind ▸ value)
  · rw [if_neg (by simpa using alike)]
    cases first with
    | fades kind region =>
      cases second with
      | fades kind' region' => exact absurd ⟨kind.trans kind'.symm, region.trans region'.symm⟩ alike
      | unbound =>
        rw [if_pos (by simp [kind, Slot.ofKind])]
        exact .refl _
      | object value =>
        have bound : b.kind ≠ .unbound := fun unbound => latitude.bound (unbound ▸ value)
        rw [if_neg (by simp [kind, Slot.ofKind, bound])]
        exact .refl _
    | unbound lost =>
      split
      · exact .refl _
      · exact .unbound (.inr (latitude.widens _ rfl))
    | object value =>
      have bound : a.kind ≠ .unbound := fun unbound => latitude.bound (unbound ▸ value)
      have also : b.kind ≠ .unbound := by
        intro unbound
        cases second with
        | fades kind =>
          rw [unbound] at kind
          cases kind
        | object value => exact latitude.bound (unbound ▸ value)
      rw [if_neg (by simp [bound, also])]
      exact .refl _

theorem mergeCells_loosens (stamp : Nat) {a b c : List Cell}
    (steady : ∀ cell ∈ c, Steady cell.slot) (first : CellsLoosen may a c) (second : CellsLoosen may b c) :
    match Stack.mergeCells a b with
    | .ok (slots, shared) => CellsLoosen may (slots.map (Cell.mk stamp) ++ shared) c
    | .error (position, _) => position < c.length ∧ ∃ kind, may kind ∧ kind.widens = false := by
  unfold CellsLoosen at *
  induction first generalizing b with
  | nil =>
    cases second
    exact .nil
  | @cons x z as cs head rest ih =>
    cases second with
    | @cons y _ bs _ other others =>
      have tail := ih (fun cell member => steady cell (List.mem_cons_of_mem _ member)) others
      have length : as.length = cs.length := rest.length_eq
      rw [Stack.mergeCells]
      by_cases shared : x :: as = y :: bs
      · rw [if_pos shared]
        exact .cons head rest
      · rw [if_neg shared]
        rcases merge?_loosens (steady z List.mem_cons_self) head other with
          ⟨merged, found, looser⟩ | ⟨refused, narrow⟩
        · rw [found]
          dsimp only
          cases result : Stack.mergeCells as bs with
          | error e =>
            rw [result] at tail
            exact ⟨Nat.lt_succ_of_lt tail.1, tail.2⟩
          | ok merged =>
            rw [result] at tail
            exact .cons looser tail
        · rw [refused]
          exact ⟨by simp [length], narrow⟩

/-- A fault for slots that do not merge, in stacks of the same depth. -/
def Clash (fault : Fault) : Prop :=
  ∃ depth position left right, 0 ≤ position ∧ fault = .conflict depth depth position left right

theorem unify_loosens (latitude : Latitude may) {stamp : Nat} {a b c : Stack} (firm : Firm c)
    (small : c.depth ≤ addressable) (first : ShapeLoosens may a c) (second : ShapeLoosens may b c) :
    match Stack.unify stamp a b with
    | .ok merged => ShapeLoosens may merged c
    | .error fault => Clash fault ∧ ∃ kind, may kind ∧ kind.widens = false := by
  have cells := mergeCells_loosens stamp firm.cells first.cells second.cells
  have depth : a.depth = b.depth := first.depth.trans second.depth.symm
  unfold Stack.unify
  rw [if_neg (by simpa using depth)]
  cases result : Stack.mergeCells a.cells b.cells with
  | error e =>
    rw [result] at cells
    refine ⟨⟨a.height, Int64.ofNat e.1, e.2.1.text, e.2.2.text, ?_, ?_⟩, cells.2⟩
    · have inside := cells.1
      simp only [addressable, Stack.depth] at small
      exact Int64.zero_le_ofNat_of_lt (by omega)
    · simp only [Stack.height, depth]
  | ok merged =>
    rw [result] at cells
    refine ⟨cells, ?_, fun i => ?_⟩
    · rw [mergeLocals_length]
      exact Nat.max_le.mpr ⟨first.wide, second.wide⟩
    · rw [mergeLocals_slot]
      exact mergeLocal_loosens latitude (steady_local firm.locals i) (first.locals i) (second.locals i)

private theorem same_ofKind {a : Slot} {kind : Kind} (same : kind = a.kind) (region : 0 = a.region)
    (fades : Fades none a.known) : a.same (.ofKind kind) = true := by
  rw [faded_ofKind same region fades]
  simp [Slot.same, Slot.ofKind, agree]

private theorem fades_same {a b : Slot} (steady : Steady b) (kind : a.kind = b.kind)
    (region : a.region = b.region) (forth : Fades a.known b.known) (back : Fades b.known a.known) :
    a.same b = true := by
  have agrees : agree a.known b.known = true := by
    rcases forth.agree steady with none | agrees
    · rw [none] at back ⊢
      rw [back.none]
      rfl
    · exact agrees
  simp [Slot.same, kind, region, agrees]

private theorem Loosens.same {a b : Slot} (steady : Steady b) (forth : Loosens may a b)
    (back : Loosens may b a) : a.same b = true := by
  cases forth with
  | fades kind region known => exact fades_same steady kind region known back.known
  | object free =>
    have kind : a.kind = .object := by
      rcases back.kinds with same | object
      · exact same.symm
      · exact object
    exact same_ofKind kind.symm free.symm back.known

theorem LocalLoosens.same (latitude : Latitude may) {a b : Slot} (steady : Steady b)
    (forth : LocalLoosens may a b) (back : LocalLoosens may b a) : a.same b = true := by
  cases forth with
  | fades kind region known => exact fades_same steady kind region known back.known
  | unbound =>
    cases back with
    | fades kind region known => exact same_ofKind kind region known
    | unbound => decide
    | object value => exact absurd value latitude.bound
  | object value =>
    cases back with
    | fades kind region known => exact same_ofKind kind region known
    | unbound => exact absurd value latitude.bound
    | object => decide

theorem CellsLoosen.same {a b : List Cell} (steady : ∀ cell ∈ b, Steady cell.slot)
    (forth : CellsLoosen may a b) (back : CellsLoosen may b a) : Stack.sameCells a b = true := by
  unfold CellsLoosen at *
  induction forth with
  | nil => rfl
  | @cons x y as bs head rest ih =>
    cases back with
    | cons other others =>
      rw [Stack.sameCells]
      split
      · rfl
      · rw [Bool.and_eq_true]
        exact ⟨head.same (steady y List.mem_cons_self) other,
          ih (fun cell member => steady cell (List.mem_cons_of_mem _ member)) others⟩

theorem sameLocals_of_slots {a b : List Slot} (length : a.length = b.length)
    (same : ∀ i, (localSlot a i).same (localSlot b i) = true) : Stack.sameLocals a b = true := by
  induction a generalizing b with
  | nil =>
    cases b with
    | nil => rfl
    | cons => cases length
  | cons x as ih =>
    cases b with
    | nil => cases length
    | cons y bs =>
      rw [Stack.sameLocals, Bool.and_eq_true]
      exact ⟨same 0, ih (Nat.succ.inj length) fun i => same (i + 1)⟩

/-- Shapes that are below each other are the same. -/
theorem ShapeLoosens.same (latitude : Latitude may) {s t : Stack} (firm : Firm t)
    (forth : ShapeLoosens may s t) (back : ShapeLoosens may t s) : s.same t = true := by
  rw [Stack.same, Bool.and_eq_true]
  refine ⟨forth.cells.same firm.cells back.cells,
    sameLocals_of_slots (Nat.le_antisymm forth.wide back.wide) fun i => ?_⟩
  exact (forth.locals i).same latitude (steady_local firm.locals i) (back.locals i)

end

section
variable {plan : Plan} {bound : Array Bound} {may : Kind → Prop} {last : Analysis.State}

/-- What is known at an instruction when an analysis has ended is looser than what an edge carries. -/
def Under (may : Kind → Prop) (last : Analysis.State) (j : Nat) (p : Point) : Prop :=
  ∃ q, last.point? j = some q ∧ q.blocks = p.blocks ∧ ShapeLoosens may p.shape q.shape

/-- An analysis that is below one that has ended. -/
structure Beneath (may : Kind → Prop) (last st : Analysis.State) : Prop where
  points : ∀ i p, st.point? i = some p → Under may last i p
  regions : List.Forall₂ RegionLater st.regions last.regions

/-- Where edges lead, what is known is looser than what they carry. -/
def Lax (may : Kind → Prop) (plan : Plan) (bound : Array Bound) (last : Analysis.State) : Prop :=
  ∀ i j edge q, EdgeOf plan bound last i (some j) edge → last.point? j = some q →
    ShapeLoosens may edge.shape q.shape

/-- An analysis that has ended, to be compared with others. -/
structure Ended (may : Kind → Prop) (plan : Plan) (bound : Array Bound) (last : Analysis.State) :
    Prop where
  latitude : Latitude may
  planned : Planned plan bound
  stable : Stable plan bound last
  firm : ∀ i p, last.point? i = some p → Firm p.shape
  lax : Lax may plan bound last

/-- A step that stays below, or ends where slots clash that do not widen. -/
def Remains (may : Kind → Prop) (last : Analysis.State) : Except Stop Analysis.State → Prop
  | .ok st => Beneath may last st
  | .error stop => Clash stop.fault ∧ ∃ kind, may kind ∧ kind.widens = false

private theorem Remains.bind {r : Except Stop Analysis.State}
    {f : Analysis.State → Except Stop Analysis.State} :
    Remains may last r → (∀ st, Beneath may last st → Remains may last (f st)) →
      Remains may last (r.bind f) := by
  intro first second
  cases r with
  | error stop => exact first
  | ok st => exact second st first

private theorem Beneath.idle {st later : Analysis.State} (within : Beneath may last st)
    (points : later.points = st.points) (regions : later.regions = st.regions) :
    Beneath may last later := by
  refine ⟨fun i p known => within.points i p ?_, regions ▸ within.regions⟩
  simpa only [Analysis.State.point?, points] using known

private theorem Beneath.replace {st : Analysis.State} (within : Beneath may last st) {j : Nat} {p : Point}
    (under : Under may last j p) :
    Beneath may last ({ st with points := st.points.setIfInBounds j (some p) }.enqueue j) := by
  have replaced : Beneath may last { st with points := st.points.setIfInBounds j (some p) } := by
    refine ⟨fun i q known => ?_, within.regions⟩
    simp only [Analysis.State.point?, Array.getElem?_setIfInBounds] at known
    by_cases same : j = i
    · subst same
      rw [if_pos rfl] at known
      split at known <;> cases known
      exact under
    · rw [if_neg same] at known
      exact within.points i q known
  refine replaced.idle ?_ ?_ <;> (unfold Analysis.State.enqueue; split <;> rfl)

theorem Beneath.merge (ended : Ended may plan bound last) {fn : Function} {st : Analysis.State}
    (within : Beneath may last st) {j : Nat} {p : Point} (under : Under may last j p) :
    Remains may last (st.merge fn j p) := by
  obtain ⟨q, known, blocks, looser⟩ := under
  obtain ⟨small, _⟩ := ended.stable.sane j q known
  unfold Analysis.State.merge
  cases before : st.point? j with
  | none =>
    dsimp only
    rw [if_neg (by rw [looser.depth]; omega)]
    exact within.replace ⟨q, known, blocks, looser⟩
  | some old =>
    obtain ⟨r, also, others, below⟩ := within.points j old before
    rw [known] at also
    cases also
    dsimp only
    rw [if_neg (by simp [← others, blocks])]
    have unified : match Stack.unify st.stamp old.shape p.shape with
        | .ok merged => ShapeLoosens may merged q.shape
        | .error fault => Clash fault ∧ ∃ kind, may kind ∧ kind.widens = false :=
      unify_loosens ended.latitude (ended.firm j q known) small below looser
    cases result : Stack.unify st.stamp old.shape p.shape with
    | error fault =>
      rw [result] at unified
      exact unified
    | ok merged =>
      rw [result] at unified
      have stamped : Beneath may last { st with stamp := st.stamp + 1 } := within.idle rfl rfl
      dsimp only
      split
      · exact stamped
      · exact stamped.replace (p := ⟨merged, old.blocks⟩) ⟨q, known, others, unified⟩

private theorem Beneath.target {st : Analysis.State} (within : Beneath may last st) (offset : Int64) :
    Beneath may last (st.target offset) := by
  refine within.idle ?_ ?_ <;> (unfold Analysis.State.target; split <;> rfl)

private theorem mapped_within {regions others : List Region} {id : Int64} {f : Region → Region}
    (all : List.Forall₂ RegionLater regions others)
    (kept : ∀ r s, s ∈ others → RegionLater r s → r.id = id → RegionLater (f r) s) :
    List.Forall₂ RegionLater (regions.map fun r => if r.id == id then f r else r) others := by
  induction all with
  | nil => exact .nil
  | @cons r s _ _ head _ ih =>
    refine .cons ?_ (ih fun r s member => kept r s (List.mem_cons_of_mem _ member))
    dsimp only
    split
    · next same => exact kept r s List.mem_cons_self head (by simpa using same)
    · exact head

private theorem Beneath.cover {st : Analysis.State} (within : Beneath may last st) (blocks : List Block)
    (offset stop : Int64) : Beneath may last (st.cover blocks offset stop) := by
  unfold Analysis.State.cover
  generalize blocks.filter (fun b => !b.running) = opened
  induction opened generalizing st with
  | nil => exact within
  | cons b rest ih =>
    refine ih ⟨within.points, mapped_within within.regions fun r s _ later _ => ?_⟩
    exact ⟨later.id, later.dialect, later.handler, later.lasti, later.scratch, later.depth⟩

private theorem Beneath.blocksAfter (ended : Ended may plan bound last) {st : Analysis.State} {i : Nat}
    {o : Bound} {p q : Point} {next : List Block} (within : Beneath may last st)
    (blocks : q.blocks = p.blocks) (looser : ShapeLoosens may p.shape q.shape)
    (turns : Turns plan o q.blocks next) (fixes : Fixes plan last.regions o q) :
    ∃ later, blocksAfter plan st i o p = .ok (next, later) ∧ Beneath may last later := by
  have numbered := ended.planned.numbered.later ended.stable.regions
  rw [blocks] at turns
  generalize same : p.blocks = before at turns
  unfold Analysis.blocksAfter
  cases turns with
  | @opens _ r setup found =>
    obtain ⟨_, s, own, present, depth⟩ := fixes setup
    rw [found] at own
    cases own
    obtain ⟨early, there, later⟩ := regionIn?_earlier within.regions present
    have number : early.id = r.id := later.id.symm.trans (regionIn?_spec numbered present).1
    have agrees : ¬ ((0 ≤ early.depth && early.depth ≠ p.shape.height) = true) := by
      simp only [Bool.and_eq_true, decide_eq_true_eq, not_and, not_not]
      intro fixed
      rw [looser.height, ← depth, later.depth fixed]
    simp only [setup, found, Option.bind_some, there]
    rw [if_neg (by simpa using agrees)]
    rw [same, number]
    refine ⟨_, rfl, within.points, mapped_within within.regions ?_⟩
    intro x y member grown numbers
    cases numbered.unique member (regionIn?_mem present)
      (grown.id.trans (numbers.trans (number.symm.trans later.id.symm)))
    exact ⟨grown.id, grown.dialect, grown.handler, grown.lasti, grown.scratch,
      fun _ => depth.trans looser.height.symm⟩
  | closes pops => exact ⟨st, by simp [pops, same], within⟩
  | leaves pops legacy => exact ⟨st, by simp [pops, legacy, same], within⟩
  | keeps setup pops modern =>
    refine ⟨st, ?_, within⟩
    split
    · next opcode => exact absurd opcode setup
    · next opcode => exact absurd opcode pops
    · next opcode => rw [modern opcode, same]
    · rw [same]

private theorem follow_cons (o : Bound) (p : Point) (next : List Block) (st : Analysis.State) (e : Edge)
    (edges : List Edge) : follow plan o p next st (e :: edges) =
      ((st.target e.target).merge plan.function (indexOf plan.function e.target)
        ⟨e.shape, edgeBlocks plan o p next e⟩).bind fun st => follow plan o p next st edges := by
  rw [follow]
  unfold edgeBlocks
  generalize (st.target e.target).merge plan.function (indexOf plan.function e.target) _ = merged
  cases merged <;> rfl

private theorem Beneath.follow (ended : Ended may plan bound last) {st : Analysis.State} {o : Bound}
    {p : Point} {next : List Block} {edges : List Edge} (within : Beneath may last st)
    (under : ∀ e ∈ edges, Under may last (indexOf plan.function e.target)
      ⟨e.shape, edgeBlocks plan o p next e⟩) :
    Remains may last (follow plan o p next st edges) := by
  induction edges generalizing st with
  | nil => exact within
  | cons e edges ih =>
    have merged : Remains may last ((st.target e.target).merge plan.function _ _) :=
      (within.target e.target).merge ended (under e List.mem_cons_self)
    rw [follow_cons]
    exact merged.bind fun later kept => ih kept fun f listed => under f (List.mem_cons_of_mem _ listed)

private theorem Ended.under (ended : Ended may plan bound last) {i j : Nat} {edge : Point}
    (leads : EdgeOf plan bound last i (some j) edge) : Under may last j edge := by
  obtain ⟨k, same, _, q, known, blocks, _⟩ := leads.covered ended.planned ended.stable
  cases same
  exact ⟨q, known, blocks, ended.lax i j edge q leads known⟩

private theorem Under.tighter (latitude : Latitude may) {j : Nat} {p q : Point}
    (under : Under may last j q) (blocks : q.blocks = p.blocks)
    (looser : ShapeLoosens may p.shape q.shape) : Under may last j p := by
  obtain ⟨r, known, same, below⟩ := under
  exact ⟨r, known, same.trans blocks, looser.trans latitude below⟩

private theorem edgeBlocks_congr {o : Bound} {p q : Point} {next : List Block} {e f : Edge}
    (blocks : q.blocks = p.blocks) (handler : e.handler = f.handler) :
    edgeBlocks plan o q next f = edgeBlocks plan o p next e := by
  unfold edgeBlocks
  rw [handler, blocks]

private theorem Beneath.carry (ended : Ended may plan bound last) {st : Analysis.State} {i : Nat}
    {o : Bound} {p q : Point} (within : Beneath may last st) (found : bound[i]? = some o)
    (known : last.point? i = some q) (blocks : q.blocks = p.blocks)
    (looser : ShapeLoosens may p.shape q.shape) : Remains may last (carry plan st i o p) := by
  have numbered := ended.planned.numbered.later ended.stable.regions
  have processed := ended.stable.processed i o q found known
  obtain ⟨small, _⟩ := ended.stable.sane i q known
  obtain ⟨_, flow, next, flows, turns, _, falling⟩ := processed.flows
  obtain ⟨_, after⟩ := blocksAfter_ok numbered turns processed.fixes
  obtain ⟨own, owns, tighter⟩ :=
    looser.flows ended.latitude (fun _ _ => looser.checkLeave small) flows st.stamp
  -- The edges of the instruction lead below what is known in the end.
  have branches : ∀ e ∈ own.branches, Under may last (indexOf plan.function e.target)
      ⟨e.shape, edgeBlocks plan o p next e⟩ := by
    intro e listed
    obtain ⟨k, position⟩ := List.mem_iff_getElem?.mp listed
    obtain ⟨f, there, target, handler, shapes⟩ := forall₂_left tighter.branches position
    have member := List.mem_of_getElem? there
    have place := index_some (edge_target ended.planned found flows member)
    have edge : Under may last (indexOf plan.function f.target) ⟨f.shape, edgeBlocks plan o q next f⟩ := by
      cases handles : f.handler with
      | true =>
        obtain ⟨r, region, _⟩ := flow_handler flows member handles
        have leads := EdgeOf.setup found known flows member handles region
        rw [place] at leads
        rw [edgeBlocks, if_pos handles, region]
        exact ended.under leads
      | false =>
        have leads := EdgeOf.branch found known flows after member handles
        rw [place] at leads
        rw [edgeBlocks, if_neg (by simp [handles])]
        exact ended.under leads
    rw [target]
    exact edge.tighter ended.latitude (edgeBlocks_congr blocks handler) shapes
  unfold Analysis.carry
  simp only [bind, Except.bind, pure, Except.pure, throw, throwThe, MonadExceptOf.throw]
  rw [owns]
  dsimp only
  have noted : Beneath may last { st with
      stamp := st.stamp + 1, falls := st.falls.setIfInBounds i own.falls } := within.idle rfl rfl
  obtain ⟨later, turned, kept⟩ := noted.blocksAfter ended blocks looser turns processed.fixes
  rw [turned]
  dsimp only
  refine (kept.follow ended branches).bind fun st within => ?_
  split
  · next through =>
    have falls : flow.falls = true := tighter.falls ▸ through
    obtain ⟨inside, _⟩ := falling falls
    rw [if_pos inside]
    refine within.merge ended ((ended.under (.falls found known flows after falls)).tighter
      ended.latitude rfl tighter.next)
  · exact within

private theorem ShapeLoosens.caught {p q : Point} (looser : ShapeLoosens may p.shape q.shape)
    (stamp : Nat) (r : Region) :
    ShapeLoosens may (caughtPoint stamp p r).shape (caughtPoint stamp q r).shape := by
  have cut : ShapeLoosens may (p.shape.truncate r.depth) (q.shape.truncate r.depth) := by
    unfold Stack.truncate
    rw [looser.depth]
    exact looser.drop _
  exact cut.pushAll (List.forall₂_same.mpr fun slot _ => .refl slot)

private theorem Beneath.caught (ended : Ended may plan bound last) {st : Analysis.State} {p : Point}
    {r : Region} {raises : Bool} (within : Beneath may last st)
    (under : raises = true → ∀ stamp,
      Under may last (indexOf plan.function r.handler) (caughtPoint stamp p r)) :
    Remains may last (if raises = true then
        ({ st with stamp := st.stamp + 1 }.target r.handler).merge plan.function
          (indexOf plan.function r.handler) (caughtPoint st.stamp p r)
      else .ok st) := by
  split
  · next raising =>
    have stamped : Beneath may last { st with stamp := st.stamp + 1 } := within.idle rfl rfl
    exact (stamped.target r.handler).merge ended (under raising _)
  · exact within

private theorem Beneath.raise (ended : Ended may plan bound last) {st : Analysis.State} {i : Nat}
    {o : Bound} {p q : Point} (within : Beneath may last st)
    (regions : List.Forall₂ RegionLater plan.regions st.regions) (rooted : Rooted st.regions p)
    (found : bound[i]? = some o) (known : last.point? i = some q) (blocks : q.blocks = p.blocks)
    (looser : ShapeLoosens may p.shape q.shape) : Remains may last (raise plan st i o p) := by
  unfold Analysis.raise
  cases protects : protecting? plan st i p with
  | none => exact within
  | some r =>
    obtain ⟨_, depth, _⟩ := protecting?_spec ended.planned regions rooted protects
    obtain ⟨s, guards, later⟩ := protecting?_later within.regions blocks protects
    obtain ⟨deep, _⟩ := (ended.stable.processed i o q found known).raises s guards
    have shallow : ¬ p.shape.height < r.depth := by
      rw [looser.height, ← later.depth depth]
      exact deep
    have caught : o.opcode.mayRaise = true → ∀ stamp,
        Under may last (indexOf plan.function r.handler) (caughtPoint stamp p r) := by
      intro raises stamp
      have leads := EdgeOf.raises stamp found known guards raises
      obtain ⟨_, place, _⟩ := leads.covered ended.planned ended.stable
      have somewhere : (plan.function.indexOf? s.handler).isSome := by simp [place]
      rw [index_some somewhere] at leads
      rw [← later.handler]
      refine (ended.under leads).tighter ended.latitude ?_ ?_
      · simp only [caughtPoint, later.dialect, later.id, blocks]
      · rw [← later.caughtPoint depth]
        exact looser.caught stamp s
    dsimp only
    unfold protect
    rw [if_neg shallow]
    cases dialect : r.dialect with
    | legacy =>
      have covered := (within.cover p.blocks o.inst.offset
        (stopOf plan.function i o.inst.offset)).caught ended caught
      simpa only [caughtPoint, dialect] using covered
    | modern =>
      have uncovered := within.caught ended caught
      simpa only [caughtPoint, dialect] using uncovered

/-- Processing an instruction stays below. -/
theorem Beneath.process (ended : Ended may plan bound last) {st : Analysis.State} {i : Nat} {o : Bound}
    {p : Point} (within : Beneath may last st)
    (regions : List.Forall₂ RegionLater plan.regions st.regions) (rooted : Rooted st.regions p)
    (found : bound[i]? = some o) (under : Under may last i p) :
    Remains may last (process plan st i o p) := by
  obtain ⟨q, known, blocks, looser⟩ := under
  have raised := within.raise ended regions rooted found known blocks looser
  have same : Analysis.process plan st i o p =
      (Analysis.raise plan st i o p).bind fun st => Analysis.carry plan st i o p := by
    unfold Analysis.process
    cases Analysis.raise plan st i o p <;> rfl
  rw [same]
  exact raised.bind fun st within => within.carry ended found known blocks looser

theorem Beneath.advance (ended : Ended may plan bound last) {st : Analysis.State} {i : Nat}
    (within : Beneath may last st) (progress : Progress plan bound st) :
    Remains may last (advance plan bound st i) := by
  have shorter : Beneath may last (taken st i) := within.idle rfl rfl
  unfold Proofs.advance
  split
  · next o p found known =>
    obtain ⟨_, rooted, _⟩ := progress.sane i p known
    exact shorter.process ended progress.regions rooted found (within.points i p known)
  · exact shorter

private theorem Beneath.runBy (ended : Ended may plan bound last) (order : Order) {fuel : Nat}
    {st : Analysis.State} (within : Beneath may last st) (progress : Progress plan bound st) :
    (∃ stop, runBy order plan bound fuel st = .error stop ∧ stop.index = none) ∨
      Remains may last (runBy order plan bound fuel st) := by
  induction fuel generalizing st with
  | zero => exact .inl ⟨_, rfl, rfl⟩
  | succ fuel ih =>
    rw [Proofs.runBy]
    split
    · exact .inr within
    · have stepped := within.advance ended (i := order.choose st) progress
      cases done : Proofs.advance plan bound st (order.choose st) with
      | error stop =>
        rw [done] at stepped
        exact .inr stepped
      | ok later =>
        rw [done] at stepped
        exact ih stepped (progress.advance ended.planned done).1

theorem Widens.loosens (latitude : Latitude may) {a b : Slot} (widens : Widens a b) :
    Loosens may a b := by
  cases widens with
  | fades kind region known => exact .fades kind region known
  | object free value => exact .object free (latitude.widens _ value)

theorem LocalWidens.loosens (latitude : Latitude may) {a b : Slot} (widens : LocalWidens a b)
    (held : a.kind = .unbound ∨ may a.kind ∨ a.kind = b.kind) : LocalLoosens may a b := by
  cases widens with
  | fades kind region known => exact .fades kind region known
  | unbound =>
    rcases held with unbound | allowed | same
    · exact .unbound (.inl unbound)
    · exact .unbound (.inr allowed)
    · exact .unbound (.inl same)
  | object bound =>
    rcases held with unbound | allowed | same
    · exact absurd unbound bound
    · exact .object allowed
    · exact .object (same ▸ latitude.widens _ rfl)

theorem ShapeWidens.loosens (latitude : Latitude may) {s t : Stack} (widens : ShapeWidens s t)
    (held : ∀ i, (localSlot s.locals i).kind = .unbound ∨ may (localSlot s.locals i).kind ∨
      (localSlot s.locals i).kind = (localSlot t.locals i).kind) : ShapeLoosens may s t :=
  ⟨widens.cells.imp fun _ _ cell => cell.loosens latitude, widens.wide,
    fun i => (widens.locals i).loosens latitude (held i)⟩

private theorem entry_kind (localCount : Nat) (argCount : Int64) (i : Nat) :
    (localSlot (Stack.entry localCount argCount).locals i).kind = .unbound ∨
      (localSlot (Stack.entry localCount argCount).locals i).kind = .object := by
  simp only [Stack.entry, localSlot, List.getD_eq_getElem?_getD, List.getElem?_append,
    List.getElem?_replicate]
  split <;> split <;> simp [Slot.ofKind]

theorem analyzeBy_remains (ended : Ended may plan bound last) (order : Order) :
    Remains may last (analyzeBy order plan bound) := by
  have start : Beneath may last (Analysis.State.start plan) := by
    refine ⟨fun i p known => ?_, ended.stable.regions⟩
    simp only [Analysis.State.point?, Analysis.State.start, Array.getElem?_replicate] at known
    split at known <;> cases known
  have under : Under may last 0
      ⟨Stack.entry plan.function.localCount plan.function.argCount, []⟩ := by
    obtain ⟨q, known, blocks, widens⟩ := ended.stable.entry
    refine ⟨q, known, blocks, widens.loosens ended.latitude fun i => ?_⟩
    rcases entry_kind plan.function.localCount plan.function.argCount i with unbound | object
    · exact .inl unbound
    · exact .inr (.inl (object ▸ ended.latitude.widens _ rfl))
  have settles : ∀ stop, analyzeBy order plan bound = .error stop → ∃ j, stop.index = some j :=
    fun _ => analyzeBy_settles ended.planned order
  have merged : Remains may last ((Analysis.State.start plan).merge plan.function 0 _) :=
    start.merge ended under
  unfold analyzeBy at settles ⊢
  dsimp only at settles ⊢
  cases entered : (Analysis.State.start plan).merge plan.function 0
      ⟨Stack.entry plan.function.localCount plan.function.argCount, []⟩ with
  | error stop =>
    rw [entered] at merged
    exact merged
  | ok st =>
    rw [entered] at merged settles
    dsimp only at settles ⊢
    rcases merged.runBy ended order (Progress.entered ended.planned entered).1 with
      ⟨stop, failed, nowhere⟩ | remains
    · obtain ⟨j, somewhere⟩ := settles stop failed
      rw [nowhere] at somewhere
      cases somewhere
    · exact remains

/-- Analyses that know the same before every instruction. -/
def Agreed (a b : Analysis.State) : Prop :=
  ∀ i, match a.point? i, b.point? i with
    | some p, some q => p.shape.same q.shape = true ∧ p.blocks = q.blocks
    | none, none => True
    | _, _ => False

/-- Where edges lead, a local that holds exception state or a null is still known to hold it. -/
def Loyal (plan : Plan) (bound : Array Bound) (last : Analysis.State) : Prop :=
  ∀ i j edge q, EdgeOf plan bound last i (some j) edge → last.point? j = some q → ∀ k,
    (localSlot edge.shape.locals k).kind = .unbound ∨
      (localSlot edge.shape.locals k).kind.widens = true ∨
      (localSlot edge.shape.locals k).kind = (localSlot q.shape.locals k).kind

theorem coarse : Latitude (· ≠ .unbound) where
  widens kind wide unbound := by
    rw [unbound] at wide
    cases wide
  bound apart := apart rfl

theorem fine : Latitude (·.widens = true) where
  widens _ wide := wide
  bound := nofun

private theorem Stable.ended (latitude : Latitude may) (planned : Planned plan bound)
    (numbers : Numbers plan.function) (stable : Stable plan bound last)
    (held : ∀ i j edge q, EdgeOf plan bound last i (some j) edge → last.point? j = some q → ∀ k,
      (localSlot edge.shape.locals k).kind = .unbound ∨ may (localSlot edge.shape.locals k).kind ∨
        (localSlot edge.shape.locals k).kind = (localSlot q.shape.locals k).kind) :
    Ended may plan bound last where
  latitude := latitude
  planned := planned
  stable := stable
  firm i p known := (stable.sane i p known).2.2.firm planned stable numbers known
  lax i j edge q leads known := by
    obtain ⟨_, same, _, r, present, _, widens⟩ := leads.covered planned stable
    cases same
    rw [known] at present
    cases present
    exact widens.loosens latitude (held i j edge q leads known)

private theorem Stable.ended_coarse (planned : Planned plan bound) (numbers : Numbers plan.function)
    (stable : Stable plan bound last) : Ended (· ≠ .unbound) plan bound last :=
  stable.ended coarse planned numbers fun _ _ _ _ _ _ _ =>
    (Decidable.em _).imp_right .inl

private theorem Beneath.agreed {a b : Analysis.State} (ended : Ended may plan bound b)
    (forth : Beneath may b a) (back : Beneath may a b) : Agreed a b := by
  intro i
  cases first : a.point? i with
  | none =>
    cases second : b.point? i with
    | none => trivial
    | some q =>
      obtain ⟨_, known, _⟩ := back.points i q second
      rw [first] at known
      cases known
  | some p =>
    obtain ⟨q, second, blocks, looser⟩ := forth.points i p first
    obtain ⟨r, known, _, tighter⟩ := back.points i q second
    rw [first] at known
    cases known
    rw [second]
    exact ⟨looser.same ended.latitude (ended.firm i q second) tighter, blocks.symm⟩

end

/-- The order of processing does not matter, but for one thing. Where an analysis in some order
succeeds, one in any other order comes to the same shapes and the same blocks before every instruction,
or it fails where slots clash; and then the one that succeeded has lost track of exception state or a
null in a local. No order runs out of steps, and the analysis itself takes the newest first. -/
theorem analysis_order {fn : Function} {plan : Plan} {bound : Array Bound}
    (ready : Ready fn plan bound) (numbers : Numbers fn) (one other : Order) :
    (∀ last, analyzeBy one plan bound = .ok last →
      (∃ also, analyzeBy other plan bound = .ok also ∧ Agreed last also) ∨
      ¬ Loyal plan bound last ∧
        ∃ stop, analyzeBy other plan bound = .error stop ∧ Clash stop.fault) ∧
    (∀ stop, analyzeBy one plan bound = .error stop → ∃ j, stop.index = some j) ∧
    analyze plan bound = analyzeBy .newest plan bound := by
  obtain ⟨rfl, planned⟩ := ready.planned
  refine ⟨fun last analysed => ?_, fun stop => analyzeBy_settles planned one, analyzeBy_newest.symm⟩
  have stable := analyzeBy_stable planned analysed
  have below := analyzeBy_remains (stable.ended_coarse planned numbers) other
  cases result : analyzeBy other plan bound with
  | ok also =>
    rw [result] at below
    have ended := (analyzeBy_stable planned result).ended_coarse planned numbers
    have above := analyzeBy_remains ended one
    rw [analysed] at above
    exact .inl ⟨also, rfl, above.agreed ended below⟩
  | error stop =>
    rw [result] at below
    refine .inr ⟨fun loyal => ?_, stop, rfl, below.1⟩
    have strict := analyzeBy_remains (stable.ended fine planned numbers loyal) other
    rw [result] at strict
    obtain ⟨_, kind, wide, narrow⟩ := strict
    rw [wide] at narrow
    cases narrow

/-- A function that stores a number or a text in its argument, over and over again. -/
def alternating : Function where
  name := "f"
  version := ⟨3, 9⟩
  argCount := 1
  localNames := #["a"]
  constants := #[.int 1, .str "a"]
  instructions := #[{ offset := 0, code := Opcode.loadFast.code },
    { offset := 2, code := Opcode.popJumpIfTrue.code, arg := 8 },
    { offset := 4, code := Opcode.loadConst.code },
    { offset := 6, code := Opcode.jumpForward.code, arg := 10 },
    { offset := 8, code := Opcode.loadConst.code, arg := 1 },
    { offset := 10, code := Opcode.storeFast.code },
    { offset := 12, code := Opcode.jumpAbsolute.code }]

theorem alternating_agreed : ∃ plan bound last also, Ready alternating plan bound ∧
    analyze plan bound = .ok last ∧ analyzeBy .oldest plan bound = .ok also ∧ Agreed last also := by
  obtain ⟨plan, bound, last, prepared, also, others⟩ : ∃ plan bound last,
      prepare alternating = .ok (plan, bound, last) ∧
        ∃ also, analyzeBy .oldest plan bound = .ok also := by
    have checked : preparesTo alternating (fun plan bound _ =>
        (analyzeBy .oldest plan bound).toOption.isSome) = true := by decide +kernel
    obtain ⟨plan, bound, last, prepared, holds⟩ := preparesTo_spec checked
    obtain ⟨also, others⟩ := Option.isSome_iff_exists.mp holds
    exact ⟨plan, bound, last, prepared, also, ok_of_toOption others⟩
  have numbers : Numbers alternating := by
    intro x listed
    simp [alternating] at listed
  obtain ⟨ready, analysed⟩ := prepare_ready prepared
  obtain ⟨same, _, newest⟩ := analysis_order ready numbers .newest .oldest
  rcases same last (newest ▸ analysed) with ⟨found, analysedToo, agreed⟩ | ⟨_, stop, failed, _⟩
  · rw [others] at analysedToo
    cases analysedToo
    exact ⟨plan, bound, last, also, ready, analysed, others, agreed⟩
  · rw [others] at failed
    cases failed

/-- A function that keeps a caught exception in the local of its argument on one of two ways to the
same load. -/
def wavering : Function where
  name := "f"
  version := ⟨3, 9⟩
  argCount := 1
  localNames := #["a"]
  instructions := #[{ offset := 0, code := Opcode.loadFast.code },
    { offset := 2, code := Opcode.popJumpIfTrue.code, arg := 24 },
    { offset := 4, code := Opcode.setupFinally.code, arg := 12 },
    { offset := 6, code := Opcode.loadFast.code },
    { offset := 8, code := Opcode.popBlock.code },
    { offset := 10, code := Opcode.returnValue.code },
    { offset := 12, code := Opcode.rotTwo.code },
    { offset := 14, code := Opcode.dupTop.code },
    { offset := 16, code := Opcode.storeFast.code },
    { offset := 18, code := Opcode.popExcept.code },
    { offset := 20, code := Opcode.loadFast.code },
    { offset := 22, code := Opcode.returnValue.code },
    { offset := 24, code := Opcode.jumpAbsolute.code, arg := 20 }]

theorem wavering_depends : (wavering.instructions.toList.map Instruction.offset).Nodup ∧
    Numbers wavering ∧ ∃ plan bound, Ready wavering plan bound ∧
      (∃ stop, analyzeBy .newest plan bound = .error stop) ∧
      ∃ last, analyzeBy .oldest plan bound = .ok last := by
  refine ⟨by decide, fun x listed => by simp [wavering] at listed, ?_⟩
  obtain ⟨plan, bounds, drafted, fitting, bindings, failed, succeeded⟩ : ∃ plan bounds,
      Plan.ofFunction wavering = .ok plan ∧ fits wavering plan = true ∧
        bindAll wavering 0 wavering.instructions.toList = .ok bounds ∧
        (∃ stop, analyzeBy .newest plan bounds.toArray = .error stop) ∧
        ∃ last, analyzeBy .oldest plan bounds.toArray = .ok last := by
    have checked : ((Plan.ofFunction wavering).toOption.any fun plan => fits wavering plan &&
        (bindAll wavering 0 wavering.instructions.toList).toOption.any fun bounds =>
          (analyzeBy .newest plan bounds.toArray).toOption.isNone &&
          (analyzeBy .oldest plan bounds.toArray).toOption.isSome) = true := by decide +kernel
    simp only [Bool.and_eq_true, Option.any_eq_true, Option.isSome_iff_exists] at checked
    obtain ⟨plan, drafted, fitting, bounds, bindings, refused, last, succeeded⟩ := checked
    refine ⟨plan, bounds, ok_of_toOption drafted, fitting, ok_of_toOption bindings, ?_, last,
      ok_of_toOption succeeded⟩
    cases failed : analyzeBy .newest plan bounds.toArray with
    | error stop => exact ⟨stop, rfl⟩
    | ok => rw [failed] at refused; cases refused
  exact ⟨plan, bounds.toArray, ⟨drafted, rfl, fitting, by simpa using bindings⟩, failed, succeeded⟩

end Lowering.Proofs
