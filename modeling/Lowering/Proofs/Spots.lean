import Lowering.Proofs.ControlFlow

/-! Spots: the places in the code of a legacy function, with what the register of the handled exception
holds there.

A handler that starts saves the register in the local of its region and puts its exception there. It
ends by putting back what it has saved: where it is left, or in its cleanup when an exception leaves it.
What the register holds is thus told by the blocks of the place alone. -/

namespace Lowering.Proofs
open Machine Host Shape Guest Emission

variable {setup : Setup} {plan : Plan} {bound : Array Bound} {analysis : Analysis.State}
  {maxDepth : Int64} {c : Config}

/-- What a frame has done with handled exceptions: the exceptions with which handlers were entered, the
values that handlers have saved, and the value of the register when the frame started. -/
structure Ledger where
  entered : Int64 → Nat → Prop
  saved : Int64 → Option Value
  initial : Value

/-- What is handled inside some blocks: the exception with which the innermost handler that runs was
entered, or else what was handled when the frame started. Every handler that runs has saved what is
handled below it. -/
inductive Ledger.Tells (ledger : Ledger) : List Block → Value → Prop
  | outside : ledger.Tells [] ledger.initial
  | setUp {region : Int64} {below : List Block} {v : Value} (tells : ledger.Tells below v) :
      ledger.Tells (⟨region, false⟩ :: below) v
  | running {region : Int64} {below : List Block} {v : Value} {exception : Nat}
      (entered : ledger.entered region exception) (saved : ledger.saved region = some v)
      (tells : ledger.Tells below v) : ledger.Tells (⟨region, true⟩ :: below) (.exception exception)

section
variable {ledger other : Ledger} {blocks : List Block} {v : Value}

theorem Ledger.Tells.proper (tells : ledger.Tells blocks v) (initial : ledger.initial ≠ .unbound) :
    v ≠ .unbound := by
  induction tells with
  | outside => exact initial
  | setUp _ ih => exact ih
  | running => nofun

/-- A handler that runs has saved what is handled below it. -/
theorem Ledger.Tells.under {b : Block} {below : List Block} (tells : ledger.Tells (b :: below) v)
    (running : b.running = true) : ∃ w, ledger.saved b.region = some w ∧ ledger.Tells below w := by
  cases tells with
  | setUp => cases running
  | running _ saved tells => exact ⟨_, saved, tells⟩

theorem Ledger.Tells.agree (tells : ledger.Tells blocks v) (initial : other.initial = ledger.initial)
    (kept : ∀ b ∈ blocks, other.saved b.region = ledger.saved b.region ∧
      ∀ exception, ledger.entered b.region exception → other.entered b.region exception) :
    other.Tells blocks v := by
  induction tells with
  | outside => exact initial ▸ .outside
  | setUp _ ih => exact .setUp (ih fun b member => kept b (.tail _ member))
  | running entered saved _ ih =>
    obtain ⟨same, passes⟩ := kept _ List.mem_cons_self
    exact .running (passes _ entered) (same.trans saved) (ih fun b member => kept b (.tail _ member))

/-- Blocks are set up and taken down without a change of what is handled. -/
theorem Ledger.Tells.turns {o : Bound} {next : List Block} (tells : ledger.Tells blocks v)
    (turns : Turns plan o blocks next) (stays : o.opcode ≠ .popExcept) : ledger.Tells next v := by
  cases turns with
  | opens => exact .setUp tells
  | closes =>
    cases tells with
    | setUp tells => exact tells
  | leaves leaves => exact absurd leaves stays
  | keeps => exact tells

end

/-- What handlers have saved in the locals of a frame. -/
def Ledger.holding (ledger : Ledger) (plan : Plan) (locals : Array Value) : Ledger :=
  { ledger with saved := fun region => locals[(plan.scratch region).toInt.toNat]? }

/-- Where a handler is left, its exception state is innermost on the stack. -/
def Aligned (bound : Array Bound) (analysis : Analysis.State) : Prop :=
  ∀ i o p, Reached bound analysis i o p → o.opcode = .popExcept →
    p.blocks.head?.map Block.region = some (enclosing p.shape)

/-- At the start of a handler, what was handled before is saved, and the exception becomes the handled
one. -/
inductive Opening (ledger : Ledger) (region : Int64) (below : List Block) (register : Value) :
    Nat → List Value → Prop
  | gets {exception : Nat} {rest : List Value} (entered : ledger.entered region exception)
      (tells : ledger.Tells below register) :
      Opening ledger region below register 0 (.exception exception :: rest)
  | stores {exception : Nat} {rest : List Value} (entered : ledger.entered region exception)
      (tells : ledger.Tells below register) :
      Opening ledger region below register 1 (register :: .exception exception :: rest)
  | sets {exception n : Nat} {rest : List Value} {v : Value} (first : 2 ≤ n) (last : n ≤ 3)
      (entered : ledger.entered region exception) (saved : ledger.saved region = some v)
      (tells : ledger.Tells below v) :
      Opening ledger region below register n (.exception exception :: rest)
  | done {n : Nat} {stack : List Value} (first : 4 ≤ n)
      (tells : ledger.Tells (⟨region, true⟩ :: below) register) :
      Opening ledger region below register n stack

/-- In a cleanup, what the handler has saved becomes the handled exception again. -/
inductive Restoring (ledger : Ledger) (block : Block) (below : List Block) (register : Value) :
    Nat → List Value → Prop
  | loads {n : Nat} {stack : List Value} (last : n ≤ 1) (tells : ledger.Tells (block :: below) register) :
      Restoring ledger block below register n stack
  | sets {v : Value} {rest : List Value} (tells : ledger.Tells below v) :
      Restoring ledger block below register 2 (v :: rest)
  | throws {stack : List Value} (tells : ledger.Tells below register) :
      Restoring ledger block below register 3 stack

/-- A place in the code of a function, with what the register and the stack hold there: in an
instruction, at a jump around prologues, in a prologue, or in a cleanup. -/
inductive Spot (plan : Plan) (bound : Array Bound) (analysis : Analysis.State) (maxDepth : Int64)
    (ledger : Ledger) (register : Value) (stack : List Value) (ip : Nat) : Prop
  | own {i m : Nat} {o : Bound} {p : Point} (reached : Reached bound analysis i o p)
      (inside : m < (ownAt plan bound analysis i o p).length)
      (place : ip = ownStart plan bound analysis i o + m) (tells : ledger.Tells p.blocks register)
      (leaving : o.opcode = .popExcept → m + 1 = (ownAt plan bound analysis i o p).length →
        ∃ b below v rest, p.blocks = b :: below ∧ stack = v :: rest ∧ ledger.Tells below v)
  | around {j n : Nat} {o : Bound} {q : Point} (reached : Reached bound analysis j o q)
      (jumps : (leadAt plan bound analysis j o)[n]? = some (.goto o.inst.offset))
      (place : ip = leadStart plan bound analysis j + n) (tells : ledger.Tells q.blocks register)
  | opening {j n : Nat} {o : Bound} {q : Point} {before : List Operation} {rest : List Region}
      {r : Region} {below : List Block} (reached : Reached bound analysis j o q)
      (known : r ∈ analysis.regions)
      (split : leadAt plan bound analysis j o =
        before ++ (r.prologue ++ lead (contextOf plan analysis) o.inst.offset true rest))
      (inside : n < r.prologue.length)
      (place : ip = leadStart plan bound analysis j + before.length + n)
      (blocks : q.blocks = ⟨r.id, true⟩ :: below) (opens : Opening ledger r.id below register n stack)
  | restoring {n start : Nat} {entry : Cleanup} (member : entry ∈ cleanupsOf plan bound analysis)
      (running : entry.block.running = true)
      (seated : Seated plan bound analysis (entry.block :: entry.below))
      (first : (routineOf plan bound analysis maxDepth).labelIndex? entry.label = some start)
      (place : ip = start + n)
      (restores : Restoring ledger entry.block entry.below register n stack)

section
variable {ledger : Ledger} {register : Value} {stack : List Value}

/-- An instruction that leaves a handler ends by loading the value that was saved and setting the
register. -/
private theorem leaves_ends {i m : Nat} {o : Bound} {p : Point} {op : Operation}
    (settled : Settled plan bound analysis) (legacy : plan.dialect = .legacy)
    (reached : Reached bound analysis i o p) (leaves : o.opcode = .popExcept)
    (found : (ownAt plan bound analysis i o p)[m]? = some op) :
    (op = .setHandled ↔ m + 1 = (ownAt plan bound analysis i o p).length) ∧
      (m + 2 = (ownAt plan bound analysis i o p).length → op = restored plan p.shape) ∧
      1 < (ownAt plan bound analysis i o p).length := by
  obtain ⟨front, quiet, split⟩ : ∃ front, Operation.setHandled ∉ front ∧
      ownAt plan bound analysis i o p = front ++ [restored plan p.shape, .setHandled] := by
    refine ⟨markOf analysis o ++ [Operation.pop, .pop, .pop], ?_, ?_⟩
    · unfold markOf
      split <;> simp
    · rw [ownAt_leaves (settled.followable reached) legacy leaves]
      simp
  have other : restored plan p.shape ≠ .setHandled := by
    unfold restored
    split <;> nofun
  rw [split] at found ⊢
  rw [List.getElem?_append] at found
  simp only [List.length_append, List.length_cons, List.length_nil]
  split at found
  · have before : op ≠ .setHandled := fun same => quiet (same ▸ List.mem_of_getElem? found)
    exact ⟨⟨fun same => absurd same before, by omega⟩, by omega, by omega⟩
  · obtain ⟨k, rfl⟩ : ∃ k, m = front.length + k := ⟨m - front.length, by omega⟩
    rw [Nat.add_sub_cancel_left] at found
    match k, found with
    | 0, found =>
      cases found
      exact ⟨⟨fun same => absurd same other, by omega⟩, fun _ => rfl, by omega⟩
    | 1, found =>
      cases found
      exact ⟨⟨fun _ => by omega, fun _ => rfl⟩, by omega, by omega⟩

private theorem Blocked.fallen {i : Nat} {o : Bound} {p : Point} (reached : Reached bound analysis i o p)
    (falls : (stage (contextOf plan analysis) (labelledHandlers plan analysis).1 bound i).2 = true)
    (tells : ledger.Tells p.blocks register)
    (here : Spot plan bound analysis maxDepth ledger register stack (ownStart plan bound analysis i o)) :
    Spot plan bound analysis maxDepth ledger register stack (leadStart plan bound analysis i) := by
  cases handlers : handlersAt (contextOf plan analysis) o.inst.offset with
  | nil =>
    have empty : leadAt plan bound analysis i o = [] := by
      rw [leadAt, handlers]
      rfl
    simpa [ownStart, empty] using here
  | cons r rest =>
    refine .around reached (n := 0) ?_ rfl tells
    rw [leadAt, handlers, lead, falls]
    rfl

/-- Control can be at every instruction that is reached. Instructions without operations pass it on. -/
theorem Blocked.arrives (blocked : Blocked plan bound analysis) {i : Nat} {o : Bound} {p : Point}
    (reached : Reached bound analysis i o p) (tells : ledger.Tells p.blocks register) :
    Spot plan bound analysis maxDepth ledger register stack (ownStart plan bound analysis i o) := by
  obtain ⟨n, distance⟩ : ∃ n, bound.size - i = n := ⟨_, rfl⟩
  induction n generalizing i o p with
  | zero =>
    have inside := (Array.getElem?_eq_some_iff.mp reached.found).1
    omega
  | succ n ih =>
    by_cases empty : ownAt plan bound analysis i o p = []
    · have stays : o.opcode ≠ .popExcept := by
        intro leaves
        rw [ownAt_leaves (blocked.followable reached) blocked.legacy leaves] at empty
        simp at empty
      obtain ⟨o', q, there, turns, falls⟩ := blocked.successor reached (ownAt_empty empty)
      have further := tells.turns turns stays
      have same : ownStart plan bound analysis i o = leadStart plan bound analysis (i + 1) := by
        rw [(blocked.instruction reached 0).1, empty]
        rfl
      rw [same]
      exact Blocked.fallen there falls further (ih there further (by omega))
    · have inside := List.length_pos_iff.mpr empty
      refine .own reached (m := 0) inside rfl tells fun leaves last => ?_
      have code := leaves_ends blocked.toSettled blocked.legacy reached leaves
        (List.getElem?_eq_getElem inside)
      omega

private theorem Blocked.through (blocked : Blocked plan bound analysis) {i : Nat} {o : Bound} {p : Point}
    (reached : Reached bound analysis i o p) (falls : o.opcode.terminates = false)
    (tells : ∀ next, Turns plan o p.blocks next → ledger.Tells next register) :
    Spot plan bound analysis maxDepth ledger register stack (leadStart plan bound analysis (i + 1)) := by
  obtain ⟨o', q, there, turns, into⟩ := blocked.successor reached falls
  have further := tells _ turns
  exact Blocked.fallen there into further (blocked.arrives there further)

private theorem Blocked.onward (blocked : Blocked plan bound analysis) {i m : Nat} {o : Bound}
    {p : Point} (reached : Reached bound analysis i o p) {op : Operation}
    (found : (ownAt plan bound analysis i o p)[m]? = some op) (falls : op.terminates = false)
    (other : op ≠ .setHandled) (tells : ledger.Tells p.blocks register)
    (leaving : o.opcode = .popExcept → op = restored plan p.shape →
      ∃ b below v rest, p.blocks = b :: below ∧ stack = v :: rest ∧ ledger.Tells below v) :
    Spot plan bound analysis maxDepth ledger register stack
      (ownStart plan bound analysis i o + m + 1) := by
  have inside := (List.getElem?_eq_some_iff.mp found).1
  by_cases last : m + 1 = (ownAt plan bound analysis i o p).length
  · have stays : o.opcode ≠ .popExcept := by
      intro leaves
      exact other ((leaves_ends blocked.toSettled blocked.legacy reached leaves found).1.mpr last)
    have ends : ownStart plan bound analysis i o + m + 1 = leadStart plan bound analysis (i + 1) := by
      rw [(blocked.instruction reached 0).1]
      omega
    rw [ends]
    exact blocked.through reached (ownAt_ends found last falls) fun _ turns => tells.turns turns stays
  · refine .own reached (m := m + 1) (by omega) (by omega) tells fun leaves last => ?_
    exact leaving leaves
      ((leaves_ends blocked.toSettled blocked.legacy reached leaves found).2.1 (by omega))

private theorem Blocked.opens_onward (blocked : Blocked plan bound analysis) {j n : Nat} {o : Bound}
    {q : Point} {before : List Operation} {rest : List Region} {r : Region} {below : List Block}
    (reached : Reached bound analysis j o q) (known : r ∈ analysis.regions)
    (split : leadAt plan bound analysis j o =
      before ++ (r.prologue ++ lead (contextOf plan analysis) o.inst.offset true rest))
    (inside : n < r.prologue.length) (blocks : q.blocks = ⟨r.id, true⟩ :: below)
    (opens : Opening ledger r.id below register (n + 1) stack) :
    Spot plan bound analysis maxDepth ledger register stack
      (leadStart plan bound analysis j + before.length + n + 1) := by
  by_cases last : n + 1 = r.prologue.length
  · have dialect : r.dialect = .legacy :=
      (blocked.stable.placing blocked.planned known).dialect.trans blocked.legacy
    have length : r.prologue.length = 9 := by
      rw [Region.prologue, dialect]
      rfl
    have tells : ledger.Tells q.blocks register := by
      rw [blocks]
      cases opens with
      | done _ tells => exact tells
      | stores | sets => omega
    cases rest with
    | nil =>
      have ends : leadStart plan bound analysis j + before.length + n + 1 =
          ownStart plan bound analysis j o := by
        rw [ownStart, split]
        simp only [lead, List.length_append, List.length_nil]
        omega
      rw [ends]
      exact blocked.arrives reached tells
    | cons r' rest =>
      refine .around reached (n := before.length + r.prologue.length) ?_ (by omega) tells
      rw [split, ← List.append_assoc, List.getElem?_append_right (by simp)]
      simp [lead]
  · exact .opening reached known split (n := n + 1) (by omega) (by omega) blocks opens

/-- The local in which a handler saves is none of the function. -/
theorem Blocked.scratch (blocked : Blocked plan bound analysis) {region : Int64}
    {below : List Block} (seat : Seat plan bound analysis region below) :
    0 ≤ plan.scratch region ∧ plan.function.localCount ≤ (plan.scratch region).toInt.toNat ∧
      (((contextOf plan analysis).region? region).getD default).scratch = plan.scratch region := by
  obtain ⟨r, _, _, _, _, found, _⟩ := seat
  obtain ⟨id, _⟩ := regionIn?_spec blocked.numbered found
  have placing := blocked.stable.placing blocked.planned (regionIn?_mem found)
  obtain ⟨place, outside⟩ := placing.scratch blocked.legacy
  rw [id] at place
  have found : (contextOf plan analysis).region? region = some r := found
  rw [found, Option.getD_some]
  exact ⟨place ▸ (placing.room blocked.legacy).1, place ▸ outside, place⟩

theorem scratch_injective {a b : Int64} (first : 0 ≤ plan.scratch a) (second : 0 ≤ plan.scratch b)
    (same : (plan.scratch a).toInt.toNat = (plan.scratch b).toInt.toNat) : a = b := by
  have left : (0 : Int) ≤ (plan.scratch a).toInt := by simpa [Int64.le_iff_toInt_le] using first
  have right : (0 : Int) ≤ (plan.scratch b).toInt := by simpa [Int64.le_iff_toInt_le] using second
  have equal : plan.scratch a = plan.scratch b := Int64.toInt_inj.mp (by omega)
  unfold Plan.scratch at equal
  simpa using equal

private theorem Ledger.Tells.kept {blocks : List Block} {v : Value} {st st' : Machine.State} {f g : Frame}
    {op : Operation} (tells : (ledger.holding plan f.locals).Tells blocks v)
    (done : execute setup st f op = (st', .next g))
    (spares : ∀ b ∈ blocks, touched? op ≠ some (plan.scratch b.region).toInt.toNat) :
    (ledger.holding plan g.locals).Tells blocks v :=
  tells.agree rfl fun b member => ⟨execute_locals done (spares b member), fun _ => id⟩

/-- Operations of instructions touch no local in which a handler saves. -/
theorem Blocked.spares (blocked : Blocked plan bound analysis) {i : Nat} {o : Bound} {p : Point}
    (reached : Reached bound analysis i o p) {op : Operation}
    (touches : ∀ i, touched? op = some i → i < plan.function.localCount) :
    ∀ b ∈ p.blocks, touched? op ≠ some (plan.scratch b.region).toInt.toNat := by
  intro b member touched
  obtain ⟨_, seat⟩ := (blocked.seated reached).seat member
  have inside := touches _ touched
  have outside := (blocked.scratch seat).2.1
  omega

private theorem Blocked.restores (blocked : Blocked plan bound analysis) (aligned : Aligned bound analysis)
    {i : Nat} {o : Bound} {p : Point} (reached : Reached bound analysis i o p)
    (leaves : o.opcode = .popExcept) : ∃ region below, p.blocks = ⟨region, true⟩ :: below ∧
      restored plan p.shape = .loadLocal (plan.scratch region) := by
  obtain ⟨_, _, next, _, edges⟩ := blocked.processed reached
  obtain ⟨region, blocks⟩ := edges.turns.left blocked.legacy leaves
  obtain ⟨r, _, _, _, found⟩ := blocked.block reached (b := ⟨region, true⟩) (blocks ▸ List.mem_cons_self)
  have innermost := aligned i o p reached leaves
  rw [blocks] at innermost
  have known : region ≠ 0 := by
    rintro rfl
    cases found
  exact ⟨region, next, blocks, (restored_iff known).mpr (Option.some.inj innermost).symm⟩

private theorem Blocked.own_next (blocked : Blocked plan bound analysis) (aligned : Aligned bound analysis)
    {i m : Nat} {o : Bound} {p : Point} (reached : Reached bound analysis i o p) {op : Operation}
    (found : (ownAt plan bound analysis i o p)[m]? = some op) {st st' : Machine.State} {f g : Frame}
    (tells : (ledger.holding plan f.locals).Tells p.blocks st.handled)
    (leaving : o.opcode = .popExcept → m + 1 = (ownAt plan bound analysis i o p).length →
      ∃ b below v rest, p.blocks = b :: below ∧ f.stack = v :: rest ∧
        (ledger.holding plan f.locals).Tells below v)
    (own : f.routine = routineOf plan bound analysis maxDepth)
    (place : f.ip = ownStart plan bound analysis i o + m + 1)
    (done : execute setup st f op = (st', .next g))
    (tactful : ∀ inv, op = .invoke inv → st'.handled = st.handled) :
    Spot plan bound analysis maxDepth (ledger.holding plan g.locals) st'.handled g.stack g.ip := by
  have member := List.mem_of_getElem? found
  have ordinary := ownAt_ordinary (blocked.followable reached).checked member
  have spares := blocked.spares reached ordinary.touches
  by_cases sets : op = .setHandled
  · subst sets
    have leaves := blocked.sets blocked.legacy reached member
    have last := (leaves_ends blocked.toSettled blocked.legacy reached leaves found).1.mp rfl
    obtain ⟨b, below, v, rest, blocks, stack, under⟩ := leaving leaves last
    obtain ⟨w, top, handled, same⟩ := execute_sets done
    rw [stack] at top
    cases top
    have ends : g.ip = leadStart plan bound analysis (i + 1) := by
      rw [same, (blocked.instruction reached 0).1]
      dsimp only
      omega
    rw [ends, handled]
    refine blocked.through reached (ownAt_ends found last rfl) fun next turns => ?_
    have inner : (ledger.holding plan g.locals).Tells below v :=
      under.kept done fun b inside => spares b (blocks ▸ .tail _ inside)
    obtain ⟨_, split⟩ := turns.left blocked.legacy leaves
    have same := blocks.symm.trans split
    cases same
    exact inner
  · have handled := execute_register done sets tactful
    have held := tells
    have tells := tells.kept done spares
    rw [handled]
    have within := execute_within setup st f op
    rw [done] at within
    obtain ⟨_, _, _, moves, _⟩ := within
    rcases moves with ⟨through, falls⟩ | ⟨label, target, index⟩
    · rw [through, place]
      refine blocked.onward reached found falls sets tells fun leaves restores => ?_
      obtain ⟨region, below, blocks, loads⟩ := blocked.restores aligned reached leaves
      rw [restores, loads] at done
      obtain ⟨v, loaded, stack⟩ := execute_loads done
      rw [blocks] at held
      obtain ⟨w, saved, under⟩ := held.under rfl
      have same : some w = some v := saved.symm.trans loaded
      cases same
      exact ⟨_, below, v, _, blocks, stack, under.kept done fun _ _ => nofun⟩
    · rw [own] at index
      rcases blocked.jumps reached member target index with ⟨j, o', q, there, turns, there'⟩ |
        ⟨iterates, k, inside, there⟩
      · rw [there']
        refine blocked.arrives there (tells.turns turns fun leaves => ?_)
        rcases ordinary.jumps label target with ⟨_, jumps, _⟩ | ⟨_, iterates⟩
        · rw [leaves] at jumps
          cases jumps
        · cases leaves.symm.trans iterates
      · exact .own reached inside there tells fun leaves => by cases leaves.symm.trans iterates

private theorem Blocked.opening_next (blocked : Blocked plan bound analysis) {j n : Nat} {o : Bound}
    {q : Point} {before : List Operation} {rest : List Region} {r : Region} {below : List Block}
    (reached : Reached bound analysis j o q) (known : r ∈ analysis.regions)
    (split : leadAt plan bound analysis j o =
      before ++ (r.prologue ++ lead (contextOf plan analysis) o.inst.offset true rest))
    {op : Operation} (found : r.prologue[n]? = some op) (blocks : q.blocks = ⟨r.id, true⟩ :: below)
    {st st' : Machine.State} {f g : Frame}
    (opens : Opening (ledger.holding plan f.locals) r.id below st.handled n f.stack)
    (place : f.ip = leadStart plan bound analysis j + before.length + n + 1)
    (done : execute setup st f op = (st', .next g))
    (tactful : ∀ inv, op = .invoke inv → st'.handled = st.handled) :
    Spot plan bound analysis maxDepth (ledger.holding plan g.locals) st'.handled g.stack g.ip := by
  have placing := blocked.stable.placing blocked.planned known
  have dialect : r.dialect = .legacy := placing.dialect.trans blocked.legacy
  have inside := (List.getElem?_eq_some_iff.mp found).1
  have through : g.ip = f.ip := by
    have within := execute_within setup st f op
    rw [done] at within
    rcases within.2.2.2.1 with ⟨through, _⟩ | ⟨label, target, _⟩
    · exact through
    · cases (prologue_straight (List.mem_of_getElem? found)).2.1.symm.trans target
  have seated := blocked.seated reached
  rw [blocks] at seated
  have apart : ∀ b ∈ below, b.region ≠ r.id := fun b member => seated.apart blocked.separate member
  have handled := fun other => execute_register done other tactful
  have kept : touched? op = none → ∀ {blocks : List Block} {v : Value},
      (ledger.holding plan f.locals).Tells blocks v → (ledger.holding plan g.locals).Tells blocks v :=
    fun spares _ _ tells => tells.kept done fun _ _ touched => by cases spares.symm.trans touched
  have held : touched? op = none → ∀ {v : Value},
      (ledger.holding plan f.locals).saved r.id = some v →
        (ledger.holding plan g.locals).saved r.id = some v := by
    intro spares v saved
    rw [← saved]
    exact execute_locals done fun touched => by cases spares.symm.trans touched
  rw [through, place]
  refine blocked.opens_onward reached known split inside blocks ?_
  rw [Region.prologue, dialect] at found
  generalize stack : f.stack = values at opens
  cases opens with
  | @gets exception rest entered tells =>
    cases found
    rw [handled (by rintro ⟨⟩), execute_gets done, stack]
    exact .stores entered (kept rfl tells)
  | @stores exception rest entered tells =>
    cases found
    obtain ⟨v, top, saved⟩ := execute_stores done
    rw [stack] at top
    obtain ⟨rfl, rest⟩ := List.cons.inj top
    rw [handled (by rintro ⟨⟩), ← rest]
    refine .sets (by omega) (by omega) entered ?_ (tells.kept done fun b member touched => ?_)
    · rw [(placing.scratch blocked.legacy).1] at saved
      exact saved
    · rw [(placing.scratch blocked.legacy).1] at touched
      obtain ⟨_, seat⟩ := seated.below.seat member
      exact apart b member (scratch_injective (blocked.scratch seat).1
        (blocked.scratch (seated _ _ List.suffix_rfl)).1 (Option.some.inj touched).symm)
  | @sets exception n rest v first last entered saved tells =>
    have which : n = 2 ∨ n = 3 := by omega
    rcases which with rfl | rfl
    · cases found
      obtain ⟨w, below, top, left⟩ := execute_copies done
      rw [stack] at top
      cases top
      rw [left]
      exact .sets (by omega) (by omega) entered (held rfl saved) (kept rfl tells)
    · cases found
      obtain ⟨w, top, set, _⟩ := execute_sets done
      rw [stack] at top
      cases top
      rw [set]
      exact .done (by omega) (.running entered (held rfl saved) (kept rfl tells))
  | done first tells =>
    have quiet : op ≠ .setHandled ∧ touched? op = none := by
      obtain ⟨k, rfl⟩ := Nat.exists_eq_add_of_le' first
      rcases k with _ | _ | _ | _ | _ | k <;> cases found <;> exact ⟨by simp, rfl⟩
    rw [handled quiet.1]
    exact .done (by omega) (kept quiet.2 tells)

private theorem Blocked.restoring_next (blocked : Blocked plan bound analysis) {n start : Nat}
    {entry : Cleanup} (member : entry ∈ cleanupsOf plan bound analysis)
    (running : entry.block.running = true)
    (seated : Seated plan bound analysis (entry.block :: entry.below))
    (first : (routineOf plan bound analysis maxDepth).labelIndex? entry.label = some start)
    {op : Operation} (found : (restore (contextOf plan analysis) entry)[n]? = some op)
    {st st' : Machine.State} {f g : Frame}
    (restores : Restoring (ledger.holding plan f.locals) entry.block entry.below st.handled n f.stack)
    (place : f.ip = start + n + 1) (done : execute setup st f op = (st', .next g))
    (tactful : ∀ inv, op = .invoke inv → st'.handled = st.handled) :
    Spot plan bound analysis maxDepth (ledger.holding plan g.locals) st'.handled g.stack g.ip := by
  have straight : op.target? = none ∧ touched? op = none := by
    match n, found with
    | 0, found | 1, found | 2, found | 3, found =>
      cases found
      exact ⟨rfl, rfl⟩
  have kept : ∀ {blocks : List Block} {v : Value},
      (ledger.holding plan f.locals).Tells blocks v → (ledger.holding plan g.locals).Tells blocks v :=
    fun tells => tells.kept done fun _ _ touched => by cases straight.2.symm.trans touched
  have within := execute_within setup st f op
  rw [done] at within
  obtain ⟨_, _, _, moves, _⟩ := within
  rcases moves with ⟨through, falls⟩ | ⟨_, target, _⟩
  · refine .restoring member running seated first (n := n + 1) (by omega) ?_
    have handled := fun other => execute_register done other tactful
    generalize stack : f.stack = values at restores
    cases restores with
    | loads last tells =>
      have which : n = 0 ∨ n = 1 := by omega
      rcases which with rfl | rfl
      · cases found
        rw [handled nofun]
        exact .loads (by omega) (kept tells)
      · cases found
        obtain ⟨v, loaded, left⟩ := execute_loads done
        obtain ⟨w, saved, under⟩ := tells.under running
        rw [(blocked.scratch (seated _ _ List.suffix_rfl)).2.2] at loaded
        have same : some w = some v := saved.symm.trans loaded
        cases same
        rw [left]
        exact .sets (kept under)
    | sets tells =>
      cases found
      obtain ⟨w, top, set, _⟩ := execute_sets done
      rw [stack] at top
      cases top
      rw [set]
      exact .throws (kept tells)
    | throws => cases found; cases falls
  · cases straight.1.symm.trans target

theorem Restoring.inside {block : Block} {below : List Block} {n : Nat}
    (restores : Restoring ledger block below register n stack) : n < 4 := by
  cases restores <;> omega

/-- Every operation that goes on leads from one spot to another. -/
theorem Spot.next (blocked : Blocked plan bound analysis) (aligned : Aligned bound analysis)
    (spot : Spot plan bound analysis maxDepth (ledger.holding plan c.frame.locals) c.state.handled
      c.frame.stack c.frame.ip)
    (own : c.frame.routine = routineOf plan bound analysis maxDepth) {op : Operation}
    {st st' : Machine.State} {f g : Frame} (issued : Issued c op st f)
    (done : execute setup st f op = (st', .next g))
    (tactful : ∀ inv, op = .invoke inv → st'.handled = st.handled) :
    Spot plan bound analysis maxDepth (ledger.holding plan g.locals) st'.handled g.stack g.ip := by
  have operation := issued.operation
  have routine := issued.routine.trans own
  have place := issued.ip
  rw [own] at operation
  rw [← issued.locals, ← issued.handled, ← issued.stack] at spot
  cases spot with
  | own reached inside here tells leaving =>
    obtain ⟨_, _, _, _, stands⟩ := blocked.instruction reached maxDepth
    have found := stands.found inside (here ▸ operation)
    exact blocked.own_next aligned reached found tells leaving routine (here ▸ place) done tactful
  | @around j n o q reached jumps here tells =>
    obtain ⟨_, _, _, stands, _⟩ := blocked.instruction reached maxDepth
    have code := (stands _ _ jumps).1
    rw [← here, operation] at code
    cases code
    have handled := execute_register done nofun nofun
    have within := execute_within setup st f (.goto o.inst.offset)
    rw [done] at within
    rcases within.2.2.2.1 with ⟨_, falls⟩ | ⟨label, target, index⟩
    · cases falls
    · cases target
      rw [routine] at index
      rw [blocked.target reached index, handled]
      exact blocked.arrives reached (tells.kept done fun _ _ => nofun)
  | opening reached known split inside here blocks opens =>
    obtain ⟨_, _, _, stands, _⟩ := blocked.instruction reached maxDepth
    rw [split] at stands
    have found := stands.append.2.append.1.found inside (here ▸ operation)
    exact blocked.opening_next reached known split found blocks opens (here ▸ place) done tactful
  | restoring member running seated first here restores =>
    obtain ⟨_, _, _, _, _, stands, defined⟩ := blocked.cleanup member maxDepth
    have same := first.symm.trans defined
    cases same
    have found := stands.found restores.inside (here ▸ operation)
    exact blocked.restoring_next member running seated first found restores (here ▸ place) done tactful

/-- A call that returns leads to the next spot, whatever it gives. -/
theorem Spot.invoked (blocked : Blocked plan bound analysis) {ip : Nat}
    (spot : Spot plan bound analysis maxDepth ledger register stack ip) {inv : Invocation}
    (operation : (routineOf plan bound analysis maxDepth).ops[ip]? = some (.invoke inv))
    (values : List Value) : Spot plan bound analysis maxDepth ledger register values (ip + 1) := by
  cases spot with
  | own reached inside here tells =>
    obtain ⟨_, _, _, _, stands⟩ := blocked.instruction reached maxDepth
    have found := stands.found inside (here ▸ operation)
    rw [here]
    refine blocked.onward reached found rfl (by rintro ⟨⟩) tells fun _ restores => ?_
    rw [restored] at restores
    split at restores <;> cases restores
  | around reached jumps here =>
    obtain ⟨_, _, _, stands, _⟩ := blocked.instruction reached maxDepth
    have code := (stands _ _ jumps).1
    rw [← here, operation] at code
    cases code
  | @opening j n _ _ _ _ _ _ reached known split inside here blocks opens =>
    obtain ⟨_, _, _, stands, _⟩ := blocked.instruction reached maxDepth
    rw [split] at stands
    have found := stands.append.2.append.1.found inside (here ▸ operation)
    rw [Region.prologue, (blocked.stable.placing blocked.planned known).dialect, blocked.legacy] at found
    rw [here]
    refine blocked.opens_onward reached known split inside blocks ?_
    cases opens with
    | gets | stores => cases found
    | sets first last =>
      have which : n = 2 ∨ n = 3 := by omega
      rcases which with rfl | rfl <;> cases found
    | done first tells => exact .done (by omega) tells
  | @restoring n _ _ member _ _ first here restores =>
    obtain ⟨_, _, _, _, _, stands, defined⟩ := blocked.cleanup member maxDepth
    have same := first.symm.trans defined
    cases same
    have found := stands.found restores.inside (here ▸ operation)
    rcases n with _ | _ | _ | _ | n <;> cases found
end

end Lowering.Proofs
