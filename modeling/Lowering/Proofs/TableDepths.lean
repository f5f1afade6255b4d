import Lowering.Proofs.Passages

/-! Depths in a function with an exception table. The walk over its routine gets to every instruction that
the analysis gets to, and finds the depth of its shape there. -/

namespace Lowering.Proofs
open Host Shape Guest Emission

variable {plan : Plan} {bound : Array Bound} {analysis : Analysis.State} {maxDepth : Int64} {d : Depths}

theorem Stands.short {r : Routine} {start : Nat} {operations : List Operation} {origin : Int64}
    {protection : Option Protection} (stands : Stands r start operations origin protection) :
    operations.length ≤ r.ops.size := by
  by_contra long
  have inside : operations.length - 1 < operations.length := by omega
  have last := (stands _ _ (List.getElem?_eq_getElem inside)).1
  have within := (Array.getElem?_eq_some_iff.mp last).1
  omega

theorem Settled.size (settled : Settled plan bound analysis) (maxDepth : Int64) :
    (routineOf plan bound analysis maxDepth).ops.size ≤ addressable := by
  simpa [routineOf, Builder.build] using settled.small

/-- Some operation is emitted. -/
theorem Setting.present (setting : Setting plan bound analysis) (maxDepth : Int64) :
    (routineOf plan bound analysis maxDepth).ops.isEmpty = false := by
  obtain ⟨_, _, piece, m, member, inside, place, _⟩ := @Setting.enters (fun _ => true) _ _ _ setting maxDepth
  obtain ⟨_, stands⟩ := (setting.charted maxDepth).stands piece member
  have within := (Array.getElem?_eq_some_iff.mp (stands m _ (List.getElem?_eq_getElem inside)).1).1
  simp only [Array.isEmpty, decide_eq_false_iff_not]
  omega

theorem prologue_fair (r : Region) : r.prologue.all fair = true := by
  unfold Region.prologue
  cases r.dialect with
  | legacy => rfl
  | modern => cases r.lasti <;> rfl

theorem lead_fair (c : Context) (offset : Int64) (falls : Bool) (regions : List Region) :
    (lead c offset falls regions).all fair = true := by
  induction regions generalizing falls with
  | nil => rfl
  | cons r rest ih =>
    rw [lead, List.all_append, List.all_append, List.all_cons, prologue_fair, ih]
    cases falls <;> rfl

/-- Control that is led around prologues gets to the instruction. -/
theorem Setting.around (setting : Setting plan bound analysis)
    (agreeing : Agreeing (routineOf plan bound analysis maxDepth) d) {j : Nat} {o : Bound} {q : Point}
    (reached : Reached bound analysis j o q) {start n : Nat} {regions : List Region} {origin : Int64}
    {protection : Option Protection} (stands : Stands (routineOf plan bound analysis maxDepth) start
      (lead (contextOf plan analysis) o.inst.offset true regions) origin protection)
    (ends : start + (lead (contextOf plan analysis) o.inst.offset true regions).length =
      ownStart plan bound analysis j o) (small : n < 2 ^ 63)
    (here : d.before[start]? = some (Int64.ofNat n)) :
    d.before[ownStart plan bound analysis j o]? = some (Int64.ofNat n) := by
  cases regions with
  | nil =>
    rw [← ends]
    exact here
  | cons r rest =>
    have positive : 0 ≤ Int64.ofNat n := Int64.zero_le_ofNat_of_lt small
    have followed := agreeing.followed start (.goto o.inst.offset) _ positive here
      (stands 0 _ rfl).1
    obtain ⟨target, found, arrives⟩ := followed.jumps o.inst.offset rfl
    rw [← setting.target reached found]
    have same : Int64.ofNat n - (Operation.goto o.inst.offset).pops +
        (Operation.goto o.inst.offset).pushes = Int64.ofNat n := by
      simp [Operation.pops, Operation.pushes]
    exact (same ▸ arrives).2 positive

theorem prologue_passes (r : Region) : r.prologue.all passes = true := by
  refine List.all_eq_true.mpr fun op member => ?_
  obtain ⟨falls, straight, _⟩ := prologue_straight member
  simp [passes, falls, straight]

theorem prologue_level (r : Region) (n : Nat) : r.prologue.foldl depthAfter (n + 1) = n + r.state.length := by
  unfold Region.prologue Region.state
  cases r.dialect with
  | legacy =>
    change n + 1 + 1 - 1 + 0 - 1 + 2 - 1 + 0 - 1 + 2 - 1 + 1 - 2 + 2 - 1 + 2 - 1 + 1 = n + 3
    omega
  | modern =>
    cases r.lasti with
    | false => rfl
    | true =>
      change n + 1 - 1 + 2 - 1 + 1 - 2 + 2 = n + 2
      omega

theorem prologue_mirrors (r : Region) (label : Label) (n : Nat) :
    Mirrors (.label label :: r.prologue) (n + 1) fun exit depth =>
      exit = none ∧ depth = n + r.state.length := by
  have straight : (Operation.label label :: r.prologue).all passes = true := prologue_passes r
  have level : (Operation.label label :: r.prologue).foldl depthAfter (n + 1) = n + r.state.length :=
    prologue_level r n
  rw [← List.append_nil (Operation.label label :: r.prologue)]
  refine .append _ straight fun _ => .nil fun exit depth => ?_
  rw [level]

/-- A walk that gets to the prologue of a handler gets to its instruction. -/
theorem Setting.handled (setting : Setting plan bound analysis)
    (agreeing : Agreeing (routineOf plan bound analysis maxDepth) d) {r : Region}
    (member : r ∈ analysis.regions) {handler : Label}
    (labelled : (contextOf plan analysis).catch? r.id = some handler) {j : Nat} {o : Bound} {q : Point}
    (reached : Reached bound analysis j o q) (place : o.inst.offset = r.handler) {ip n : Nat}
    (found : (routineOf plan bound analysis maxDepth).labelIndex? handler = some ip)
    (small : n ≤ addressable) (here : d.before[ip]? = some (Int64.ofNat (n + 1))) :
    d.before[ownStart plan bound analysis j o]? = some (Int64.ofNat (n + r.state.length)) := by
  obtain ⟨before, rest, split, first⟩ := setting.prologue member labelled reached place maxDepth
  obtain ⟨_, protection, _, stands, _⟩ := setting.instruction reached maxDepth
  rw [split] at stands
  have code : Stands _ _ ((.label handler :: r.prologue) ++
      lead (contextOf plan analysis) o.inst.offset true rest) _ _ := stands.append.2
  rw [← Option.some.inj (found.symm.trans first)] at code
  have size := setting.size maxDepth
  have short := code.append.1.short
  have few : r.state.length ≤ 3 := by
    unfold Region.state
    split
    · exact Nat.le_refl _
    · split <;> simp
  simp only [addressable] at size small
  have passed := agreeing.mirrored code.append.1 (prologue_fair r) (by omega) here
    (prologue_mirrors r handler n) ⟨rfl, rfl⟩
  refine setting.around agreeing reached code.append.2 ?_ (by omega) passed
  rw [found] at first
  rw [ownStart, split, List.length_append, Option.some.inj first]
  simp only [List.length_cons, List.length_append]
  omega

/-- The operations of an instruction are left as its flow says. -/
theorem Settled.mirrors (settled : Settled plan bound analysis) {i : Nat} {o : Bound} {p : Point}
    (reached : Reached bound analysis i o p) {stamp : Nat} {flow : Flow}
    (flows : o.flow plan stamp p.shape = .ok flow) :
    Mirrors (ownAt plan bound analysis i o p) p.shape.depth
      (Way (iterationLabel plan bound analysis i o p) o flow) := by
  have expanded : Mirrors (o.expand plan (iterationLabel plan bound analysis i o p) p.shape)
      p.shape.depth (Way (iterationLabel plan bound analysis i o p) o flow) :=
    expand_mirrors (settled.followable reached).toLawful (settled.stable.sane i p reached.point).1 flows
  unfold ownAt own
  split
  · exact .append [_] rfl fun _ => expanded
  · exact expanded

theorem Settled.fair (settled : Settled plan bound analysis) {i : Nat} {o : Bound} {p : Point}
    (reached : Reached bound analysis i o p) (countable : Countable o) :
    (ownAt plan bound analysis i o p).all Proofs.fair = true := by
  obtain ⟨stamp, flow, _, flows, _⟩ := settled.processed reached
  have expanded : (o.expand plan (iterationLabel plan bound analysis i o p) p.shape).all Proofs.fair =
      true :=
    expand_fair (settled.followable reached).toLawful countable (settled.stable.sane i p reached.point).1 flows
  unfold ownAt own
  rw [List.all_append, Bool.and_eq_true]
  refine ⟨?_, expanded⟩
  split <;> rfl

/-- What is covered has the depth of what covers it. -/
theorem Covers.depth {j : Nat} {p q : Point} (covers : Covers analysis j p)
    (point : analysis.point? j = some q) : q.shape.depth = p.shape.depth := by
  obtain ⟨known, found, _, widens⟩ := covers
  cases point.symm.trans found
  exact widens.cells.length_eq.symm

/-- A function whose routine a walk accepts, and whose calls take slots that can be counted. -/
structure Measured (plan : Plan) (bound : Array Bound) (analysis : Analysis.State) (maxDepth : Int64)
    (d : Depths) : Prop extends Setting plan bound analysis where
  countable : ∀ (i : Nat) (o : Bound), bound[i]? = some o → Countable o
  agreeing : Agreeing (routineOf plan bound analysis maxDepth) d

section
variable {i j : Nat} {o o' : Bound} {p q : Point}

/-- A walk that gets to an instruction leaves it as its flow says. -/
theorem Measured.onward (measured : Measured plan bound analysis maxDepth d)
    (reached : Reached bound analysis i o p)
    (here : d.before[ownStart plan bound analysis i o]? = some (Int64.ofNat p.shape.depth))
    {stamp : Nat} {flow : Flow} (flows : o.flow plan stamp p.shape = .ok flow) {exit : Option Label}
    {depth : Nat} (way : Way (iterationLabel plan bound analysis i o p) o flow exit depth) :
    Notes (routineOf plan bound analysis maxDepth) d.before (leadStart plan bound analysis (i + 1)) exit
      depth := by
  obtain ⟨next, protection, _, _, stands⟩ := measured.instruction reached maxDepth
  have small := (measured.stable.sane i p reached.point).1
  have size := measured.size maxDepth
  have short := stands.short
  simp only [addressable] at small size
  rw [next]
  exact measured.agreeing.mirrored stands (measured.fair reached (measured.countable i o reached.found))
    (by omega) here (measured.mirrors reached flows) way

theorem Measured.iterated (measured : Measured plan bound analysis maxDepth d)
    (reached : Reached bound analysis i o p) (iterates : o.opcode = .forIter) {target n : Nat}
    (found : (routineOf plan bound analysis maxDepth).labelIndex?
      (iterationLabel plan bound analysis i o p) = some target) (small : n < 2 ^ 63)
    (here : d.before[target]? = some (Int64.ofNat n)) :
    d.before[leadStart plan bound analysis (i + 1)]? = some (Int64.ofNat n) := by
  obtain ⟨before, _, split⟩ := ownAt_iteration plan bound analysis i p iterates
  obtain ⟨next, _, _, _, stands⟩ := measured.instruction reached maxDepth
  have last := (stands before.length _ (by rw [split]; exact List.getElem?_concat_length)).1
  rw [Option.some.inj (found.symm.trans (measured.label last))] at here
  have positive : 0 ≤ Int64.ofNat n := Int64.zero_le_ofNat_of_lt small
  have followed := measured.agreeing.followed _ _ _ positive here last
  have same : Int64.ofNat n - (Operation.label (iterationLabel plan bound analysis i o p)).pops +
      (Operation.label (iterationLabel plan bound analysis i o p)).pushes = Int64.ofNat n := by
    simp [Operation.pops, Operation.pushes]
  have arrives := (same ▸ followed.falls rfl).2 positive
  rw [next, split, List.length_append]
  exact arrives

/-- A walk that gets to an instruction gets to the one that control falls into. -/
theorem Measured.through (measured : Measured plan bound analysis maxDepth d)
    (reached : Reached bound analysis i o p) (next : Reached bound analysis (i + 1) o' q)
    (falls : o.opcode.terminates = false)
    (here : d.before[ownStart plan bound analysis i o]? = some (Int64.ofNat p.shape.depth)) :
    d.before[ownStart plan bound analysis (i + 1) o']? = some (Int64.ofNat q.shape.depth) := by
  obtain ⟨stamp, flow, blocks, flows, edges⟩ := measured.processed reached
  have through : flow.falls = true := by
    rw [(flow_edges flows).1, falls]
    rfl
  have small : q.shape.depth < 2 ^ 63 := by
    have small := (measured.stable.sane (i + 1) q next.point).1
    simp only [addressable] at small
    omega
  have depth : q.shape.depth = flow.next.depth := (edges.falls through).2.depth next.point
  have arrives : d.before[leadStart plan bound analysis (i + 1)]? = some (Int64.ofNat q.shape.depth) := by
    by_cases iterates : o.opcode = .forIter
    · obtain ⟨target, found, noted⟩ := measured.onward reached here flows (.again through iterates)
      exact measured.iterated reached iterates found small (depth ▸ noted)
    · exact depth ▸ measured.onward reached here flows (.through through iterates)
  have continues := (measured.stable.processed i o p reached.found reached.point).falls
  rw [falls] at continues
  obtain ⟨_, protection, _, stands, _⟩ := measured.instruction next maxDepth
  rw [leadAt, stage_falls reached.found reached.point continues] at stands
  refine measured.around measured.agreeing next stands ?_ small arrives
  rw [ownStart, leadAt, stage_falls reached.found reached.point continues]

/-- A walk that gets to an instruction gets to those that it jumps to. -/
theorem Measured.jumps (measured : Measured plan bound analysis maxDepth d)
    (reached : Reached bound analysis i o p) {stamp : Nat} {flow : Flow} {blocks : List Block}
    (flows : o.flow plan stamp p.shape = .ok flow) (edges : Edges plan analysis i o p flow blocks)
    {e : Edge} (listed : e ∈ flow.branches) (plain : e.handler = false)
    (there : Reached bound analysis j o' q) (place : o'.inst.offset = e.target)
    (index : Analysis.indexOf plan.function e.target = j)
    (here : d.before[ownStart plan bound analysis i o]? = some (Int64.ofNat p.shape.depth)) :
    d.before[ownStart plan bound analysis j o']? = some (Int64.ofNat q.shape.depth) := by
  obtain ⟨target, found, noted⟩ := measured.onward reached here flows (.branch listed plain)
  rw [← place] at found
  have depth : q.shape.depth = e.shape.depth :=
    (edges.branches e listed plain).2.depth (index ▸ there.point)
  rw [← measured.target there found, depth]
  exact noted

theorem expand_raises (plan : Plan) (fresh : Label) (s : Stack) (raises : o.opcode.mayRaise = true) :
    o.expand plan fresh s ≠ [] := by
  cases opcode : o.opcode <;> rw [opcode] at raises <;>
    first | (cases raises; done) | simp only [Bound.expand, opcode]
  case loadGlobal => simp
  case loadAttr => split <;> simp
  case reraise =>
    unfold Guest.reraise
    split
    · simp
    · split <;> simp
  case raiseVarargs =>
    split
    · simp
    · split <;> simp
  all_goals simp

/-- A walk that gets to an instruction that may raise gets to its handler. -/
theorem Measured.raises (measured : Measured plan bound analysis maxDepth d)
    (modern : plan.dialect = .modern) (reached : Reached bound analysis i o p)
    (raises : o.opcode.mayRaise = true) {r : Region}
    (protects : Analysis.protecting? plan analysis i p = some r)
    (there : Reached bound analysis j o' q) (index : Analysis.indexOf plan.function r.handler = j)
    (here : d.before[ownStart plan bound analysis i o]? = some (Int64.ofNat p.shape.depth)) :
    d.before[ownStart plan bound analysis j o']? = some (Int64.ofNat q.shape.depth) := by
  obtain ⟨small, rooted, _⟩ := measured.stable.sane i p reached.point
  obtain ⟨member, positive, _⟩ :=
    protecting?_spec measured.planned measured.stable.regions rooted protects
  obtain ⟨deep, edge⟩ :=
    (measured.stable.processed i o p reached.found reached.point).raises r protects
  obtain ⟨_, stamp, covers⟩ := edge raises
  obtain ⟨j', o'', q', label, found, other, place, _, labelled⟩ := measured.catches member covers
  have same : j' = j := by simpa [Analysis.indexOf, found] using index
  subst same
  cases there.found.symm.trans other.found
  have below : r.depth.toInt.toNat ≤ p.shape.depth :=
    toNat_le_of_not_lt (by simp only [addressable] at small; omega) deep
  have depth : q.shape.depth = r.depth.toInt.toNat + r.state.length := by
    rw [covers.depth (index ▸ there.point), caughtPoint, pushAll_eq]
    simp only [Stack.depth, Stack.truncate, List.length_append, List.length_reverse, List.length_map,
      List.length_drop] at below ⊢
    omega
  -- The first operation of the instruction is protected.
  obtain ⟨_, protection, guarded, _, stands⟩ := measured.instruction reached maxDepth
  have protected' : protection = some ⟨label, r.depth⟩ := by
    unfold Guarded at guarded
    rw [show (contextOf plan analysis).plan.dialect = .modern from modern] at guarded
    simp only [Analysis.protecting?, modern] at protects
    have known : (contextOf plan analysis).region? ((contextOf plan analysis).plan.protecting i) =
      some r := protects
    rw [guarded, known, Option.bind_some, labelled, Option.map_some]
  obtain ⟨op, rest, split⟩ : ∃ op rest, ownAt plan bound analysis i o p = op :: rest := by
    cases code : ownAt plan bound analysis i o p with
    | nil =>
      have empty := (List.append_eq_nil_iff.mp code).2
      exact absurd empty (expand_raises plan _ p.shape raises)
    | cons op rest => exact ⟨op, rest, rfl⟩
  obtain ⟨operation, _, region⟩ := stands 0 op (by rw [split]; rfl)
  rw [protected', Option.map_eq_some_iff] at region
  obtain ⟨region, covering, kept⟩ := region
  have followed := measured.agreeing.followed _ _ _
    (Int64.zero_le_ofNat_of_lt (by simp only [addressable] at small; omega)) here operation
  obtain ⟨_, target, handler, arrives⟩ := followed.raises region covering
  simp only [Protection.mk.injEq] at kept
  rw [kept.1] at handler
  have level : region.depth + 1 = Int64.ofNat (r.depth.toInt.toNat + 1) := by
    rw [kept.2, Int64.ofNat_add, ofNat_toNat positive]
    rfl
  rw [level] at arrives
  have low : r.depth.toInt.toNat ≤ addressable := Nat.le_trans below small
  rw [depth]
  refine measured.handled measured.agreeing member labelled there place handler low (arrives.2 ?_)
  exact Int64.zero_le_ofNat_of_lt (by simp only [addressable] at low; omega)

theorem prologue_starved {r : Region} {label : Label}
    (endures : Endures (.label label :: r.prologue) 0) : r.prologue = [] := by
  have rest : Endures r.prologue 0 := endures.2 rfl
  unfold Region.prologue at rest ⊢
  cases dialect : r.dialect with
  | legacy =>
    simp only [dialect] at rest
    have starved : (1 : Int) ≤ (0 : Nat) := ((rest.2 rfl).2 rfl).1
    omega
  | modern =>
    cases lasti : r.lasti with
    | false => rfl
    | true =>
      simp only [dialect, lasti, if_true] at rest
      have starved : (1 : Int) ≤ (0 : Nat) := rest.1
      omega

theorem Settled.first (settled : Settled plan bound analysis) : leadStart plan bound analysis 0 = 0 := by
  simp only [leadStart, place, stage]
  exact congrArg Array.size (labelledHandlers_labelling settled.numbered).emitted

/-- A walk gets to the first instruction. -/
theorem Measured.enters (measured : Measured plan bound analysis maxDepth d)
    (reached : Reached bound analysis 0 o p) :
    d.before[ownStart plan bound analysis 0 o]? = some (Int64.ofNat p.shape.depth) := by
  have depth : p.shape.depth = 0 := measured.stable.entry.depth reached.point
  obtain ⟨_, protection, _, stands, _⟩ := measured.instruction reached maxDepth
  have here : d.before[leadStart plan bound analysis 0]? = some (Int64.ofNat 0) := by
    rw [measured.first]
    exact measured.agreeing.entry
  rw [depth]
  cases handlers : handlersAt (contextOf plan analysis) o.inst.offset with
  | nil => simpa [ownStart, leadAt, handlers, lead] using here
  | cons r rest =>
    have code : leadAt plan bound analysis 0 o =
        (.label (((contextOf plan analysis).catch? r.id).getD 0) :: r.prologue) ++
          lead (contextOf plan analysis) o.inst.offset true rest := by
      rw [leadAt, handlers, lead]
      rfl
    rw [code] at stands
    have short := stands.append.1.short
    have size := measured.size maxDepth
    simp only [addressable] at size
    obtain ⟨endures, passes⟩ := measured.agreeing.passage stands.append.1 (prologue_fair r) (by omega) here
    have empty := prologue_starved endures
    rw [empty] at code stands passes
    have passed := passes none 0 ⟨Int.le_refl 0, .inr ⟨rfl, rfl, rfl⟩⟩
    refine measured.around measured.agreeing reached stands.append.2 ?_ (by omega) passed
    rw [ownStart, code, List.length_append, Nat.add_assoc]

theorem setupFinally_legacy {v : Version} {dialect : Dialect} {behavior : Behavior}
    (resolved : resolve? .setupFinally v = some (dialect, behavior)) : dialect = .legacy := by
  have version := resolve?_dialect resolved
  obtain ⟨rule, listed, opcode, since, limit, _⟩ := resolve?_rule resolved
  have rules : ∀ rule ∈ policy, rule.opcode = .setupFinally →
      rule = ⟨.setupFinally, .minimum, .exceptionTable, { exceptionSlots := 3 }⟩ := by decide
  rw [rules rule listed opcode] at since limit
  have before : v.atLeast .exceptionTable = false := limit.resolve_left (by decide)
  unfold dialectOf? at version
  rw [before, if_neg Bool.false_ne_true, if_pos since] at version
  exact (Option.some.inj version).symm

theorem Planned.setup_legacy (planned : Planned plan bound) (found : bound[i]? = some o)
    (setup : o.opcode = .setupFinally) : plan.dialect = .legacy := by
  obtain ⟨_, made⟩ := planned.bounds found
  have resolved := (ofInstruction_spec made).2.2.1
  have dialect := resolve?_dialect resolved
  rw [planned.dialect] at dialect
  rw [setup] at resolved
  exact (Option.some.inj dialect).trans (setupFinally_legacy resolved)

/-- In a function with an exception table the walk gets to every instruction that the analysis gets to. -/
theorem Measured.walked (measured : Measured plan bound analysis maxDepth d)
    (modern : plan.dialect = .modern) (reached : Reached bound analysis i o p) :
    d.before[ownStart plan bound analysis i o]? = some (Int64.ofNat p.shape.depth) := by
  have linked := (measured.stable.sane i p reached.point).2.2
  induction linked generalizing o p with
  | entry => exact measured.enters reached
  | @step i j before _ known leads ih =>
    cases leads with
    | @falls o' found through =>
      exact measured.through ⟨found, known⟩ reached through (ih ⟨found, known⟩)
    | @jumps o' found jumps =>
      obtain ⟨stamp, flow, next, flows, edges⟩ := measured.processed ⟨found, known⟩
      obtain ⟨e, listed, target⟩ := flow_jumps flows jumps
      have plain : e.handler = false := by
        by_contra handler
        have setup := ((flow_edges flows).2 e listed).2.2 (by simpa using handler)
        cases modern.symm.trans (measured.planned.setup_legacy found setup)
      have somewhere := jumps_somewhere (measured.followable ⟨found, known⟩).checked jumps
      have covers := (edges.branches e listed plain).2
      rw [target] at covers
      obtain ⟨o'', _, there, place, _⟩ := measured.offset somewhere covers
      cases reached.found.symm.trans there.found
      exact measured.jumps ⟨found, known⟩ flows edges listed plain reached (target ▸ place)
        (target ▸ rfl) (ih ⟨found, known⟩)
    | @raises o' p' r found again protects raises =>
      cases known.symm.trans again
      exact measured.raises modern ⟨found, known⟩ raises protects reached rfl (ih ⟨found, known⟩)

end

end Lowering.Proofs
