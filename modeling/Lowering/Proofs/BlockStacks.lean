import Lowering.Proofs.Orders
import Lowering.Proofs.Origins

/-! The blocks of a legacy function, at every moment of its analysis. A block stands on the blocks that are
recorded where its region is set up: edges only push a block on what is recorded at such an instruction,
or take blocks off, and edges that disagree are refused. -/

namespace Lowering.Proofs
open Host Shape Guest Emission

variable {plan : Plan} {bound : Array Bound} {st later : Analysis.State}

/-- A state to which an analysis comes between two instructions. -/
inductive Visited (plan : Plan) (bound : Array Bound) : Analysis.State → Prop
  | entered {st : Analysis.State}
      (entered : (Analysis.State.start plan).merge plan.function 0
        ⟨Stack.entry plan.function.localCount plan.function.argCount, []⟩ = .ok st) : Visited plan bound st
  | processed {st later : Analysis.State} {i : Nat} {work : List Nat} (before : Visited plan bound st)
      (next : st.work = i :: work) (done : advance plan bound st i = .ok later) : Visited plan bound later

/-- A state in which an analysis has recorded something: between two instructions, or within one, after
the edge to its handler and some of its branches. What comes afterwards may fail. -/
inductive Recorded (plan : Plan) (bound : Array Bound) : Analysis.State → Prop
  | visited {st : Analysis.State} (visited : Visited plan bound st) : Recorded plan bound st
  | raised {st later : Analysis.State} {i : Nat} {work : List Nat} {o : Bound} {p : Point}
      (before : Visited plan bound st) (next : st.work = i :: work) (found : bound[i]? = some o)
      (known : st.point? i = some p) (raised : Analysis.raise plan (taken st i) i o p = .ok later) :
      Recorded plan bound later
  | branched {st raised turned later : Analysis.State} {i : Nat} {work : List Nat} {o : Bound} {p : Point}
      {flow : Flow} {blocks : List Block} (before : Visited plan bound st) (next : st.work = i :: work)
      (found : bound[i]? = some o) (known : st.point? i = some p)
      (raises : Analysis.raise plan (taken st i) i o p = .ok raised)
      (flows : o.flow plan raised.stamp p.shape = .ok flow)
      (turns : Analysis.blocksAfter plan { raised with
        stamp := raised.stamp + 1, falls := raised.falls.setIfInBounds i flow.falls } i o p =
          .ok (blocks, turned)) (branches : Nat)
      (followed : Analysis.follow plan o p blocks turned (flow.branches.take branches) = .ok later) :
      Recorded plan bound later

theorem analyze_idle {last : Analysis.State} (analysed : Analysis.analyze plan bound = .ok last) :
    Visited plan bound last ∧ last.work = [] := by
  rw [← analyzeBy_newest] at analysed
  unfold analyzeBy at analysed
  dsimp only at analysed
  split at analysed
  · cases analysed
  · next st entered =>
    have kept : ∀ st later, Visited plan bound st → st.work ≠ [] →
        advance plan bound st (Order.newest.choose st) = .ok later → Visited plan bound later := by
      intro st later before some done
      cases work : st.work with
      | nil => exact absurd work some
      | cons i rest =>
        have chosen : Order.newest.choose st = i := by simp [Order.newest, work]
        exact .processed before work (chosen ▸ done)
    exact runBy_induction (Visited plan bound) kept (.entered entered) analysed

theorem analyze_visited {last : Analysis.State} (analysed : Analysis.analyze plan bound = .ok last) :
    Visited plan bound last :=
  (analyze_idle analysed).1

/-- The blocks that an instruction may send along an edge. -/
inductive Sends (plan : Plan) (st : Analysis.State) (i : Nat) (o : Bound) (p : Point) : List Block → Prop
  | turns {next : List Block} (turns : Turns plan o p.blocks next) : Sends plan st i o p next
  | enters {r : Region} (setup : o.opcode = .setupFinally)
      (found : plan.setupRegion? o.inst.offset = some r) : Sends plan st i o p (⟨r.id, true⟩ :: p.blocks)
  | raises {r : Region} (protects : Analysis.protecting? plan st i p = some r) (stamp : Nat) :
      Sends plan st i o p (caughtPoint stamp p r).blocks

/-- A state that the processing of an instruction comes to: it joins in what the instruction sends, covers
the regions that are set up, and tells a region its depth. -/
inductive Evolves (plan : Plan) (st : Analysis.State) (i : Nat) (o : Bound) (p : Point) :
    Analysis.State → Prop
  | start : Evolves plan st i o p st
  | quiet {mid later : Analysis.State} (before : Evolves plan st i o p mid)
      (points : later.points = mid.points) (regions : later.regions = mid.regions) :
      Evolves plan st i o p later
  | covers {mid : Analysis.State} {r : Region} (before : Evolves plan st i o p mid)
      (protects : Analysis.protecting? plan st i p = some r) (legacy : r.dialect = .legacy) :
      Evolves plan st i o p
        (mid.cover p.blocks o.inst.offset (Analysis.stopOf plan.function i o.inst.offset))
  | learns {mid : Analysis.State} {r s : Region} (before : Evolves plan st i o p mid)
      (setup : o.opcode = .setupFinally) (found : plan.setupRegion? o.inst.offset = some r)
      (present : Plan.regionIn? mid.regions r.id = some s) :
      Evolves plan st i o p (mid.mapRegion s.id fun s =>
        { s with depth := p.shape.height, entryDepth := p.shape.height + Int64.ofNat s.slotCount })
  | merges {mid later : Analysis.State} {j : Nat} {q : Point} (before : Evolves plan st i o p mid)
      (sent : Sends plan st i o p q.blocks) (merged : mid.merge plan.function j q = .ok later) :
      Evolves plan st i o p later

private theorem enqueue_quiet (st : Analysis.State) (j : Nat) :
    (st.enqueue j).points = st.points ∧ (st.enqueue j).regions = st.regions := by
  unfold Analysis.State.enqueue
  split <;> exact ⟨rfl, rfl⟩

private theorem target_quiet (st : Analysis.State) (offset : Int64) :
    (st.target offset).points = st.points ∧ (st.target offset).regions = st.regions := by
  unfold Analysis.State.target
  split <;> exact ⟨rfl, rfl⟩

private theorem replace_points (st : Analysis.State) (j : Nat) (p : Point) :
    ({ st with points := st.points.setIfInBounds j (some p) }.enqueue j).regions = st.regions ∧
      ∀ k, ({ st with points := st.points.setIfInBounds j (some p) }.enqueue j).point? k = st.point? k ∨
        k = j ∧ ({ st with points := st.points.setIfInBounds j (some p) }.enqueue j).point? k = some p := by
  obtain ⟨points, regions⟩ := enqueue_quiet { st with points := st.points.setIfInBounds j (some p) } j
  refine ⟨regions, fun k => ?_⟩
  simp only [Analysis.State.point?, points, Array.getElem?_setIfInBounds]
  split
  · next same =>
    split
    · exact .inr ⟨same.symm, rfl⟩
    · next outside =>
      subst same
      rw [Array.getElem?_eq_none (Nat.not_lt.mp outside)]
      exact .inl rfl
  · exact .inl rfl

theorem merge_points {fn : Function} {j : Nat} {p : Point} (merged : st.merge fn j p = .ok later) :
    later.regions = st.regions ∧ ∀ k, later.point? k = st.point? k ∨ k = j ∧
      (∃ q, later.point? k = some q ∧ q.blocks = p.blocks) ∧
        ∀ known, st.point? k = some known → known.blocks = p.blocks := by
  unfold Analysis.State.merge at merged
  split at merged
  · next missing =>
    split at merged
    · cases merged
    · cases merged
      obtain ⟨regions, points⟩ := replace_points st j p
      refine ⟨regions, fun k => (points k).imp_right fun ⟨same, here⟩ =>
        ⟨same, ⟨p, here, rfl⟩, fun known found => ?_⟩⟩
      rw [same, missing] at found
      cases found
  · next known present =>
    split at merged
    · cases merged
    · next agree =>
      have agree : known.blocks = p.blocks := Decidable.not_not.mp agree
      split at merged
      · cases merged
      · next result unified =>
        dsimp only at merged
        split at merged
        · cases merged
          exact ⟨rfl, fun k => .inl rfl⟩
        · cases merged
          obtain ⟨regions, points⟩ :=
            replace_points { st with stamp := st.stamp + 1 } j ⟨result, known.blocks⟩
          refine ⟨regions, fun k => (points k).imp_right fun ⟨same, here⟩ =>
            ⟨same, ⟨_, here, agree⟩, fun other found => ?_⟩⟩
          rw [same, present] at found
          cases found
          exact agree

private theorem mapRegion_numbered (numbered : Numbered st.regions) (id : Int64) {f : Region → Region}
    (same : ∀ r, (f r).id = r.id) : Numbered (st.mapRegion id f).regions := by
  refine ⟨by simpa [Analysis.State.mapRegion] using numbered.1, fun k r found => ?_⟩
  simp only [Analysis.State.mapRegion, List.getElem?_map, Option.map_eq_some_iff] at found
  obtain ⟨s, present, rfl⟩ := found
  rw [← numbered.2 k s present]
  split
  · exact same s
  · rfl

private theorem cover_quiet (st : Analysis.State) (blocks : List Block) (offset stop : Int64) :
    (st.cover blocks offset stop).points = st.points ∧
      (Numbered st.regions → Numbered (st.cover blocks offset stop).regions) := by
  unfold Analysis.State.cover
  generalize blocks.filter (fun b => !b.running) = opened
  induction opened generalizing st with
  | nil => exact ⟨rfl, id⟩
  | cons b rest ih =>
    obtain ⟨points, numbers⟩ := ih (st.mapRegion b.region fun r =>
      { r with
        start := if r.start < 0 || offset < r.start then offset else r.start
        stop := if r.stop < stop then stop else r.stop })
    exact ⟨points, fun numbered => numbers (mapRegion_numbered numbered _ fun _ => rfl)⟩

section
variable {i : Nat} {o : Bound} {p : Point}

theorem Evolves.numbered (evolves : Evolves plan st i o p later) (numbered : Numbered st.regions) :
    Numbered later.regions := by
  induction evolves with
  | start => exact numbered
  | quiet _ _ regions ih => exact regions ▸ ih
  | covers _ _ _ ih => exact (cover_quiet ..).2 ih
  | learns _ _ _ _ ih => exact mapRegion_numbered ih _ fun _ => rfl
  | merges _ _ merged ih => exact (merge_points merged).1 ▸ ih

theorem raise_evolves (raised : Analysis.raise plan st i o p = .ok later) :
    Evolves plan st i o p later := by
  unfold Analysis.raise at raised
  split at raised
  · cases raised
    exact .start
  · next r protects =>
    -- Once the regions are covered, the edge to the handler is followed.
    have edge : ∀ {mid : Analysis.State}, Evolves plan st i o p mid →
        (if o.opcode.mayRaise = true then
          ({ mid with stamp := mid.stamp + 1 }.target r.handler).merge plan.function
            (Analysis.indexOf plan.function r.handler) (caughtPoint mid.stamp p r)
        else .ok mid) = .ok later → Evolves plan st i o p later := by
      intro mid before done
      split at done
      · obtain ⟨points, regions⟩ := target_quiet { mid with stamp := mid.stamp + 1 } r.handler
        exact .merges (.quiet before points regions) (.raises protects mid.stamp) done
      · cases done
        exact before
    unfold Analysis.protect at raised
    split at raised
    · cases raised
    · cases dialect : r.dialect with
      | legacy =>
        simp only [dialect] at raised
        exact edge (.covers .start protects dialect) (by simpa only [caughtPoint, dialect] using raised)
      | modern =>
        simp only [dialect] at raised
        exact edge .start (by simpa only [caughtPoint, dialect] using raised)

private theorem Evolves.blocksAfter {mid : Analysis.State} {next : List Block}
    (before : Evolves plan st i o p mid) (numbered : Numbered mid.regions)
    (done : Analysis.blocksAfter plan mid i o p = .ok (next, later)) :
    Turns plan o p.blocks next ∧ Evolves plan st i o p later := by
  unfold Analysis.blocksAfter at done
  split at done
  · next setup =>
    split at done
    · cases done
    · next s found =>
      obtain ⟨r, own, present⟩ := Option.bind_eq_some_iff.mp found
      dsimp only at done
      split at done
      · cases done
      · simp only [Except.ok.injEq, Prod.mk.injEq] at done
        obtain ⟨rfl, rfl⟩ := done
        rw [(regionIn?_spec numbered present).1]
        exact ⟨.opens setup own, (regionIn?_spec numbered present).1 ▸ .learns before setup own present⟩
  · next pops =>
    split at done
    · next _ below blocks =>
      cases done
      exact ⟨blocks ▸ .closes pops, before⟩
    · cases done
  · next leaves =>
    split at done
    · next modern =>
      cases done
      exact ⟨.keeps (by simp [leaves]) (by simp [leaves]) fun _ => modern, before⟩
    · next _ below legacy blocks =>
      cases done
      exact ⟨blocks ▸ .leaves leaves legacy, before⟩
    · cases done
  · next setup pops leaves =>
    cases done
    exact ⟨.keeps setup pops fun same => absurd same leaves, before⟩

private theorem Evolves.follow {mid : Analysis.State} {next : List Block} {edges : List Edge}
    (before : Evolves plan st i o p mid) (sent : ∀ e ∈ edges, Sends plan st i o p (edgeBlocks plan o p next e))
    (done : Analysis.follow plan o p next mid edges = .ok later) : Evolves plan st i o p later := by
  induction edges generalizing mid with
  | nil =>
    cases done
    exact before
  | cons e edges ih =>
    rw [Analysis.follow] at done
    split at done
    · cases done
    · next merged merging =>
      obtain ⟨points, regions⟩ := target_quiet mid e.target
      exact ih (.merges (.quiet before points regions) (sent e List.mem_cons_self) merging)
        (fun f listed => sent f (List.mem_cons_of_mem _ listed)) done

private theorem edgeBlocks_sends {stamp : Nat} {flow : Flow} {next : List Block}
    (flows : o.flow plan stamp p.shape = .ok flow) (turns : Turns plan o p.blocks next) :
    ∀ e ∈ flow.branches, Sends plan st i o p (edgeBlocks plan o p next e) := by
  intro e listed
  unfold edgeBlocks
  split
  · next handler =>
    obtain ⟨r, found, _⟩ := flow_handler flows listed handler
    rw [found]
    exact .enters (((flow_edges flows).2 e listed).2.2 handler) found
  · exact .turns turns

theorem Evolves.carry {mid : Analysis.State} (before : Evolves plan st i o p mid)
    (numbered : Numbered mid.regions) (done : Analysis.carry plan mid i o p = .ok later) :
    Evolves plan st i o p later := by
  unfold Analysis.carry at done
  simp only [bind, Except.bind, pure, Except.pure, throw, throwThe, MonadExceptOf.throw] at done
  split at done
  · cases done
  · next flow flows =>
    split at done
    · cases done
    · next result after =>
      obtain ⟨next, turned⟩ := result
      have quiet : Evolves plan st i o p { mid with
          stamp := mid.stamp + 1, falls := mid.falls.setIfInBounds i flow.falls } := .quiet before rfl rfl
      obtain ⟨turns, second⟩ := quiet.blocksAfter numbered after
      dsimp only at done
      split at done
      · cases done
      · next followed following =>
        have third := second.follow (edgeBlocks_sends flows turns) following
        split at done
        · split at done
          · exact .merges third (.turns turns) done
          · cases done
        · cases done
          exact third

theorem process_evolves (numbered : Numbered st.regions)
    (done : Analysis.process plan st i o p = .ok later) : Evolves plan st i o p later := by
  unfold Analysis.process at done
  split at done
  · cases done
  · next raised raising =>
    have first := raise_evolves raising
    exact first.carry (first.numbered numbered) done

end

/-- The instruction sets a region up. -/
def Opens (plan : Plan) (bound : Array Bound) (region : Int64) (k : Nat) : Prop :=
  ∃ o r, bound[k]? = some o ∧ o.opcode = .setupFinally ∧
    plan.setupRegion? o.inst.offset = some r ∧ r.id = region

/-- Every block stands on the blocks that are recorded where its region is set up. -/
def Based (plan : Plan) (bound : Array Bound) (st : Analysis.State) (blocks : List Block) : Prop :=
  ∀ b below, b :: below <:+ blocks → ∃ k q, Opens plan bound b.region k ∧
    st.point? k = some q ∧ q.blocks = below

section
variable {blocks below : List Block} {b : Block}

theorem Based.nil : Based plan bound st [] :=
  fun _ _ part => by cases List.eq_nil_of_suffix_nil part

theorem Based.suffix (based : Based plan bound st blocks) (part : below <:+ blocks) :
    Based plan bound st below :=
  fun _ _ inside => based _ _ (inside.trans part)

theorem Based.cons (based : Based plan bound st below) {k : Nat} {q : Point}
    (opens : Opens plan bound b.region k) (known : st.point? k = some q) (same : q.blocks = below) :
    Based plan bound st (b :: below) := by
  intro other under part
  rcases List.suffix_cons_iff.mp part with equal | inside
  · cases equal
    exact ⟨k, q, opens, known, same⟩
  · exact based _ _ inside

theorem Based.kept (based : Based plan bound st blocks)
    (kept : ∀ j p, st.point? j = some p → ∃ q, later.point? j = some q ∧ q.blocks = p.blocks) :
    Based plan bound later blocks := by
  intro b below part
  obtain ⟨k, p, opens, known, same⟩ := based b below part
  obtain ⟨q, recorded, equal⟩ := kept k p known
  exact ⟨k, q, opens, recorded, equal.trans same⟩

private theorem Sends.based (legacy : plan.dialect = .legacy) {i : Nat} {o : Bound} {p : Point}
    (sends : Sends plan st i o p blocks) (numbered : Numbered st.regions) (found : bound[i]? = some o)
    (known : st.point? i = some p) (based : Based plan bound st p.blocks) :
    Based plan bound st blocks := by
  cases sends with
  | turns turns =>
    generalize same : p.blocks = before at turns based
    cases turns with
    | opens setup opened => exact based.cons ⟨o, _, found, setup, opened, rfl⟩ known same
    | closes | leaves => exact based.suffix (List.suffix_cons _ _)
    | keeps => exact based
  | enters setup opened => exact based.cons ⟨o, _, found, setup, opened, rfl⟩ known rfl
  | @raises r protects stamp =>
    have part : setupBlocks p.blocks <:+ p.blocks := List.dropWhile_suffix _
    simp only [Analysis.protecting?, legacy] at protects
    split at protects
    · cases protects
    · next block below setup =>
      rw [setup] at part
      obtain ⟨k, q, opens, recorded, same⟩ := based block below part
      unfold caughtPoint
      dsimp only
      split
      · rw [setup, (regionIn?_spec numbered protects).1]
        exact (based.suffix ((List.suffix_cons _ _).trans part)).cons opens recorded same
      · exact .nil

end

/-- The regions of an analysis carry their numbers, and all blocks that it has recorded are based. -/
structure Orderly (plan : Plan) (bound : Array Bound) (st : Analysis.State) : Prop where
  numbered : Numbered st.regions
  based : ∀ j p, st.point? j = some p → Based plan bound st p.blocks

/-- What is recorded keeps its blocks, and what is recorded anew has blocks that were sent. -/
theorem Evolves.records {i : Nat} {o : Bound} {p : Point} (evolves : Evolves plan st i o p later) :
    (∀ j q, st.point? j = some q → ∃ r, later.point? j = some r ∧ r.blocks = q.blocks) ∧
      ∀ j r, later.point? j = some r → Sends plan st i o p r.blocks ∨
        ∃ q, st.point? j = some q ∧ q.blocks = r.blocks := by
  have same : ∀ {mid later : Analysis.State}, later.points = mid.points →
      ∀ j, later.point? j = mid.point? j := fun points j => by
    simp only [Analysis.State.point?, points]
  induction evolves with
  | start => exact ⟨fun j q known => ⟨q, known, rfl⟩, fun j r known => .inr ⟨r, known, rfl⟩⟩
  | quiet _ points _ ih =>
    exact ⟨fun j q known => same points j ▸ ih.1 j q known, fun j r known => ih.2 j r (same points j ▸ known)⟩
  | @covers mid r _ _ _ ih =>
    have points := same (cover_quiet mid p.blocks o.inst.offset
      (Analysis.stopOf plan.function i o.inst.offset)).1
    exact ⟨fun j q known => points j ▸ ih.1 j q known, fun j r known => ih.2 j r (points j ▸ known)⟩
  | learns _ _ _ _ ih => exact ih
  | @merges mid later j q _ sent merged ih =>
    obtain ⟨_, points⟩ := merge_points merged
    constructor
    · intro k before known
      obtain ⟨r, recorded, equal⟩ := ih.1 k before known
      rcases points k with kept | ⟨_, ⟨s, joined, agree⟩, blocks⟩
      · exact ⟨r, kept.trans recorded, equal⟩
      · exact ⟨s, joined, agree.trans ((blocks r recorded).symm.trans equal)⟩
    · intro k r recorded
      rcases points k with kept | ⟨_, ⟨s, joined, agree⟩, _⟩
      · exact ih.2 k r (kept ▸ recorded)
      · cases recorded.symm.trans joined
        exact .inl (agree ▸ sent)

private theorem Orderly.evolves (legacy : plan.dialect = .legacy) {i : Nat} {o : Bound} {p : Point}
    (orderly : Orderly plan bound st) (found : bound[i]? = some o) (known : st.point? i = some p)
    (evolves : Evolves plan st i o p later) : Orderly plan bound later := by
  obtain ⟨kept, fresh⟩ := evolves.records
  refine ⟨evolves.numbered orderly.numbered, fun j q recorded => Based.kept ?_ kept⟩
  rcases fresh j q recorded with sent | ⟨before, present, same⟩
  · exact sent.based legacy orderly.numbered found known (orderly.based i p known)
  · exact same ▸ orderly.based j before present

private theorem Visited.orderly (planned : Planned plan bound) (legacy : plan.dialect = .legacy)
    (visited : Visited plan bound st) : Orderly plan bound st := by
  induction visited with
  | @entered st entered =>
    obtain ⟨regions, points⟩ := merge_points entered
    refine ⟨regions ▸ planned.numbered, fun j p known => ?_⟩
    rcases points j with same | ⟨_, ⟨q, recorded, blocks⟩, _⟩
    · rw [known] at same
      simp only [Analysis.State.point?, Analysis.State.start, Array.getElem?_replicate] at same
      split at same <;> cases same
    · cases known.symm.trans recorded
      exact blocks ▸ .nil
  | @processed st later i work _ next done ih =>
    have taken : Orderly plan bound (taken st i) := ⟨ih.numbered, ih.based⟩
    unfold advance at done
    split at done
    · next o p found known => exact taken.evolves legacy found known (process_evolves taken.numbered done)
    · cases done
      exact taken

theorem Recorded.orderly (planned : Planned plan bound) (legacy : plan.dialect = .legacy)
    (recorded : Recorded plan bound st) : Orderly plan bound st := by
  cases recorded with
  | visited visited => exact visited.orderly planned legacy
  | @raised st _ i _ o p before _ found known raised =>
    have orderly := before.orderly planned legacy
    have taken : Orderly plan bound (taken st i) := ⟨orderly.numbered, orderly.based⟩
    exact taken.evolves legacy found known (raise_evolves raised)
  | @branched st raised _ _ i _ o p flow blocks before _ found known raises flows turns branches followed =>
    have orderly := before.orderly planned legacy
    have taken : Orderly plan bound (taken st i) := ⟨orderly.numbered, orderly.based⟩
    have first : Evolves plan (Proofs.taken st i) i o p { raised with
        stamp := raised.stamp + 1, falls := raised.falls.setIfInBounds i flow.falls } :=
      .quiet (raise_evolves raises) rfl rfl
    obtain ⟨turns, second⟩ := first.blocksAfter (first.numbered taken.numbered) turns
    exact taken.evolves legacy found known (second.follow
      (fun e listed => edgeBlocks_sends flows turns e (List.mem_of_mem_take listed)) followed)

section
variable {fn : Function} {blocks : List Block}

/-- A region is set up by one instruction only. -/
theorem Opens.unique (ready : Ready fn plan bound) (legacy : plan.dialect = .legacy)
    (distinct : (fn.instructions.toList.map Instruction.offset).Nodup) {region : Int64} {j k : Nat}
    (first : Opens plan bound region j) (second : Opens plan bound region k) : j = k := by
  obtain ⟨same, planned⟩ := ready.planned
  obtain ⟨o, r, here, _, opens, rfl⟩ := first
  obtain ⟨o', s, there, _, also, equal⟩ := second
  have scanned := setupRegion?_scanned ready.drafted legacy planned.numbered opens
  have listed := setupRegion?_scanned ready.drafted legacy planned.numbered also
  have regions := (ofFunction_scanned ready.drafted legacy).1
  have nodup := planned.numbered.nodup
  rw [regions] at nodup
  have region : s = r := planned.numbered.unique (regions ▸ List.mem_map_of_mem listed)
    (regions ▸ List.mem_map_of_mem scanned) equal
  have offset := congrArg Prod.fst (List.inj_on_of_nodup_map nodup scanned listed region.symm)
  have left := (planned.bounds here).1
  have right := (planned.bounds there).1
  rw [same, ← Array.getElem?_toList] at left right
  have mine : (fn.instructions.toList.map Instruction.offset)[j]? = some o.inst.offset := by
    rw [List.getElem?_map, left]
    rfl
  have theirs : (fn.instructions.toList.map Instruction.offset)[k]? = some o.inst.offset := by
    rw [List.getElem?_map, right]
    exact congrArg some offset.symm
  exact (List.getElem?_inj (List.getElem?_eq_some_iff.mp mine).1 distinct).mp (mine.trans theirs.symm)

private theorem Based.same (unique : ∀ {region j k}, Opens plan bound region j → Opens plan bound region k → j = k)
    {others : List Block} (based : Based plan bound st blocks) (also : Based plan bound st others)
    {b other : Block} {below under : List Block} (part : b :: below <:+ blocks)
    (another : other :: under <:+ others) (region : b.region = other.region) : below = under := by
  obtain ⟨j, p, opens, known, rfl⟩ := based b below part
  obtain ⟨k, q, opened, recorded, rfl⟩ := also other under another
  rw [unique opens (region ▸ opened)] at known
  cases known.symm.trans recorded
  rfl

private theorem Based.apart
    (unique : ∀ {region j k}, Opens plan bound region j → Opens plan bound region k → j = k)
    (based : Based plan bound st blocks) : (blocks.map Block.region).Nodup := by
  induction blocks with
  | nil => exact List.nodup_nil
  | cons b below ih =>
    refine List.nodup_cons.mpr ⟨fun member => ?_, ih (based.suffix (List.suffix_cons _ _))⟩
    obtain ⟨other, inside, region⟩ := List.mem_map.mp member
    obtain ⟨before, under, rfl⟩ := List.append_of_mem inside
    have same := based.same unique based List.suffix_rfl
      ((List.suffix_append before _).trans (List.suffix_cons _ _)) region.symm
    have lengths := congrArg List.length same
    simp only [List.length_append, List.length_cons] at lengths
    omega

/-- The blocks of a stack are set up one inside the other: each stands on the blocks that are recorded at
the one instruction that sets its region up. No region has two blocks, so that there are no more
blocks than instructions that set one up. -/
structure Stacked (plan : Plan) (bound : Array Bound) (st : Analysis.State) (blocks : List Block) :
    Prop where
  stands : ∀ b below, b :: below <:+ blocks → ∃ k q, (∀ i, Opens plan bound b.region i ↔ i = k) ∧
    st.point? k = some q ∧ q.blocks = below
  apart : (blocks.map Block.region).Nodup
  height : blocks.length ≤
    plan.function.instructions.toList.countP (·.code == Opcode.setupFinally.code)

/-- At every moment of an analysis, the blocks of all that is recorded are stacked. -/
theorem Recorded.stacked (ready : Ready fn plan bound) (legacy : plan.dialect = .legacy)
    (distinct : (fn.instructions.toList.map Instruction.offset).Nodup)
    (recorded : Recorded plan bound st) {j : Nat} {p : Point} (known : st.point? j = some p) :
    Stacked plan bound st p.blocks := by
  obtain ⟨same, planned⟩ := ready.planned
  have based := (recorded.orderly planned legacy).based j p known
  have unique : ∀ {region j k}, Opens plan bound region j → Opens plan bound region k → j = k :=
    fun first second => first.unique ready legacy distinct second
  have apart := based.apart unique
  refine ⟨fun b below part => ?_, apart, ?_⟩
  · obtain ⟨k, q, opens, present, blocks⟩ := based b below part
    exact ⟨k, q, fun i => ⟨fun opened => unique opened opens, fun here => here ▸ opens⟩, present, blocks⟩
  · have scanned : plan.regions = (Plan.scanSetups fn).map Prod.snd :=
      (ofFunction_scanned ready.drafted legacy).1
    have few : p.blocks.map Block.region ⊆ plan.regions.map Region.id := by
      intro region member
      obtain ⟨b, inside, rfl⟩ := List.mem_map.mp member
      obtain ⟨before, below, split⟩ := List.append_of_mem inside
      obtain ⟨_, _, ⟨o, r, _, _, opens, id⟩, _⟩ := based b below (split ▸ List.suffix_append before _)
      have listed := setupRegion?_scanned ready.drafted legacy planned.numbered opens
      exact List.mem_map.mpr ⟨r, scanned ▸ List.mem_map_of_mem listed, id⟩
    have length := (List.subperm_of_subset apart few).length_le
    simpa [scanned, Plan.scanSetups, List.countP_eq_length_filter, same] using length

end

/-- The emission of cleanups from a number on, however long it takes. -/
inductive Drains (c : Context) : Emission.State → Nat → Emission.State → Prop
  | done {st : Emission.State} {n : Nat} (none : st.cleanups[n]? = none) : Drains c st n st
  | next {st last : Emission.State} {n : Nat} {entry : Cleanup} (found : st.cleanups[n]? = some entry)
      (rest : Drains c (Emission.cleanup c st entry) (n + 1) last) : Drains c st n last

theorem cleanups_drain (c : Context) (st : Emission.State) :
    Drains c st 0 (Emission.cleanups c (cleanupFuel st) st 0) := by
  obtain ⟨total, ends, size, started⟩ := cleanups_complete c st
  rw [ends]
  have drains : ∀ left m, m + left = total → Drains c (unwinding c st m) m (unwinding c st total) := by
    intro left
    induction left with
    | zero =>
      rintro m rfl
      exact .done (Array.getElem?_eq_none (Nat.le_of_eq size))
    | succ left ih =>
      intro m sum
      have found := Array.getElem?_eq_getElem (started m (by omega))
      have next := ih (m + 1) (by omega)
      rw [unwinding, found] at next
      exact .next found next
  exact drains total 0 (Nat.add_comm ..)

private theorem guardBlocks_once {c : Context} {st : Emission.State} {blocks : List Block} {made : Cleanup}
    (pushed : (guardBlocks c st blocks).cleanups = st.cleanups.push made) :
    made.block.running = true ∧
      ∀ other ∈ st.cleanups, other.block = made.block → other.below ≠ made.below := by
  have grown : (guardBlocks c st blocks).cleanups ≠ st.cleanups := by
    intro same
    have size := congrArg Array.size (same.symm.trans pushed)
    simp at size
  cases blocks with
  | nil => exact absurd rfl grown
  | cons block below =>
    rw [guardBlocks] at pushed grown
    dsimp only at pushed grown
    split at pushed
    · next running =>
      rw [if_pos running] at grown
      split at pushed
      · next found =>
        rw [found] at grown
        exact absurd rfl grown
      · next missing =>
        obtain ⟨rfl, _⟩ := Array.push_eq_push.mp pushed
        refine ⟨running, fun other member block below => ?_⟩
        have unlike := Array.find?_eq_none.mp missing other member
        simp [block, below] at unlike
    · next running =>
      rw [if_neg running] at grown
      split at pushed <;> simp_all

variable {analysis : Analysis.State}

private theorem block_eq {a b : Block} (region : a.region = b.region) (running : a.running = b.running) :
    a = b := by
  cases a
  cases b
  cases region
  cases running
  rfl

/-- No two cleanups belong to one region, and all belong to handlers that run in instructions that are
reached. -/
private structure Solitary (plan : Plan) (bound : Array Bound) (analysis : Analysis.State)
    (st : Emission.State) : Prop where
  inner : ∀ entry ∈ st.cleanups, Inner plan bound analysis (entry.block :: entry.below)
  running : ∀ entry ∈ st.cleanups, entry.block.running = true
  apart : (st.cleanups.toList.map fun entry => entry.block.region).Nodup

private theorem Solitary.guarded {c : Context} {st : Emission.State} {blocks : List Block}
    (below : ∀ {b c : Block} {below under : List Block}, Inner plan bound analysis (b :: below) →
      Inner plan bound analysis (c :: under) → b.region = c.region → below = under)
    (inner : Inner plan bound analysis blocks) (solitary : Solitary plan bound analysis st) :
    Solitary plan bound analysis (guardBlocks c st blocks) := by
  have kept : (∀ entry ∈ (guardBlocks c st blocks).cleanups, entry.block.running = true) ∧
      ((guardBlocks c st blocks).cleanups.toList.map fun entry => entry.block.region).Nodup := by
    rcases guardBlocks_asks c st blocks with same | ⟨made, rfl, pushed⟩
    · exact same ▸ ⟨solitary.running, solitary.apart⟩
    · obtain ⟨running, once⟩ := guardBlocks_once pushed
      rw [pushed]
      constructor
      · intro entry member
        rcases Array.mem_push.mp member with old | rfl
        · exact solitary.running entry old
        · exact running
      · rw [Array.toList_push, List.map_append]
        refine List.Nodup.append solitary.apart (List.nodup_singleton _) fun region old new => ?_
        obtain ⟨other, member, rfl⟩ := List.mem_map.mp old
        have member := Array.mem_toList_iff.mp member
        have region : other.block.region = made.block.region := by simpa using new
        exact once other member (block_eq region ((solitary.running other member).trans running.symm))
          (below (solitary.inner other member) inner region)
  exact ⟨guardBlocks_inner inner solitary.inner, kept.1, kept.2⟩

theorem cleanups_apart {fn : Function} (ready : Ready fn plan bound) (legacy : plan.dialect = .legacy)
    (distinct : (fn.instructions.toList.map Instruction.offset).Nodup)
    (analysed : Analysis.analyze plan bound = .ok analysis) :
    ((emit plan bound analysis).cleanups.toList.map fun entry => entry.block.region).Nodup := by
  have planned := ready.planned.2
  have orderly := (analyze_visited analysed).orderly planned legacy
  have below : ∀ {b c : Block} {below under : List Block}, Inner plan bound analysis (b :: below) →
      Inner plan bound analysis (c :: under) → b.region = c.region → below = under := by
    rintro b c below under ⟨_, i, o, p, here, part⟩ ⟨_, j, o', q, there, another⟩ region
    exact (orderly.based i p here.point).same
      (fun first second => first.unique ready legacy distinct second) (orderly.based j q there.point)
      part another region
  have labelling : Labelling plan.function analysis _ _ _ _ :=
    labelledHandlers_labelling orderly.numbered
  have start : Solitary plan bound analysis (labelledHandlers plan analysis).1 :=
    ⟨by simp [labelling.cleanups], by simp [labelling.cleanups], by simp [labelling.cleanups]⟩
  have solitary : Solitary plan bound analysis (emissionOf plan bound analysis) := by
    refine emission_invariant start (fun _ _ kept => ⟨kept.inner, kept.running, kept.apart⟩) ?_ ?_
    · intro i o p found point _ kept
      have guarded : Solitary plan bound analysis (guardedState (contextOf plan analysis)
          (stage (contextOf plan analysis) (labelledHandlers plan analysis).1 bound i).1 i o p) := by
        rw [guardedState, Emission.guard]
        simp only [show (contextOf plan analysis).plan.dialect = .legacy from legacy]
        exact Solitary.guarded below ⟨legacy, i, o, p, ⟨found, point⟩, List.suffix_rfl⟩
          ⟨kept.inner, kept.running, kept.apart⟩
      exact ⟨guarded.inner, guarded.running, guarded.apart⟩
    · intro before entry member _ kept
      obtain ⟨_, i, o, p, reached, part⟩ := kept.inner entry member
      let handler := (((contextOf plan analysis).region? entry.block.region).getD default).handler
      let turned : Emission.State := { before with builder := before.builder.setOrigin handler }
      have guarded : Solitary plan bound analysis
          (guardBlocks (contextOf plan analysis) turned entry.below) := Solitary.guarded below
        ⟨legacy, i, o, p, reached, (List.suffix_cons _ _).trans part⟩
        ⟨kept.inner, kept.running, kept.apart⟩
      exact ⟨guarded.inner, guarded.running, guarded.apart⟩
  rw [emit_emission]
  exact solitary.apart

end Lowering.Proofs
