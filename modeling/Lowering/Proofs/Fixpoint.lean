import Lowering.Proofs.Stages

/-! The analysis is a fixpoint. When it ends, what is known before every instruction that is reached
covers what every edge into it carries. The argument is the usual one for worklists: whatever was
not yet carried along is still queued. -/

namespace Lowering.Proofs
open Guest Shape Analysis

variable {plan : Plan} {bound : Array Bound}

/-- What a handler is entered with when an instruction raises. -/
def caughtPoint (stamp : Nat) (p : Point) (r : Region) : Point where
  shape := (p.shape.truncate r.depth).pushAll stamp r.state
  blocks := match r.dialect with
    | .legacy => ⟨r.id, true⟩ :: (setupBlocks p.blocks).tail
    | .modern => []

/-- How the blocks change on the normal paths of an instruction. -/
inductive Turns (plan : Plan) (o : Bound) : List Block → List Block → Prop
  | opens {blocks : List Block} {r : Region} (setup : o.opcode = .setupFinally)
      (found : plan.setupRegion? o.inst.offset = some r) :
      Turns plan o blocks (⟨r.id, false⟩ :: blocks)
  | closes {region : Int64} {below : List Block} (pops : o.opcode = .popBlock) :
      Turns plan o (⟨region, false⟩ :: below) below
  | leaves {region : Int64} {below : List Block} (pops : o.opcode = .popExcept)
      (legacy : plan.dialect = .legacy) : Turns plan o (⟨region, true⟩ :: below) below
  | keeps {blocks : List Block} (setup : o.opcode ≠ .setupFinally) (pops : o.opcode ≠ .popBlock)
      (modern : o.opcode = .popExcept → plan.dialect = .modern) : Turns plan o blocks blocks

/-- No handler starts to run on a normal path. -/
theorem Turns.running {o : Bound} {blocks next : List Block} (turns : Turns plan o blocks next)
    {b : Block} (member : b ∈ next) (running : b.running = true) : b ∈ blocks := by
  cases turns with
  | opens =>
    rcases List.mem_cons.mp member with rfl | below
    · cases running
    · exact below
  | closes => exact List.mem_cons_of_mem _ member
  | leaves => exact List.mem_cons_of_mem _ member
  | keeps => exact member

/-- The blocks that an edge carries. -/
def edgeBlocks (plan : Plan) (o : Bound) (p : Point) (next : List Block) (e : Edge) : List Block :=
  if e.handler then
    match plan.setupRegion? o.inst.offset with
    | some r => ⟨r.id, true⟩ :: p.blocks
    | none => p.blocks
  else next

/-- An instruction that sets a region up has fixed its depth. -/
def Fixes (plan : Plan) (regions : List Region) (o : Bound) (p : Point) : Prop :=
  o.opcode = .setupFinally → ∃ r s, plan.setupRegion? o.inst.offset = some r ∧
    Plan.regionIn? regions r.id = some s ∧ s.depth = p.shape.height

/-- The edges of an instruction have been followed. -/
structure Processed (plan : Plan) (st : Analysis.State) (i : Nat) (o : Bound) (p : Point) : Prop where
  raises : ∀ r, protecting? plan st i p = some r → ¬ p.shape.height < r.depth ∧
    (o.opcode.mayRaise = true → r.handler ∈ st.targets ∧
      ∃ stamp, Covers st (indexOf plan.function r.handler) (caughtPoint stamp p r))
  falls : st.falls[i]? = some (!o.opcode.terminates)
  fixes : Fixes plan st.regions o p
  flows : ∃ stamp flow next, o.flow plan stamp p.shape = .ok flow ∧ Turns plan o p.blocks next ∧
    (∀ e ∈ flow.branches, e.target ∈ st.targets ∧
      Covers st (indexOf plan.function e.target) ⟨e.shape, edgeBlocks plan o p next e⟩) ∧
    (flow.falls = true → i + 1 < plan.function.instructions.size ∧
      Covers st (i + 1) ⟨flow.next, next⟩)

theorem indexOf_lt {fn : Function} (positive : 0 < fn.instructions.size) (offset : Int64) :
    indexOf fn offset < fn.instructions.size := by
  unfold indexOf Function.indexOf?
  cases found : fn.instructions.findIdx? (·.offset == offset) with
  | none => exact positive
  | some i => exact (Array.findIdx?_eq_some_iff_getElem.mp found).1

private theorem raise_later {st covered later : Analysis.State} {p : Point} {r : Region}
    {raises : Bool} (first : Later plan bound st covered)
    (inside : indexOf plan.function r.handler < st.points.size)
    (rooted : ∀ stamp, Rooted st.regions (caughtPoint stamp p r))
    (linked : raises = true → Linked plan bound st (indexOf plan.function r.handler))
    (done : (if raises = true then
        ({ covered with stamp := covered.stamp + 1 }.target r.handler).merge plan.function
          (indexOf plan.function r.handler) (caughtPoint covered.stamp p r)
      else .ok covered) = .ok later) :
    Later plan bound st later ∧ (raises = true → r.handler ∈ later.targets ∧
      ∃ stamp, Covers later (indexOf plan.function r.handler) (caughtPoint stamp p r)) := by
  split at done
  · next raises =>
    have stamped : Later plan bound covered { covered with stamp := covered.stamp + 1 } :=
      stamp_later first.queue _
    have labelled : Later plan bound _ _ ∧ _ := target_later stamped.queue r.handler
    obtain ⟨labelled, member⟩ := labelled
    have before := first.trans (stamped.trans labelled)
    have merged : Later plan bound _ later ∧ _ := merge_later before.queue (before.size ▸ inside)
      ((rooted covered.stamp).later before.regions)
      ((linked raises).later before.points before.regions) done
    obtain ⟨merged, covers⟩ := merged
    exact ⟨before.trans merged, fun _ => ⟨merged.targets _ member, _, covers⟩⟩
  · next quiet =>
    cases done
    exact ⟨first, fun raises => absurd raises quiet⟩

theorem protect_later {st later : Analysis.State} {i : Nat} {inst : Instruction} {p : Point}
    {r : Region} {raises : Bool} (queue : Queue st)
    (inside : indexOf plan.function r.handler < st.points.size)
    (rooted : ∀ stamp, Rooted st.regions (caughtPoint stamp p r))
    (linked : raises = true → Linked plan bound st (indexOf plan.function r.handler))
    (done : protect plan st i inst p r raises = .ok later) :
    Later plan bound st later ∧ ¬ p.shape.height < r.depth ∧ (raises = true →
      r.handler ∈ later.targets ∧
        ∃ stamp, Covers later (indexOf plan.function r.handler) (caughtPoint stamp p r)) := by
  unfold protect at done
  split at done
  · cases done
  · next deep =>
    cases dialect : r.dialect with
    | legacy =>
      simp only [dialect] at done
      obtain ⟨grown, covers⟩ := raise_later (cover_later queue _ _ _) inside rooted linked
        (by simpa only [caughtPoint, dialect] using done)
      exact ⟨grown, deep, covers⟩
    | modern =>
      simp only [dialect] at done
      obtain ⟨grown, covers⟩ := raise_later (.refl queue) inside rooted linked
        (by simpa only [caughtPoint, dialect] using done)
      exact ⟨grown, deep, covers⟩

theorem falls_later {st : Analysis.State} (queue : Queue st) {i : Nat} {o : Bound}
    (found : bound[i]? = some o) (stamp : Nat) :
    Later plan bound st
      { st with stamp, falls := st.falls.setIfInBounds i (!o.opcode.terminates) } where
  size := rfl
  falling := by simp
  queued := rfl
  points _ _ present := covers_known present
  changed _ := .inl rfl
  work _ member := member
  targets _ member := member
  regions := regions_refl _
  falls j other present known := by
    rw [Array.getElem?_setIfInBounds]
    split
    next same =>
      subst same
      rw [found] at present
      cases present
      rw [if_pos (Array.getElem?_eq_some_iff.mp known).1]
    next => exact known
  queue := queue
  sane known i p present := by
    obtain ⟨small, rooted, linked⟩ := known i p present
    exact ⟨small, rooted, linked.later (fun _ _ found => covers_known found) (regions_refl _)⟩

theorem height_positive {s : Stack} (small : s.depth ≤ addressable) : 0 ≤ s.height :=
  Int64.zero_le_ofNat_of_lt (by simp only [addressable] at small; omega)

private theorem mapRegion_find {st : Analysis.State} (numbered : Numbered st.regions) {id : Int64}
    {f : Region → Region} {r : Region} (found : Plan.regionIn? st.regions id = some r) :
    Plan.regionIn? (st.mapRegion id f).regions id = some (f r) := by
  have number := (regionIn?_spec numbered found).1
  unfold Plan.regionIn? at found ⊢
  split at found
  · cases found
  · next positive =>
    rw [if_neg positive]
    simp only [Analysis.State.mapRegion, List.getElem?_map, found, Option.map_some, number,
      beq_self_eq_true, if_true]

/-- A region that is set up learns its depth. -/
private def atDepth (height : Int64) (r : Region) : Region :=
  { r with depth := height, entryDepth := height + Int64.ofNat r.slotCount }

private theorem setup_later {st : Analysis.State} (queue : Queue st) (numbered : Numbered st.regions)
    {id height : Int64} {r : Region} (found : Plan.regionIn? st.regions id = some r)
    (agrees : 0 ≤ r.depth → r.depth = height) :
    Later plan bound st (st.mapRegion r.id (atDepth height)) ∧
      Plan.regionIn? (st.mapRegion r.id (atDepth height)).regions r.id =
        some (atDepth height r) := by
  have number := (regionIn?_spec numbered found).1
  refine ⟨mapRegion_later queue fun s member same => ?_, mapRegion_find numbered (number ▸ found)⟩
  cases numbered.unique member (regionIn?_mem found) same
  exact ⟨rfl, rfl, rfl, rfl, rfl, fun known => (agrees known).symm⟩

theorem blocksAfter_later {st later : Analysis.State} {i : Nat} {o : Bound} {p : Point}
    {next : List Block} (queue : Queue st) (numbered : Numbered st.regions)
    (small : p.shape.depth ≤ addressable) (opened : Opened st.regions p.blocks)
    (done : blocksAfter plan st i o p = .ok (next, later)) :
    Later plan bound st later ∧ Opened later.regions next ∧ Turns plan o p.blocks next ∧
      Fixes plan later.regions o p := by
  unfold blocksAfter at done
  split at done
  · next setup =>
    split at done
    · cases done
    · next r found =>
      dsimp only at done
      split at done
      · cases done
      · next agrees =>
        simp only [Except.ok.injEq, Prod.mk.injEq] at done
        obtain ⟨rfl, rfl⟩ := done
        obtain ⟨drafted, own, present⟩ := Option.bind_eq_some_iff.mp found
        have number := (regionIn?_spec numbered present).1
        have height := height_positive small
        have fixed : Later plan bound st _ ∧ _ := setup_later queue numbered present fun known => by
          simpa [known] using agrees
        obtain ⟨grown, fixed⟩ := fixed
        refine ⟨grown, ?_, ?_, fun _ => ⟨drafted, atDepth p.shape.height r, own, ?_, rfl⟩⟩
        · intro b member
          rcases List.mem_cons.mp member with rfl | below
          · exact ⟨atDepth p.shape.height r, fixed, height⟩
          · exact opened.later grown.regions b below
        · rw [number]
          exact .opens setup own
        · rw [← number]
          exact fixed
  · next pops =>
    split at done
    · next _ below blocks =>
      cases done
      exact ⟨.refl queue, fun b member => opened b (blocks ▸ List.mem_cons_of_mem _ member),
        blocks ▸ .closes pops, by simp [Fixes, pops]⟩
    · cases done
  · next leaves =>
    split at done
    · next modern =>
      cases done
      exact ⟨.refl queue, opened, .keeps (by simp [leaves]) (by simp [leaves]) fun _ => modern,
        by simp [Fixes, leaves]⟩
    · next _ below legacy blocks =>
      cases done
      exact ⟨.refl queue, fun b member => opened b (blocks ▸ List.mem_cons_of_mem _ member),
        blocks ▸ .leaves leaves legacy, by simp [Fixes, leaves]⟩
    · cases done
  · next setup pops leaves =>
    cases done
    exact ⟨.refl queue, opened, .keeps setup pops fun same => absurd same leaves,
      fun same => absurd same setup⟩

theorem follow_later {o : Bound} {p : Point} {next : List Block} {edges : List Edge}
    {st later : Analysis.State} (queue : Queue st)
    (inside : ∀ e ∈ edges, indexOf plan.function e.target < st.points.size)
    (rooted : ∀ e ∈ edges, Rooted st.regions ⟨e.shape, edgeBlocks plan o p next e⟩)
    (linked : ∀ e ∈ edges, Linked plan bound st (indexOf plan.function e.target))
    (done : follow plan o p next st edges = .ok later) :
    Later plan bound st later ∧ ∀ e ∈ edges, e.target ∈ later.targets ∧
      Covers later (indexOf plan.function e.target) ⟨e.shape, edgeBlocks plan o p next e⟩ := by
  induction edges generalizing st with
  | nil =>
    cases done
    exact ⟨.refl queue, nofun⟩
  | cons e edges ih =>
    rw [follow] at done
    split at done
    · cases done
    · next merged merging =>
      have labelled : Later plan bound st _ ∧ _ := target_later queue e.target
      obtain ⟨labelled, member⟩ := labelled
      have first : Later plan bound _ merged ∧ _ := merge_later labelled.queue
        (labelled.size ▸ inside e List.mem_cons_self)
        ((rooted e List.mem_cons_self).later labelled.regions)
        ((linked e List.mem_cons_self).later labelled.points labelled.regions) merging
      obtain ⟨first, covers⟩ := first
      have grown := labelled.trans first
      obtain ⟨rest, others⟩ := ih grown.queue
        (fun f listed => grown.size ▸ inside f (List.mem_cons_of_mem _ listed))
        (fun f listed => (rooted f (List.mem_cons_of_mem _ listed)).later grown.regions)
        (fun f listed =>
          (linked f (List.mem_cons_of_mem _ listed)).later grown.points grown.regions) done
      refine ⟨grown.trans rest, fun f listed => ?_⟩
      rcases List.mem_cons.mp listed with rfl | below
      · exact ⟨rest.targets _ (first.targets _ member), covers.later rest⟩
      · exact others f below

theorem setupBlocks_mem {blocks : List Block} {b : Block} (member : b ∈ setupBlocks blocks) :
    b ∈ blocks :=
  (List.dropWhile_sublist _).subset member

theorem state_region {r : Region} {slot : Slot} (member : slot ∈ r.state) : slot.region = r.id := by
  unfold Region.state at member
  split at member
  · simp only [List.mem_cons, List.not_mem_nil, or_false] at member
    rcases member with rfl | rfl | rfl <;> rfl
  · split at member <;> simp only [List.mem_cons, List.not_mem_nil, or_false] at member
    · rcases member with rfl | rfl <;> rfl
    · rw [member]
      rfl

theorem pushState_owned {regions : List Region} (numbered : Numbered regions) {s : Stack}
    {r known : Region} (owned : Owned regions s) (found : known ∈ regions) (same : r.id = known.id)
    (stamp : Nat) : Owned regions (s.pushAll stamp r.state) := by
  intro cell member tagged
  rw [pushAll_eq] at member
  rcases List.mem_append.mp member with pushed | kept
  · obtain ⟨slot, listed, rfl⟩ := List.mem_map.mp (List.mem_reverse.mp pushed)
    rw [state_region listed, same]
    exact ⟨known, numbered.find found⟩
  · exact owned cell kept tagged

private theorem caughtPoint_owned {regions : List Region} (numbered : Numbered regions) {p : Point}
    {r : Region} (owned : Owned regions p.shape) (found : r ∈ regions) {stamp : Nat} :
    Owned regions (caughtPoint stamp p r).shape :=
  pushState_owned numbered (fun cell member tagged => owned cell (List.mem_of_mem_drop member) tagged)
    found rfl stamp

/-- What is known of the region that protects an instruction. -/
theorem protecting?_spec (planned : Planned plan bound) {st : Analysis.State}
    (regions : List.Forall₂ RegionLater plan.regions st.regions) {i : Nat} {p : Point} {r : Region}
    (rooted : Rooted st.regions p) (found : protecting? plan st i p = some r) :
    r ∈ st.regions ∧ 0 ≤ r.depth ∧ r.dialect = plan.dialect ∧
      ∀ stamp, Rooted st.regions (caughtPoint stamp p r) := by
  have numbered := planned.numbered.later regions
  unfold protecting? at found
  split at found
  next legacy =>
    split at found
    · cases found
    · next block rest blocks =>
      have listed : block ∈ p.blocks := setupBlocks_mem (blocks ▸ List.mem_cons_self)
      obtain ⟨s, present, depth⟩ := rooted.blocks block listed
      rw [found] at present
      cases present
      obtain ⟨drafted, before, grown⟩ := regionIn?_earlier regions found
      have dialect := grown.dialect.trans (planned.regions drafted (regionIn?_mem before)).own
      refine ⟨regionIn?_mem found, depth, dialect, fun stamp => ⟨fun b member => ?_,
        caughtPoint_owned numbered rooted.shape (regionIn?_mem found)⟩⟩
      simp only [caughtPoint, dialect, legacy, blocks, List.tail_cons] at member
      rcases List.mem_cons.mp member with rfl | below
      · rw [(regionIn?_spec numbered found).1]
        exact ⟨r, found, depth⟩
      · exact rooted.blocks b (setupBlocks_mem (blocks ▸ List.mem_cons_of_mem _ below))
  next modern =>
    obtain ⟨drafted, before, grown⟩ := regionIn?_earlier regions found
    have known := planned.regions drafted (regionIn?_mem before)
    have dialect := grown.dialect.trans known.own
    have depth := known.modern modern
    refine ⟨regionIn?_mem found, grown.depth depth ▸ depth, dialect, fun stamp =>
      ⟨fun b member => ?_, caughtPoint_owned numbered rooted.shape (regionIn?_mem found)⟩⟩
    simp only [caughtPoint, dialect, modern] at member
    cases member

/-- What is known once the depth of a region is known does not change any more. -/
theorem RegionLater.caughtPoint {r s : Region} (later : RegionLater r s) (known : 0 ≤ r.depth)
    (stamp : Nat) (p : Point) : Proofs.caughtPoint stamp p s = Proofs.caughtPoint stamp p r := by
  have state : s.state = r.state := by
    simp only [Region.state, later.dialect, later.lasti, later.id]
  simp only [Proofs.caughtPoint, state, later.depth known, later.dialect, later.id]

private theorem Fixes.later {a b : List Region} {o : Bound} {p : Point} (fixes : Fixes plan a o p)
    (small : p.shape.depth ≤ addressable) (later : List.Forall₂ RegionLater a b) :
    Fixes plan b o p := by
  intro setup
  obtain ⟨r, s, found, present, depth⟩ := fixes setup
  obtain ⟨t, there, same⟩ := regionIn?_later later present
  exact ⟨r, t, found, there, (same.depth (depth ▸ height_positive small)).trans depth⟩

/-- Edges that were followed stay followed. -/
theorem Processed.later (planned : Planned plan bound) {st later : Analysis.State} {i : Nat}
    {o : Bound} {p : Point} (processed : Processed plan st i o p) (grown : Later plan bound st later)
    (regions : List.Forall₂ RegionLater plan.regions st.regions)
    (small : p.shape.depth ≤ addressable) (rooted : Rooted st.regions p)
    (found : bound[i]? = some o) : Processed plan later i o p where
  raises s protects := by
    obtain ⟨r, before, same⟩ := protecting?_earlier grown.regions protects
    obtain ⟨_, known, _⟩ := protecting?_spec planned regions rooted before
    obtain ⟨deep, covers⟩ := processed.raises r before
    rw [same.depth known, same.handler]
    refine ⟨deep, fun raises => ?_⟩
    obtain ⟨target, stamp, covered⟩ := covers raises
    refine ⟨grown.targets _ target, stamp, ?_⟩
    rw [same.caughtPoint known]
    exact covered.later grown
  falls := grown.falls i o found processed.falls
  fixes := processed.fixes.later small grown.regions
  flows := by
    obtain ⟨stamp, flow, next, flows, turns, branches, falls⟩ := processed.flows
    refine ⟨stamp, flow, next, flows, turns, fun e listed => ?_, fun through => ?_⟩
    · obtain ⟨target, covers⟩ := branches e listed
      exact ⟨grown.targets _ target, covers.later grown⟩
    · obtain ⟨inside, covers⟩ := falls through
      exact ⟨inside, covers.later grown⟩

/-- The invariant of the analysis: what is known at an instruction has been carried along its
edges, or the instruction is queued. -/
structure Progress (plan : Plan) (bound : Array Bound) (st : Analysis.State) : Prop where
  size : st.points.size = plan.function.instructions.size
  falling : st.falls.size = plan.function.instructions.size
  queue : Queue st
  sane : Sane plan bound st
  regions : List.Forall₂ RegionLater plan.regions st.regions
  settled : ∀ i o p, bound[i]? = some o → st.point? i = some p →
    i ∈ st.work ∨ Processed plan st i o p

private theorem edge_rooted {regions : List Region} (numbered : Numbered regions) {stamp : Nat}
    {o : Bound} {p : Point} {flow : Flow} {next : List Block} {e : Edge}
    (flows : o.flow plan stamp p.shape = .ok flow) (rooted : Rooted regions p)
    (small : p.shape.depth ≤ addressable) (opened : Opened regions next)
    (fixes : Fixes plan regions o p) (listed : e ∈ flow.branches) :
    Rooted regions ⟨e.shape, edgeBlocks plan o p next e⟩ := by
  unfold edgeBlocks
  split
  · next handler =>
    obtain ⟨r, found, carried⟩ := flow_handler flows listed handler
    obtain ⟨r', s, same, present, depth⟩ := fixes (((flow_edges flows).2 e listed).2.2 handler)
    rw [found] at same
    cases same
    rw [found, carried]
    refine ⟨fun b member => ?_, pushState_owned numbered rooted.shape (regionIn?_mem present)
      (regionIn?_spec numbered present).1.symm _⟩
    rcases List.mem_cons.mp member with rfl | below
    · exact ⟨s, present, depth ▸ height_positive small⟩
    · exact rooted.blocks b below
  · next plain =>
    exact ⟨opened, ((flow_inherits flows).2 e listed (by simpa using plain)).owned rooted.shape⟩

private theorem carry_later (planned : Planned plan bound) {st later : Analysis.State} {i : Nat}
    {o : Bound} {p q : Point} (size : st.points.size = plan.function.instructions.size)
    (falling : st.falls.size = plan.function.instructions.size) (queue : Queue st)
    (numbered : Numbered st.regions) (small : p.shape.depth ≤ addressable)
    (rooted : Rooted st.regions p) (known : st.point? i = some q)
    (linked : Linked plan bound st i) (found : bound[i]? = some o)
    (done : carry plan st i o p = .ok later) :
    Later plan bound st later ∧ later.falls[i]? = some (!o.opcode.terminates) ∧
      Fixes plan later.regions o p ∧
      ∃ stamp flow next, o.flow plan stamp p.shape = .ok flow ∧ Turns plan o p.blocks next ∧
        (∀ e ∈ flow.branches, e.target ∈ later.targets ∧
          Covers later (indexOf plan.function e.target) ⟨e.shape, edgeBlocks plan o p next e⟩) ∧
        (flow.falls = true → i + 1 < plan.function.instructions.size ∧
          Covers later (i + 1) ⟨flow.next, next⟩) := by
  have within : i < st.falls.size :=
    falling ▸ planned.size ▸ (Array.getElem?_eq_some_iff.mp found).1
  unfold carry at done
  simp only [bind, Except.bind, pure, Except.pure, throw, throwThe, MonadExceptOf.throw] at done
  split at done
  · cases done
  · next flow flows =>
    obtain ⟨falls, edges⟩ := flow_edges flows
    rw [falls] at done
    have noted : Later plan bound st _ := falls_later queue found (st.stamp + 1)
    have marked : ({ st with
        stamp := st.stamp + 1
        falls := st.falls.setIfInBounds i (!o.opcode.terminates) } :
        Analysis.State).falls[i]? = some (!o.opcode.terminates) := by
      simp [within]
    split at done
    · cases done
    · next result after =>
      obtain ⟨next, st₁⟩ := result
      dsimp only at done
      have stepped : Later plan bound _ st₁ ∧ _ := blocksAfter_later noted.queue numbered small
        rooted.blocks after
      obtain ⟨stepped, opened, turns, fixes⟩ := stepped
      have before := noted.trans stepped
      have rooted₁ := rooted.later before.regions
      split at done
      · cases done
      · next st₂ following =>
        have followed : Later plan bound st₁ st₂ ∧ _ := follow_later stepped.queue
          (fun e _ => before.size ▸ size ▸ indexOf_lt planned.positive e.target)
          (fun e listed => edge_rooted (numbered.later before.regions) flows rooted₁ small opened
            fixes listed)
          (fun e listed => by
            obtain ⟨target, jumps, _⟩ := edges e listed
            rw [target]
            exact (Linked.step linked known (.jumps found jumps)).later before.points before.regions)
          following
        obtain ⟨followed, branches⟩ := followed
        have so := before.trans followed
        split at done
        · next through =>
          split at done
          · next inside =>
            have next_linked : Linked plan bound st (i + 1) :=
              .step linked known (.falls found (by simpa using through))
            have merged : Later plan bound st₂ later ∧ _ := merge_later so.queue
              (so.size ▸ size ▸ inside)
              (Rooted.later ⟨opened, (flow_inherits flows).1.owned rooted₁.shape⟩ followed.regions)
              (next_linked.later so.points so.regions) done
            obtain ⟨merged, covers⟩ := merged
            refine ⟨so.trans merged, (stepped.trans (followed.trans merged)).falls i o found marked,
              fixes.later small (followed.trans merged).regions, _, flow, next, flows, turns,
              fun e listed => ?_, fun _ => ⟨inside, covers⟩⟩
            obtain ⟨target, covered⟩ := branches e listed
            exact ⟨merged.targets _ target, covered.later merged⟩
          · cases done
        · next stops =>
          cases done
          exact ⟨so, (stepped.trans followed).falls i o found marked,
            fixes.later small followed.regions, _, flow, next, flows, turns,
            branches, fun through => absurd (falls ▸ through) stops⟩

theorem process_later (planned : Planned plan bound) {st later : Analysis.State} {i : Nat}
    {o : Bound} {p : Point} (size : st.points.size = plan.function.instructions.size)
    (falling : st.falls.size = plan.function.instructions.size) (queue : Queue st)
    (sane : Sane plan bound st)
    (regions : List.Forall₂ RegionLater plan.regions st.regions) (found : bound[i]? = some o)
    (known : st.point? i = some p) (done : process plan st i o p = .ok later) :
    Later plan bound st later ∧ Processed plan later i o p := by
  obtain ⟨small, rooted, linked⟩ := sane i p known
  unfold process at done
  split at done
  · cases done
  · next st₁ raising =>
    have first : Later plan bound st st₁ ∧ ∀ r, protecting? plan st i p = some r →
        ¬ p.shape.height < r.depth ∧ (o.opcode.mayRaise = true → r.handler ∈ st₁.targets ∧
          ∃ stamp, Covers st₁ (indexOf plan.function r.handler) (caughtPoint stamp p r)) := by
      unfold raise at raising
      split at raising
      · next none =>
        cases raising
        exact ⟨.refl queue, fun r protects => by rw [none] at protects; cases protects⟩
      · next r protects =>
        obtain ⟨_, _, _, blocks⟩ := protecting?_spec planned regions rooted protects
        obtain ⟨grown, spec⟩ := protect_later queue
          (size ▸ indexOf_lt planned.positive r.handler) blocks
          (fun raises => .step linked known (.raises found known protects raises)) raising
        refine ⟨grown, fun s same => ?_⟩
        rw [protects] at same
        cases same
        exact spec
    obtain ⟨first, raises⟩ := first
    obtain ⟨_, present, _⟩ := first.points i p known
    obtain ⟨second, falls, fixes, flows⟩ := carry_later planned (first.size.trans size)
      (first.falling.trans falling) first.queue
      ((planned.numbered.later regions).later first.regions) small (rooted.later first.regions)
      present (linked.later first.points first.regions) found done
    refine ⟨first.trans second, fun s protects => ?_, falls, fixes, flows⟩
    obtain ⟨r, before, same⟩ := protecting?_earlier (first.trans second).regions protects
    obtain ⟨_, depth, _⟩ := protecting?_spec planned regions rooted before
    obtain ⟨deep, covers⟩ := raises r before
    rw [same.depth depth, same.handler]
    refine ⟨deep, fun raises => ?_⟩
    obtain ⟨target, stamp, covered⟩ := covers raises
    refine ⟨second.targets _ target, stamp, ?_⟩
    rw [same.caughtPoint depth]
    exact covered.later second

theorem taken_queue {st : Analysis.State} (queue : Queue st) {i : Nat} {work : List Nat}
    (others : ∀ j ∈ st.work, j = i ∨ j ∈ work) :
    Queue { st with work, queued := st.queued.setIfInBounds i false } := by
  intro j marked
  rw [Array.getElem?_setIfInBounds] at marked
  split at marked
  · split at marked <;> cases marked
  · next apart => exact (others j (queue j marked)).resolve_left (Ne.symm apart)

theorem taken_sane {st : Analysis.State} (sane : Sane plan bound st) (i : Nat)
    (work : List Nat) :
    Sane plan bound { st with work, queued := st.queued.setIfInBounds i false } := by
  intro j p known
  obtain ⟨small, rooted, linked⟩ := sane j p known
  exact ⟨small, rooted, linked.later (fun _ _ found => covers_known found) (regions_refl _)⟩

/-- Whichever instruction is processed next, nothing is forgotten. -/
theorem Progress.process (planned : Planned plan bound) {st later : Analysis.State}
    {i : Nat} {work : List Nat} {o : Bound} {p : Point} (valid : Progress plan bound st)
    (others : ∀ j ∈ st.work, j = i ∨ j ∈ work) (found : bound[i]? = some o)
    (known : st.point? i = some p)
    (done : Analysis.process plan
      { st with work, queued := st.queued.setIfInBounds i false } i o p = .ok later) :
    Progress plan bound later ∧ ∀ j q, Covers st j q → Covers later j q := by
  have processing : Later plan bound { st with work, queued := st.queued.setIfInBounds i false } later ∧
      Processed plan later i o p :=
    process_later planned valid.size valid.falling (taken_queue valid.queue others)
      (taken_sane valid.sane i work) valid.regions found known done
  obtain ⟨grown, processed⟩ := processing
  refine ⟨⟨grown.size.trans valid.size, grown.falling.trans valid.falling, grown.queue,
    grown.sane (taken_sane valid.sane i work), regions_trans valid.regions grown.regions,
    fun j other q present at? => ?_⟩,
    fun j q ⟨before, present, blocks, widens⟩ => ?_⟩
  · rcases grown.changed j with same | queued
    · have before : st.point? j = some q := same.symm.trans at?
      rcases valid.settled j other q present before with queued | done
      · rcases others j queued with rfl | queued
        · rw [found] at present
          rw [known] at before
          cases present
          cases before
          exact .inr processed
        · exact .inl (grown.work j queued)
      · have kept : Processed plan { st with
            work, queued := st.queued.setIfInBounds i false } j other q :=
          ⟨done.raises, done.falls, done.fixes, done.flows⟩
        obtain ⟨small, rooted, _⟩ := valid.sane j q before
        exact .inr (kept.later planned grown valid.regions small rooted present)
    · exact .inl queued
  · obtain ⟨last, known, same, further⟩ := grown.points j before present
    exact ⟨last, known, same.trans blocks, widens.trans further⟩

theorem Progress.skip {st : Analysis.State} {i : Nat} {work : List Nat}
    (valid : Progress plan bound st) (others : ∀ j ∈ st.work, j = i ∨ j ∈ work)
    (missing : ∀ o p, bound[i]? = some o → st.point? i = some p → False) :
    Progress plan bound { st with work, queued := st.queued.setIfInBounds i false } := by
  refine ⟨valid.size, valid.falling, taken_queue valid.queue others, taken_sane valid.sane i work,
    valid.regions,
    fun j o p found known => ?_⟩
  rcases valid.settled j o p found known with queued | done
  · rcases others j queued with rfl | queued
    · exact (missing o p found known).elim
    · exact .inl queued
  · exact .inr ⟨done.raises, done.falls, done.fixes, done.flows⟩

theorem run_progress (planned : Planned plan bound) {fuel : Nat} {st last : Analysis.State}
    (valid : Progress plan bound st) (ended : Analysis.run plan bound fuel st = .ok last) :
    Progress plan bound last ∧ last.work = [] ∧ ∀ j q, Covers st j q → Covers last j q := by
  induction fuel generalizing st with
  | zero => cases ended
  | succ fuel ih =>
    rw [Analysis.run] at ended
    split at ended
    · next done =>
      cases ended
      exact ⟨valid, done, fun _ _ covers => covers⟩
    · next i work first =>
      have others : ∀ j ∈ st.work, j = i ∨ j ∈ work := by
        intro j member
        rw [first] at member
        exact List.mem_cons.mp member
      dsimp only at ended
      split at ended
      · next o p found known =>
        split at ended
        · cases ended
        · next next processed =>
          obtain ⟨progress, kept⟩ := valid.process planned others found known processed
          obtain ⟨settled, empty, covers⟩ := ih progress ended
          exact ⟨settled, empty, fun j q covered => covers j q (kept j q covered)⟩
      · next missing =>
        obtain ⟨settled, empty, covers⟩ := ih
          (valid.skip others fun o p found known => missing o p found known) ended
        exact ⟨settled, empty, covers⟩

/-- An analysis that has ended: the entry is covered, and every edge was followed. -/
structure Stable (plan : Plan) (bound : Array Bound) (st : Analysis.State) : Prop where
  entry : Covers st 0
    ⟨Stack.entry plan.function.localCount plan.function.argCount, []⟩
  size : st.points.size = plan.function.instructions.size
  sane : Sane plan bound st
  regions : List.Forall₂ RegionLater plan.regions st.regions
  processed : ∀ i o p, bound[i]? = some o → st.point? i = some p → Processed plan st i o p

/-- An analysis starts at the entry. -/
theorem Progress.entered (planned : Planned plan bound) {st : Analysis.State}
    (entered : (Analysis.State.start plan).merge plan.function 0
      ⟨Stack.entry plan.function.localCount plan.function.argCount, []⟩ = .ok st) :
    Progress plan bound st ∧
      Covers st 0 ⟨Stack.entry plan.function.localCount plan.function.argCount, []⟩ := by
  have none : ∀ i, (Analysis.State.start plan).point? i = Option.none := by
    intro i
    simp only [Analysis.State.point?, Analysis.State.start, Array.getElem?_replicate]
    split <;> rfl
  have queue : Queue (Analysis.State.start plan) := by
    intro j marked
    simp only [Analysis.State.start, Array.getElem?_replicate] at marked
    split at marked <;> cases marked
  have grown : Later plan bound (Analysis.State.start plan) st ∧ _ := merge_later queue
    (by simpa [Analysis.State.start] using planned.positive)
    ⟨by simp [Opened], by simp [Owned, Stack.entry]⟩ .entry entered
  obtain ⟨grown, covers⟩ := grown
  refine ⟨⟨by simpa [Analysis.State.start] using grown.size,
    by simpa [Analysis.State.start] using grown.falling, grown.queue,
    grown.sane fun i p known => ?_, grown.regions, fun i o p _ known => ?_⟩, covers⟩
  · rw [none i] at known
    cases known
  · rcases grown.changed i with same | queued
    · rw [same, none i] at known
      cases known
    · exact .inl queued

/-- An analysis with nothing left to process is stable. -/
theorem Progress.stable {last : Analysis.State} (valid : Progress plan bound last)
    (empty : last.work = []) (entry : Covers last 0
      ⟨Stack.entry plan.function.localCount plan.function.argCount, []⟩) : Stable plan bound last := by
  refine ⟨entry, valid.size, valid.sane, valid.regions, fun i o p found known => ?_⟩
  rcases valid.settled i o p found known with queued | done
  · rw [empty] at queued
    cases queued
  · exact done

theorem analyze_stable (planned : Planned plan bound) {last : Analysis.State}
    (analysed : analyze plan bound = .ok last) : Stable plan bound last := by
  unfold analyze at analysed
  dsimp only at analysed
  split at analysed
  · cases analysed
  · next st entered =>
    obtain ⟨start, covers⟩ := Progress.entered planned entered
    obtain ⟨settled, empty, kept⟩ := run_progress planned start analysed
    exact settled.stable empty (kept _ _ covers)

end Lowering.Proofs
