import Lowering.Proofs.Flows
import Lowering.Proofs.Plans
import Lowering.Proofs.Widening

/-! Stages of an analysis. What is known before an instruction only widens, a region keeps the depth it
learned, whatever changes is queued, and only instructions that control can lead to are known. -/

namespace Lowering.Proofs
open Guest Shape Analysis

/-- What is known at an instruction covers what an edge carries. -/
def Covers (st : Analysis.State) (j : Nat) (p : Point) : Prop :=
  ∃ q, st.point? j = some q ∧ q.blocks = p.blocks ∧ ShapeWidens p.shape q.shape

theorem covers_known {st : Analysis.State} {j : Nat} {p : Point} (found : st.point? j = some p) :
    Covers st j p :=
  ⟨p, found, rfl, .refl _⟩

/-- A region later on. Its depth is fixed once it is known. -/
structure RegionLater (r later : Region) : Prop where
  id : later.id = r.id
  dialect : later.dialect = r.dialect
  handler : later.handler = r.handler
  lasti : later.lasti = r.lasti
  scratch : later.scratch = r.scratch
  depth : 0 ≤ r.depth → later.depth = r.depth

theorem RegionLater.refl (r : Region) : RegionLater r r := ⟨rfl, rfl, rfl, rfl, rfl, fun _ => rfl⟩

theorem RegionLater.trans {a b c : Region} (first : RegionLater a b) (second : RegionLater b c) :
    RegionLater a c where
  id := second.id.trans first.id
  dialect := second.dialect.trans first.dialect
  handler := second.handler.trans first.handler
  lasti := second.lasti.trans first.lasti
  scratch := second.scratch.trans first.scratch
  depth known := by
    have same := first.depth known
    rw [second.depth (same ▸ known), same]

/-- The blocks name regions whose depth is known. -/
def Opened (regions : List Region) (blocks : List Block) : Prop :=
  ∀ b ∈ blocks, ∃ r, Plan.regionIn? regions b.region = some r ∧ 0 ≤ r.depth

theorem regions_refl (regions : List Region) : List.Forall₂ RegionLater regions regions :=
  List.forall₂_same.mpr fun r _ => .refl r

theorem regions_trans {a b c : List Region} (first : List.Forall₂ RegionLater a b)
    (second : List.Forall₂ RegionLater b c) : List.Forall₂ RegionLater a c := by
  induction first generalizing c with
  | nil =>
    cases second
    exact .nil
  | cons head _ ih =>
    cases second with
    | cons later rest => exact .cons (head.trans later) (ih rest)

theorem Numbered.later {a b : List Region} (numbered : Numbered a)
    (later : List.Forall₂ RegionLater a b) : Numbered b := by
  refine ⟨later.length_eq ▸ numbered.1, fun k s found => ?_⟩
  obtain ⟨r, before, grown⟩ := forall₂_right later found
  exact grown.id.trans (numbered.2 k r before)

theorem regionIn?_later {a b : List Region} (later : List.Forall₂ RegionLater a b) {id : Int64}
    {r : Region} (found : Plan.regionIn? a id = some r) :
    ∃ s, Plan.regionIn? b id = some s ∧ RegionLater r s := by
  unfold Plan.regionIn? at *
  split at found
  · cases found
  · next positive =>
    rw [if_neg positive]
    exact forall₂_left later found

theorem regionIn?_earlier {a b : List Region} (later : List.Forall₂ RegionLater a b) {id : Int64}
    {s : Region} (found : Plan.regionIn? b id = some s) :
    ∃ r, Plan.regionIn? a id = some r ∧ RegionLater r s := by
  unfold Plan.regionIn? at *
  split at found
  · cases found
  · next positive =>
    rw [if_neg positive]
    exact forall₂_right later found

theorem Opened.later {a b : List Region} {blocks : List Block} (opened : Opened a blocks)
    (later : List.Forall₂ RegionLater a b) : Opened b blocks := by
  intro block member
  obtain ⟨r, found, known⟩ := opened block member
  obtain ⟨s, present, grown⟩ := regionIn?_later later found
  exact ⟨s, present, grown.depth known ▸ known⟩

/-- Exception state is owned by regions that exist. -/
def Owned (regions : List Region) (s : Stack) : Prop :=
  ∀ cell ∈ s.cells, cell.slot.region ≠ 0 → ∃ r, Plan.regionIn? regions cell.slot.region = some r

theorem Owned.later {a b : List Region} {s : Stack} (owned : Owned a s)
    (later : List.Forall₂ RegionLater a b) : Owned b s := by
  intro cell member tagged
  obtain ⟨r, found⟩ := owned cell member tagged
  obtain ⟨s, present, _⟩ := regionIn?_later later found
  exact ⟨s, present⟩

theorem ShapeWidens.owned {regions : List Region} {s t : Stack} (widens : ShapeWidens s t)
    (owned : Owned regions s) : Owned regions t := by
  intro cell member tagged
  obtain ⟨before, present, kept⟩ := widens.origin member
  rw [← kept.region] at tagged ⊢
  exact owned before present tagged

theorem Inherits.owned {regions : List Region} {s t : Stack} (inherits : Inherits s t)
    (owned : Owned regions s) : Owned regions t := by
  intro cell member tagged
  obtain ⟨source, present, same⟩ := (inherits cell member).resolve_left tagged
  rw [← same] at tagged ⊢
  exact owned source present tagged

/-- What is known at a point names only regions that exist. -/
structure Rooted (regions : List Region) (p : Point) : Prop where
  blocks : Opened regions p.blocks
  shape : Owned regions p.shape

theorem Rooted.later {a b : List Region} {p : Point} (rooted : Rooted a p)
    (later : List.Forall₂ RegionLater a b) : Rooted b p :=
  ⟨rooted.blocks.later later, rooted.shape.later later⟩

variable {plan : Plan} {bound : Array Bound}

theorem protecting?_earlier {st later : Analysis.State}
    (regions : List.Forall₂ RegionLater st.regions later.regions) {i : Nat} {p : Point} {s : Region}
    (found : protecting? plan later i p = some s) :
    ∃ r, protecting? plan st i p = some r ∧ RegionLater r s := by
  unfold protecting? at *
  split at found
  next =>
    split at found
    · cases found
    · exact regionIn?_earlier regions found
  next => exact regionIn?_earlier regions found

theorem protecting?_later {st later : Analysis.State}
    (regions : List.Forall₂ RegionLater st.regions later.regions) {i : Nat} {p q : Point}
    (blocks : q.blocks = p.blocks) {r : Region} (found : protecting? plan st i p = some r) :
    ∃ s, protecting? plan later i q = some s ∧ RegionLater r s := by
  unfold protecting? at *
  rw [blocks]
  split at found
  next =>
    split at found
    · cases found
    · exact regionIn?_later regions found
  next => exact regionIn?_later regions found

/-- Where control may go after an instruction. -/
inductive Leads (plan : Plan) (bound : Array Bound) (st : Analysis.State) (i : Nat) : Nat → Prop
  | falls {o : Bound} (found : bound[i]? = some o) (through : o.opcode.terminates = false) :
      Leads plan bound st i (i + 1)
  | jumps {o : Bound} (found : bound[i]? = some o) (jumps : o.opcode.jumps = true) :
      Leads plan bound st i (indexOf plan.function o.arg)
  | raises {o : Bound} {p : Point} {r : Region} (found : bound[i]? = some o)
      (known : st.point? i = some p) (protects : protecting? plan st i p = some r)
      (raises : o.opcode.mayRaise = true) : Leads plan bound st i (indexOf plan.function r.handler)

/-- Control can reach the instruction from the first one. -/
inductive Linked (plan : Plan) (bound : Array Bound) (st : Analysis.State) : Nat → Prop
  | entry : Linked plan bound st 0
  | step {i j : Nat} {p : Point} (before : Linked plan bound st i) (known : st.point? i = some p)
      (leads : Leads plan bound st i j) : Linked plan bound st j

theorem Leads.later {st later : Analysis.State} {i j : Nat} (leads : Leads plan bound st i j)
    (points : ∀ i p, st.point? i = some p → Covers later i p)
    (regions : List.Forall₂ RegionLater st.regions later.regions) : Leads plan bound later i j := by
  cases leads with
  | falls found through => exact .falls found through
  | jumps found jumps => exact .jumps found jumps
  | raises found known protects raises =>
    obtain ⟨q, present, blocks, _⟩ := points _ _ known
    obtain ⟨s, protects, same⟩ := protecting?_later regions blocks protects
    exact same.handler ▸ .raises found present protects raises

theorem Linked.later {st later : Analysis.State} {i : Nat} (linked : Linked plan bound st i)
    (points : ∀ i p, st.point? i = some p → Covers later i p)
    (regions : List.Forall₂ RegionLater st.regions later.regions) : Linked plan bound later i := by
  induction linked with
  | entry => exact .entry
  | step _ known leads ih =>
    obtain ⟨_, present, _⟩ := points _ _ known
    exact .step ih present (leads.later points regions)

/-- No stack is deeper than can be addressed, so that its height is its depth, all regions that
are named exist, and only what can be reached is known. -/
def Sane (plan : Plan) (bound : Array Bound) (st : Analysis.State) : Prop :=
  ∀ i p, st.point? i = some p →
    p.shape.depth ≤ addressable ∧ Rooted st.regions p ∧ Linked plan bound st i

/-- Instructions that are marked as queued are on the worklist. -/
def Queue (st : Analysis.State) : Prop := ∀ j, st.queued[j]? = some true → j ∈ st.work

/-- A later stage of an analysis. -/
structure Later (plan : Plan) (bound : Array Bound) (st later : Analysis.State) : Prop where
  size : later.points.size = st.points.size
  falling : later.falls.size = st.falls.size
  queued : later.queued.size = st.queued.size
  points : ∀ i p, st.point? i = some p → Covers later i p
  changed : ∀ i, later.point? i = st.point? i ∨ i ∈ later.work
  work : ∀ i ∈ st.work, i ∈ later.work
  targets : ∀ t ∈ st.targets, t ∈ later.targets
  regions : List.Forall₂ RegionLater st.regions later.regions
  falls : ∀ (i : Nat) (o : Bound), bound[i]? = some o →
    st.falls[i]? = some (!o.opcode.terminates) → later.falls[i]? = some (!o.opcode.terminates)
  queue : Queue later
  sane : Sane plan bound st → Sane plan bound later

theorem Later.refl {st : Analysis.State} (queue : Queue st) : Later plan bound st st where
  size := rfl
  falling := rfl
  queued := rfl
  points _ _ found := covers_known found
  changed _ := .inl rfl
  work _ member := member
  targets _ member := member
  regions := regions_refl _
  falls _ _ _ known := known
  queue := queue
  sane known := known

theorem Covers.later {st later : Analysis.State} {j : Nat} {p : Point} (covers : Covers st j p)
    (grown : Later plan bound st later) : Covers later j p := by
  obtain ⟨q, found, blocks, widens⟩ := covers
  obtain ⟨last, known, same, further⟩ := grown.points j q found
  exact ⟨last, known, same.trans blocks, widens.trans further⟩

theorem Later.trans {a b c : Analysis.State} (first : Later plan bound a b) (second : Later plan bound b c) :
    Later plan bound a c where
  size := second.size.trans first.size
  falling := second.falling.trans first.falling
  queued := second.queued.trans first.queued
  points i p found := (first.points i p found).later second
  changed i := by
    rcases second.changed i with same | member
    · rcases first.changed i with before | member
      · exact .inl (same.trans before)
      · exact .inr (second.work i member)
    · exact .inr member
  work i member := second.work i (first.work i member)
  targets t member := second.targets t (first.targets t member)
  regions := regions_trans first.regions second.regions
  falls i o found known := second.falls i o found (first.falls i o found known)
  queue := second.queue
  sane known := second.sane (first.sane known)

private theorem later_of_same {st later : Analysis.State} (queue : Queue st)
    (points : later.points = st.points) (queued : later.queued = st.queued)
    (work : later.work = st.work) (falls : later.falls = st.falls)
    (targets : ∀ t ∈ st.targets, t ∈ later.targets)
    (regions : List.Forall₂ RegionLater st.regions later.regions) : Later plan bound st later where
  size := by rw [points]
  falling := by rw [falls]
  queued := by rw [queued]
  points i p found := covers_known (by simpa only [Analysis.State.point?, points] using found)
  changed i := .inl (by simp only [Analysis.State.point?, points])
  work i member := work ▸ member
  targets := targets
  regions := regions
  falls i o _ known := falls ▸ known
  queue j marked := work ▸ queue j (queued ▸ marked)
  sane known i p found := by
    have same : ∀ i, later.point? i = st.point? i := fun i => by
      simp only [Analysis.State.point?, points]
    obtain ⟨small, rooted, linked⟩ := known i p (same i ▸ found)
    exact ⟨small, rooted.later regions,
      linked.later (fun i p present => covers_known (same i ▸ present)) regions⟩

theorem target_later {st : Analysis.State} (queue : Queue st) (offset : Int64) :
    Later plan bound st (st.target offset) ∧ offset ∈ (st.target offset).targets := by
  unfold Analysis.State.target
  split
  next known => exact ⟨.refl queue, by simpa using known⟩
  next =>
    exact ⟨later_of_same queue rfl rfl rfl rfl (fun t member => List.mem_cons_of_mem _ member)
      (regions_refl _), List.mem_cons_self⟩

theorem stamp_later {st : Analysis.State} (queue : Queue st) (stamp : Nat) :
    Later plan bound st { st with stamp } :=
  later_of_same queue rfl rfl rfl rfl (fun _ member => member) (regions_refl _)

private theorem enqueue_points (st : Analysis.State) (j : Nat) :
    (st.enqueue j).points = st.points ∧ (st.enqueue j).targets = st.targets ∧
      (st.enqueue j).regions = st.regions ∧ (st.enqueue j).falls = st.falls ∧
      (st.enqueue j).queued.size = st.queued.size ∧ ∀ i ∈ st.work, i ∈ (st.enqueue j).work := by
  unfold Analysis.State.enqueue
  split
  · exact ⟨rfl, rfl, rfl, rfl, rfl, fun _ member => member⟩
  · exact ⟨rfl, rfl, rfl, rfl, by simp, fun _ member => List.mem_cons_of_mem _ member⟩

private theorem enqueue_queue {st : Analysis.State} (queue : Queue st) (j : Nat) :
    Queue (st.enqueue j) ∧ j ∈ (st.enqueue j).work := by
  unfold Analysis.State.enqueue
  split
  next marked =>
    refine ⟨queue, queue j ?_⟩
    rw [Array.getD_eq_getD_getElem?] at marked
    cases found : st.queued[j]? with
    | none =>
      rw [found] at marked
      cases marked
    | some flag =>
      rw [found] at marked
      exact congrArg some marked
  next =>
    refine ⟨fun i marked => ?_, List.mem_cons_self⟩
    rw [Array.getElem?_setIfInBounds] at marked
    split at marked
    next same => exact same ▸ List.mem_cons_self
    next => exact List.mem_cons_of_mem _ (queue i marked)

private theorem widen_later {st : Analysis.State} (queue : Queue st) {j : Nat} {p : Point}
    (inside : j < st.points.size) (wider : ∀ q, st.point? j = some q →
      p.blocks = q.blocks ∧ ShapeWidens q.shape p.shape)
    (decent : Sane plan bound st →
      p.shape.depth ≤ addressable ∧ Rooted st.regions p ∧ Linked plan bound st j) :
    Later plan bound st ({ st with points := st.points.setIfInBounds j (some p) }.enqueue j) ∧
      ({ st with points := st.points.setIfInBounds j (some p) }.enqueue j).point? j = some p := by
  have before : Queue { st with points := st.points.setIfInBounds j (some p) } := queue
  obtain ⟨points, targets, regions, falls, queued, work⟩ :=
    enqueue_points { st with points := st.points.setIfInBounds j (some p) } j
  obtain ⟨queue, member⟩ := enqueue_queue before j
  generalize ({ st with points := st.points.setIfInBounds j (some p) } :
    Analysis.State).enqueue j = later at *
  have here : later.point? j = some p := by
    simp [Analysis.State.point?, points, inside]
  have elsewhere : ∀ i, i ≠ j → later.point? i = st.point? i := by
    intro i apart
    simp [Analysis.State.point?, points, Ne.symm apart]
  have covers : ∀ i q, st.point? i = some q → Covers later i q := by
    intro i q found
    by_cases same : i = j
    · subst same
      obtain ⟨blocks, widens⟩ := wider q found
      exact ⟨p, here, blocks, widens⟩
    · exact covers_known ((elsewhere i same).trans found)
  have grown : List.Forall₂ RegionLater st.regions later.regions := regions ▸ regions_refl _
  refine ⟨⟨by simp [points], by rw [falls], queued, covers, fun i => ?_, work,
    fun t known => targets ▸ known, grown, fun i o _ known => falls ▸ known,
    queue, fun known i q found => ?_⟩, here⟩
  · by_cases same : i = j
    · exact .inr (same ▸ member)
    · exact .inl (elsewhere i same)
  · have before : q.shape.depth ≤ addressable ∧ Rooted st.regions q ∧ Linked plan bound st i := by
      by_cases same : i = j
      · subst same
        rw [here] at found
        cases found
        exact decent known
      · exact known i q ((elsewhere i same).symm.trans found)
    obtain ⟨small, rooted, linked⟩ := before
    exact ⟨small, rooted.later grown, linked.later covers grown⟩

theorem merge_later {fn : Function} {st later : Analysis.State} {j : Nat} {p : Point}
    (queue : Queue st) (inside : j < st.points.size) (rooted : Rooted st.regions p)
    (linked : Linked plan bound st j) (merged : st.merge fn j p = .ok later) :
    Later plan bound st later ∧ Covers later j p := by
  unfold Analysis.State.merge at merged
  split at merged
  next missing =>
    split at merged
    · cases merged
    · next deep =>
      cases merged
      have widened : Later plan bound st _ ∧ _ := widen_later queue (p := p) inside
        (fun q present => by rw [missing] at present; cases present)
        (fun _ => ⟨Nat.not_lt.mp deep, rooted, linked⟩)
      exact ⟨widened.1, covers_known widened.2⟩
  next known present =>
    split at merged
    · cases merged
    · next blocks =>
      have blocks : known.blocks = p.blocks := Decidable.not_not.mp blocks
      split at merged
      · cases merged
      · next result unified =>
        obtain ⟨old, new⟩ := unify_widens unified
        dsimp only at merged
        split at merged
        · next same =>
          cases merged
          exact ⟨stamp_later queue _, known, present, blocks, new.trans (same_widens same)⟩
        · cases merged
          have stamped : Later plan bound st { st with stamp := st.stamp + 1 } := stamp_later queue _
          have widened : Later plan bound { st with stamp := st.stamp + 1 } _ ∧ _ :=
            widen_later stamped.queue (p := ⟨result, known.blocks⟩) inside
              (fun q other => by
                have same : st.point? j = some q := other
                rw [present] at same
                cases same
                exact ⟨rfl, old⟩)
              (fun sane => by
                have length : known.shape.depth = result.depth := old.cells.length_eq
                obtain ⟨small, _⟩ := sane j known present
                exact ⟨length ▸ small, ⟨blocks ▸ rooted.blocks, new.owned rooted.shape⟩,
                  linked.later stamped.points stamped.regions⟩)
          exact ⟨stamped.trans widened.1, _, widened.2, blocks, new⟩

theorem mapRegion_later {st : Analysis.State} (queue : Queue st) {id : Int64}
    {f : Region → Region} (grows : ∀ r ∈ st.regions, r.id = id → RegionLater r (f r)) :
    Later plan bound st (st.mapRegion id f) := by
  refine later_of_same queue rfl rfl rfl rfl (fun _ member => member) ?_
  simp only [Analysis.State.mapRegion, List.forall₂_map_right_iff]
  refine List.forall₂_same.mpr fun r member => ?_
  split
  next same => exact grows r member (by simpa using same)
  next => exact .refl r

theorem cover_later {st : Analysis.State} (queue : Queue st) (blocks : List Block)
    (offset stop : Int64) : Later plan bound st (st.cover blocks offset stop) := by
  unfold Analysis.State.cover
  generalize blocks.filter (fun b => !b.running) = opened
  induction opened generalizing st with
  | nil => exact .refl queue
  | cons b rest ih =>
    have first : Later plan bound st (st.mapRegion b.region fun r =>
        { r with
          start := if r.start < 0 || offset < r.start then offset else r.start
          stop := if r.stop < stop then stop else r.stop }) :=
      mapRegion_later queue fun r _ _ => ⟨rfl, rfl, rfl, rfl, rfl, fun _ => rfl⟩
    exact first.trans (ih first.queue)

end Lowering.Proofs
