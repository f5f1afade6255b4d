import Lowering.Proofs.BlockStacks
import Lowering.Proofs.TableDepths

/-! Depths and extents of the handler regions. An exception table declares them, and the analysis leaves them
as they are; a region that instructions set up learns its depth where it is set up, and stretches over the
instructions that are processed inside it. -/

namespace Lowering.Proofs
open Shape Guest

variable {plan : Plan} {bound : Array Bound} {st later : Analysis.State}

/-- A region that protects something, and whose entry depth counts its exception state. -/
structure Declared (r : Region) : Prop where
  span : r.start < r.stop
  level : r.entryDepth = r.depth + Int64.ofNat r.slotCount

private theorem Declared.stretch {r : Region} (declared : Declared r) (e : TableEntry) :
    Declared (Plan.stretch r e) := by
  refine ⟨?_, declared.level⟩
  have span := declared.span
  simp only [Plan.stretch, Int64.lt_iff_toInt_lt] at span ⊢
  split <;> split <;> omega

private theorem addEntry_declared {fn : Function} {regions more : List Region} {e : TableEntry}
    (declared : ∀ r ∈ regions, Declared r) (added : Plan.addEntry fn regions e = .ok more) :
    ∀ r ∈ more, Declared r := by
  unfold Plan.addEntry at added
  split at added
  · cases added
  · next valid =>
    split at added
    · cases added
    · split at added
      · cases added
        intro r member
        rcases List.mem_append.mp member with old | new
        · exact declared r old
        · cases List.mem_singleton.mp new
          simp only [Bool.or_eq_true, decide_eq_true_eq, not_or, Int64.not_le] at valid
          exact ⟨valid.1, rfl⟩
      · split at added
        · cases added
        · cases added
          intro r member
          obtain ⟨s, present, rfl⟩ := List.mem_map.mp member
          split
          · exact (declared s present).stretch e
          · exact declared s present

private theorem addEntries_declared {fn : Function} {regions more : List Region} {table : List TableEntry}
    (declared : ∀ r ∈ regions, Declared r) (added : Plan.addEntries fn regions table = .ok more) :
    ∀ r ∈ more, Declared r := by
  induction table generalizing regions with
  | nil =>
    cases added
    exact declared
  | cons e rest ih =>
    rw [Plan.addEntries] at added
    split at added
    · cases added
    · next first => exact ih (addEntry_declared declared first) added

theorem ofFunction_declared {fn : Function} (drafted : Plan.ofFunction fn = .ok plan)
    (modern : plan.dialect = .modern) : ∀ r ∈ plan.regions, Declared r := by
  unfold Plan.ofFunction at drafted
  split at drafted
  · cases drafted
  · unfold Plan.ofLegacy at drafted
    split at drafted <;> cases drafted
    cases modern
  · exact addEntries_declared (by simp) (ofModern_spec drafted).2.2.1

/-- A region stretched over the offsets of an instruction. -/
def stretched (offset stop : Int64) (r : Region) : Region :=
  { r with
    start := if r.start < 0 || offset < r.start then offset else r.start
    stop := if r.stop < stop then stop else r.stop }

private theorem stretched_stretched (offset stop : Int64) (r : Region) :
    stretched offset stop (stretched offset stop r) = stretched offset stop r := by
  simp only [stretched]
  congr 1
  · split
    · simp
    · rfl
  · split
    · simp
    · rfl

private theorem cover_regions (st : Analysis.State) (blocks : List Block) (offset stop : Int64) :
    (st.cover blocks offset stop).regions =
      st.regions.map fun r => if ⟨r.id, false⟩ ∈ blocks then stretched offset stop r else r := by
  have folded : ∀ (opened : List Block) (st : Analysis.State),
      (opened.foldl (fun st b => st.mapRegion b.region (stretched offset stop)) st).regions =
        st.regions.map fun r =>
          if r.id ∈ opened.map Block.region then stretched offset stop r else r := by
    intro opened
    induction opened with
    | nil => simp
    | cons b rest ih =>
      intro st
      rw [List.foldl_cons, ih, Analysis.State.mapRegion, List.map_map]
      refine List.map_congr_left fun r _ => ?_
      simp only [Function.comp_apply, List.map_cons, List.mem_cons, beq_iff_eq]
      have kept : (stretched offset stop r).id = r.id := rfl
      by_cases same : r.id = b.region
      · rw [if_pos same, kept, if_pos (Or.inl same)]
        split
        · exact stretched_stretched offset stop r
        · rfl
      · simp only [same, if_false, false_or]
  have opened : ∀ r : Region,
      r.id ∈ (blocks.filter fun b => !b.running).map Block.region ↔ ⟨r.id, false⟩ ∈ blocks := by
    intro r
    simp only [List.mem_map, List.mem_filter, Bool.not_eq_true']
    constructor
    · rintro ⟨⟨region, running⟩, ⟨member, rfl⟩, rfl⟩
      exact member
    · exact fun member => ⟨_, ⟨member, rfl⟩, rfl⟩
  unfold Analysis.State.cover
  rw [← funext fun r => if_congr (opened r) rfl rfl]
  exact folded _ st

section
variable {i : Nat} {o : Bound} {p : Point}

private theorem Evolves.regions {motive : Region → Prop} (evolves : Evolves plan st i o p later)
    (stretches : ∀ s, Analysis.protecting? plan st i p = some s → s.dialect = .legacy →
      ∀ r, motive r → ⟨r.id, false⟩ ∈ p.blocks →
        motive (stretched o.inst.offset (Analysis.stopOf plan.function i o.inst.offset) r))
    (learns : o.opcode = .setupFinally → ∀ r, motive r →
      motive { r with depth := p.shape.height, entryDepth := p.shape.height + Int64.ofNat r.slotCount })
    (before : ∀ r ∈ st.regions, motive r) : ∀ r ∈ later.regions, motive r := by
  induction evolves with
  | start => exact before
  | quiet _ _ regions ih => exact regions ▸ ih
  | covers _ protects legacy ih =>
    intro r member
    rw [cover_regions] at member
    obtain ⟨s, present, rfl⟩ := List.mem_map.mp member
    split
    · next protected_ => exact stretches _ protects legacy s (ih s present) protected_
    · exact ih s present
  | learns _ setup _ _ ih =>
    intro r member
    obtain ⟨s, present, rfl⟩ := List.mem_map.mp member
    dsimp only
    split
    · exact learns setup s (ih s present)
    · exact ih s present
  | merges _ _ merged ih => exact (merge_points merged).1 ▸ ih

private theorem raise_covers {s : Region} (protects : Analysis.protecting? plan st i p = some s)
    (legacy : s.dialect = .legacy) (raised : Analysis.raise plan st i o p = .ok later) :
    later.regions =
      (st.cover p.blocks o.inst.offset (Analysis.stopOf plan.function i o.inst.offset)).regions := by
  unfold Analysis.raise at raised
  simp only [protects, Analysis.protect, legacy] at raised
  split at raised
  · cases raised
  · split at raised
    · rw [(merge_points raised).1]
      unfold Analysis.State.target
      split <;> rfl
    · cases raised
      rfl

/-- A region spans an instruction. -/
structure Spans (plan : Plan) (i : Nat) (o : Bound) (r : Region) : Prop where
  positive : 0 ≤ r.start
  start : r.start ≤ o.inst.offset
  stop : Analysis.stopOf plan.function i o.inst.offset ≤ r.stop

private theorem stretched_spans (positive : 0 ≤ o.inst.offset) (r : Region) :
    Spans plan i o (stretched o.inst.offset (Analysis.stopOf plan.function i o.inst.offset) r) := by
  constructor <;> simp only [stretched, Bool.or_eq_true, decide_eq_true_eq, Int64.le_iff_toInt_le,
    Int64.lt_iff_toInt_lt, Int64.toInt_zero] at positive ⊢ <;> split <;> omega

private theorem Spans.stretched {r : Region} (spans : Spans plan i o r) {offset : Int64} (stop : Int64)
    (positive : 0 ≤ offset) : Spans plan i o (stretched offset stop r) := by
  obtain ⟨above, start, ends⟩ := spans
  constructor <;> simp only [Proofs.stretched, Bool.or_eq_true, decide_eq_true_eq, Int64.le_iff_toInt_le,
    Int64.lt_iff_toInt_lt, Int64.toInt_zero] at positive above start ends ⊢ <;> split <;> omega

private theorem Spans.learned {r : Region} (spans : Spans plan i o r) (depth entryDepth : Int64) :
    Spans plan i o { r with depth := depth, entryDepth := entryDepth } :=
  ⟨spans.positive, spans.start, spans.stop⟩

/-- The extents of the regions come from the instructions that have been processed inside them, and cover
these. -/
structure Extents (plan : Plan) (bound : Array Bound) (st : Analysis.State) : Prop where
  level : ∀ r ∈ st.regions, 0 ≤ r.depth → r.entryDepth = r.depth + Int64.ofNat r.slotCount
  start : ∀ r ∈ st.regions, -1 ≤ r.start
  stop : ∀ r ∈ st.regions, r.stop = -1 ∨ ∃ i o p, Reached bound st i o p ∧ ⟨r.id, false⟩ ∈ p.blocks ∧
    r.stop = Analysis.stopOf plan.function i o.inst.offset
  spans : ∀ i o p, Reached bound st i o p → i ∈ st.work ∨
    ∀ r ∈ st.regions, ⟨r.id, false⟩ ∈ p.blocks → Spans plan i o r

private theorem protecting?_some (legacy : plan.dialect = .legacy) (opened : Opened st.regions p.blocks)
    {region : Int64} (member : ⟨region, false⟩ ∈ p.blocks) :
    ∃ s, Analysis.protecting? plan st i p = some s := by
  have some : setupBlocks p.blocks ≠ [] := by
    intro none
    have running := List.dropWhile_eq_nil_iff.mp none _ member
    cases running
  simp only [Analysis.protecting?, legacy]
  split
  · next none => exact absurd none some
  · next block _ setup =>
    obtain ⟨s, found, _⟩ := opened block (setupBlocks_mem (setup ▸ List.mem_cons_self))
    exact ⟨s, found⟩

theorem Visited.progress (planned : Planned plan bound) (visited : Visited plan bound st) :
    Progress plan bound st := by
  induction visited with
  | entered entered => exact (Progress.entered planned entered).1
  | processed _ _ done ih => exact (ih.advance planned done).1

private theorem process_spans (planned : Planned plan bound) (legacy : plan.dialect = .legacy)
    (regions : List.Forall₂ RegionLater plan.regions st.regions) (rooted : Rooted st.regions p)
    (positive : 0 ≤ o.inst.offset) (done : Analysis.process plan st i o p = .ok later) :
    ∀ r ∈ later.regions, ⟨r.id, false⟩ ∈ p.blocks → Spans plan i o r := by
  intro r member inside
  obtain ⟨s, protects⟩ := protecting?_some (i := i) legacy rooted.blocks inside
  have dialect := (protecting?_spec planned regions rooted protects).2.2.1.trans legacy
  unfold Analysis.process at done
  split at done
  · cases done
  · next raised raising =>
    -- The exceptions come first, and stretch the regions; what follows leaves them spanning.
    have numbered := (raise_evolves raising).numbered (planned.numbered.later regions)
    have carried : Evolves plan raised i o p later := .carry .start numbered done
    refine carried.regions (motive := fun r => ⟨r.id, false⟩ ∈ p.blocks → Spans plan i o r) ?_ ?_ ?_ r member
      inside
    · exact fun _ _ _ r spans _ inside => (spans inside).stretched _ positive
    · exact fun _ _ spans inside => (spans inside).learned _ _
    · intro r member inside
      rw [raise_covers protects dialect raising, cover_regions] at member
      obtain ⟨before, _, rfl⟩ := List.mem_map.mp member
      split at inside
      · next own =>
        rw [if_pos own]
        exact stretched_spans positive before
      · next outside => exact absurd inside outside

private theorem Extents.process (planned : Planned plan bound) (legacy : plan.dialect = .legacy)
    (positive : ∀ (i : Nat) (o : Bound), bound[i]? = some o → 0 ≤ o.inst.offset)
    (valid : Progress plan bound st) (extents : Extents plan bound st) (found : bound[i]? = some o)
    (known : st.point? i = some p) (done : Analysis.process plan (taken st i) i o p = .ok later) :
    Extents plan bound later := by
  have sane : Sane plan bound (taken st i) := taken_sane valid.sane i _
  have size : (taken st i).points.size = plan.function.instructions.size := valid.size
  have queue : Queue (taken st i) := taken_queue valid.queue (taken_work i)
  have regions : List.Forall₂ RegionLater plan.regions (taken st i).regions := valid.regions
  have grown : Later plan bound (taken st i) later :=
    (process_later planned size valid.falling queue sane regions found known done).1
  have evolves := process_evolves (planned.numbered.later regions) done
  have kept : ∀ j q, st.point? j = some q → ∃ q', later.point? j = some q' ∧ q'.blocks = q.blocks :=
    evolves.records.1
  refine ⟨?_, ?_, ?_, fun j o' q reached => ?_⟩
  · exact evolves.regions (fun _ _ _ r level _ => level) (fun _ r _ _ => rfl) extents.level
  · refine evolves.regions (fun _ _ _ r start _ => ?_) (fun _ r start => start) extents.start
    have first := positive i o found
    simp only [stretched, Int64.le_iff_toInt_le] at start first ⊢
    split
    · exact Int.le_trans (by decide) first
    · exact start
  · refine evolves.regions (motive := fun r => r.stop = -1 ∨ ∃ j o' q, Reached bound later j o' q ∧
      ⟨r.id, false⟩ ∈ q.blocks ∧ r.stop = Analysis.stopOf plan.function j o'.inst.offset)
      (fun _ _ _ r stop inside => ?_) (fun _ r stop => stop) fun r member => ?_
    · simp only [stretched]
      split
      · obtain ⟨q, recorded, same⟩ := kept i p known
        exact .inr ⟨i, o, q, ⟨found, recorded⟩, same ▸ inside, rfl⟩
      · exact stop
    · refine (extents.stop r member).imp_right fun ⟨j, o', q, reached, inside, stop⟩ => ?_
      obtain ⟨q', recorded, same⟩ := kept j q reached.point
      exact ⟨j, o', q', ⟨reached.found, recorded⟩, same ▸ inside, stop⟩
  · -- A record that the instruction changes is queued again; one that it leaves stays spanned.
    rcases grown.changed j with same | queued
    · have before : st.point? j = some q := same.symm.trans reached.point
      by_cases own : j = i
      · subst own
        cases found.symm.trans reached.found
        cases known.symm.trans before
        exact .inr (process_spans planned legacy regions (sane j p known).2.1 (positive j o found) done)
      · rcases extents.spans j o' q ⟨reached.found, before⟩ with waiting | spans
        · exact .inl (grown.work j ((taken_work i j waiting).resolve_left own))
        · have spans : ∀ r ∈ (taken st i).regions, ⟨r.id, false⟩ ∈ q.blocks → Spans plan j o' r := spans
          refine .inr (evolves.regions ?_ ?_ spans)
          · exact fun _ _ _ r spans _ inside => (spans inside).stretched _ (positive i o found)
          · exact fun _ _ spans inside => (spans inside).learned _ _
    · exact .inl queued

theorem Visited.extents {fn : Function} (ready : Ready fn plan bound)
    (legacy : plan.dialect = .legacy)
    (positive : ∀ (i : Nat) (o : Bound), bound[i]? = some o → 0 ≤ o.inst.offset)
    (visited : Visited plan bound st) : Extents plan bound st := by
  have planned := ready.planned.2
  induction visited with
  | @entered st entered =>
    obtain ⟨regions, points⟩ := merge_points entered
    have drafted : ∀ r ∈ st.regions, r.start = -1 ∧ r.stop = -1 ∧ r.depth = -1 := by
      intro r member
      rw [regions] at member
      have member : r ∈ plan.regions := member
      rw [(ofFunction_scanned ready.drafted legacy).1] at member
      simp only [Plan.scanSetups, List.map_map, List.mem_map] at member
      obtain ⟨_, _, rfl⟩ := member
      exact ⟨rfl, rfl, rfl⟩
    refine ⟨fun r member known => ?_, fun r member => ?_, fun r member => .inl (drafted r member).2.1, ?_⟩
    · rw [(drafted r member).2.2] at known
      exact absurd known (by decide)
    · rw [(drafted r member).1]
      exact Int64.le_refl _
    · intro j o p reached
      rcases points j with same | ⟨_, ⟨q, recorded, blocks⟩, _⟩
      · have none : (Analysis.State.start plan).point? j = none := by
          simp only [Analysis.State.point?, Analysis.State.start, Array.getElem?_replicate]
          split <;> rfl
        cases none.symm.trans (same.symm.trans reached.point)
      · cases reached.point.symm.trans recorded
        rw [blocks]
        exact .inr fun _ _ member => absurd member List.not_mem_nil
  | @processed st later i work before next done ih =>
    unfold advance at done
    split at done
    · next o p found known =>
      exact ih.process planned legacy positive (before.progress planned) found known done
    · next missing =>
      cases done
      refine ⟨ih.level, ih.start, fun r member => ?_, fun j o p reached => ?_⟩
      · rcases ih.stop r member with empty | ⟨j, o, p, reached, rest⟩
        · exact .inl empty
        · exact .inr ⟨j, o, p, ⟨reached.found, reached.point⟩, rest⟩
      · have waits := ih.spans j o p ⟨reached.found, reached.point⟩
        refine waits.imp_left fun waiting => (taken_work i j waiting).resolve_left ?_
        rintro rfl
        exact missing o p reached.found reached.point

theorem Visited.declared (planned : Planned plan bound) (modern : plan.dialect = .modern)
    (declared : ∀ r ∈ plan.regions, Declared r) (visited : Visited plan bound st) :
    ∀ r ∈ st.regions, Declared r := by
  induction visited with
  | entered entered => exact (merge_points entered).1 ▸ declared
  | @processed st later i work before next done ih =>
    have valid := before.progress planned
    unfold advance at done
    split at done
    · next o p found known =>
      have regions : List.Forall₂ RegionLater plan.regions (taken st i).regions := valid.regions
      refine (process_evolves (planned.numbered.later regions) done).regions ?_ ?_ ih
      · intro s protects legacy
        have rooted : Rooted (taken st i).regions p := (valid.sane i p known).2.1
        have dialect := (protecting?_spec planned regions rooted protects).2.2.1
        cases modern.symm.trans (dialect.symm.trans legacy)
      · intro setup
        cases modern.symm.trans (planned.setup_legacy found setup)
    · cases done
      exact ih

end

end Lowering.Proofs
