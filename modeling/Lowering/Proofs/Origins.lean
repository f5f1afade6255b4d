import Lowering.Proofs.HostDepths

/-! Where the operations of a routine come from. Each belongs to the prologues in front of an instruction
that is reached, to such an instruction, or to the cleanup of blocks that such an instruction has; and it
bears the offset of that instruction, or of the handler that the cleanup belongs to. -/

namespace Lowering.Proofs
open Host Shape Guest Emission

variable {plan : Plan} {bound : Array Bound} {analysis : Analysis.State} {maxDepth : Int64}

/-- The innermost blocks of an instruction that is reached. -/
def Inner (plan : Plan) (bound : Array Bound) (analysis : Analysis.State) (blocks : List Block) : Prop :=
  plan.dialect = .legacy ∧ ∃ i o p, Reached bound analysis i o p ∧ blocks <:+ p.blocks

/-- Where an operation comes from. -/
inductive Source (plan : Plan) (bound : Array Bound) (analysis : Analysis.State) : Emitted → Prop
  | lead {i : Nat} {o : Bound} {p : Point} {op : Operation} {protection : Option Protection}
      (reached : Reached bound analysis i o p) (member : op ∈ leadAt plan bound analysis i o)
      (guarded : Guarded (contextOf plan analysis) (cleanupsOf plan bound analysis) i p protection) :
      Source plan bound analysis ⟨op, o.inst.offset, protection⟩
  | own {i : Nat} {o : Bound} {p : Point} {op : Operation} {protection : Option Protection}
      (reached : Reached bound analysis i o p) (member : op ∈ ownAt plan bound analysis i o p)
      (guarded : Guarded (contextOf plan analysis) (cleanupsOf plan bound analysis) i p protection) :
      Source plan bound analysis ⟨op, o.inst.offset, protection⟩
  | cleanup {entry : Cleanup} {r : Region} {op : Operation} {protection : Option Protection}
      (asked : entry ∈ cleanupsOf plan bound analysis)
      (inner : Inner plan bound analysis (entry.block :: entry.below))
      (region : (contextOf plan analysis).region? entry.block.region = some r)
      (member : op ∈ restore (contextOf plan analysis) entry)
      (guards : Guards (contextOf plan analysis) (cleanupsOf plan bound analysis) entry.below
        protection) : Source plan bound analysis ⟨op, r.handler, protection⟩

theorem guardBlocks_inner {c : Context} {st : Emission.State} {blocks : List Block}
    (inner : Inner plan bound analysis blocks)
    (kept : ∀ cleanup ∈ st.cleanups, Inner plan bound analysis (cleanup.block :: cleanup.below)) :
    ∀ cleanup ∈ (guardBlocks c st blocks).cleanups,
      Inner plan bound analysis (cleanup.block :: cleanup.below) := by
  intro cleanup member
  rcases guardBlocks_asks c st blocks with same | ⟨made, same, pushed⟩
  · exact kept cleanup (same ▸ member)
  · rw [pushed] at member
    rcases Array.mem_push.mp member with old | rfl
    · exact kept cleanup old
    · exact same ▸ inner

/-- What has been emitted comes from somewhere, and the cleanups that are asked for are those of blocks of
instructions that are reached. -/
structure Sourced (plan : Plan) (bound : Array Bound) (analysis : Analysis.State) (st : Emission.State) :
    Prop where
  emitted : ∀ e ∈ st.builder.emitted.toList, Source plan bound analysis e
  cleanups : ∀ cleanup ∈ st.cleanups, Inner plan bound analysis (cleanup.block :: cleanup.below)

/-- An instruction adds its own code. -/
theorem Sourced.instruction {i : Nat} {o : Bound} {p : Point} (reached : Reached bound analysis i o p)
    (whole : Grows (Emission.instruction (contextOf plan analysis)
      (stage (contextOf plan analysis) (labelledHandlers plan analysis).1 bound i).1 i o p
      (stage (contextOf plan analysis) (labelledHandlers plan analysis).1 bound i).2)
        (emissionOf plan bound analysis))
    (sourced : Sourced plan bound analysis
      (stage (contextOf plan analysis) (labelledHandlers plan analysis).1 bound i).1) :
    Sourced plan bound analysis (Emission.instruction (contextOf plan analysis)
      (stage (contextOf plan analysis) (labelledHandlers plan analysis).1 bound i).1 i o p
      (stage (contextOf plan analysis) (labelledHandlers plan analysis).1 bound i).2) := by
  obtain ⟨_, _, guarded⟩ := guardedState_guards (contextOf plan analysis)
    (stage (contextOf plan analysis) (labelledHandlers plan analysis).1 bound i).1 i o p
  have protects : Guarded (contextOf plan analysis) (cleanupsOf plan bound analysis) i p _ :=
    guarded.grow fun _ => whole.mem
  constructor
  · intro e member
    rw [instruction_emitted] at member
    rcases List.mem_append.mp member with old | new
    · exact sourced.emitted e old
    · obtain ⟨op, listed, rfl⟩ := List.mem_map.mp new
      rcases List.mem_append.mp listed with front | inside
      · exact .lead reached front protects
      · exact .own reached inside protects
  · rw [instruction_cleanups, guardedState]
    unfold Emission.guard
    split
    next legacy => exact guardBlocks_inner ⟨legacy, i, o, p, reached, List.suffix_rfl⟩ sourced.cleanups
    next =>
      split
      · exact sourced.cleanups
      · split <;> exact sourced.cleanups

/-- A cleanup that was asked for adds its own code. -/
theorem Sourced.cleanup (settled : Settled plan bound analysis) {st : Emission.State} {entry : Cleanup}
    (member : entry ∈ st.cleanups)
    (whole : Grows (Emission.cleanup (contextOf plan analysis) st entry) (emissionOf plan bound analysis))
    (sourced : Sourced plan bound analysis st) :
    Sourced plan bound analysis (Emission.cleanup (contextOf plan analysis) st entry) := by
  have inner := sourced.cleanups entry member
  have asked : entry ∈ cleanupsOf plan bound analysis := whole.mem ((cleanup_grows _ st entry).mem member)
  have ⟨legacy, i, o, p, reached, part⟩ := inner
  obtain ⟨r, _, _, _, region⟩ := settled.block reached (part.subset List.mem_cons_self)
  obtain ⟨protection, emitted, guards⟩ := cleanup_emitted (contextOf plan analysis) st entry
  constructor
  · intro e listed
    rw [emitted, region, Option.getD_some] at listed
    rcases List.mem_append.mp listed with old | new
    · exact sourced.emitted e old
    · obtain ⟨op, here, rfl⟩ := List.mem_map.mp new
      exact .cleanup asked inner region here (guards.grow fun _ => whole.mem)
  · exact guardBlocks_inner ⟨legacy, i, o, p, reached, (List.suffix_cons _ _).trans part⟩ sourced.cleanups

theorem Settled.sourced (settled : Settled plan bound analysis) :
    Sourced plan bound analysis (emissionOf plan bound analysis) := by
  have labelling : Labelling plan.function analysis _ _ _ _ := labelledHandlers_labelling settled.numbered
  have start : Sourced plan bound analysis (labelledHandlers plan analysis).1 := by
    refine ⟨?_, ?_⟩
    · rw [labelling.emitted]
      exact nofun
    · rw [labelling.cleanups]
      exact nofun
  refine emission_invariant start (fun _ _ sourced => ⟨sourced.emitted, sourced.cleanups⟩) ?_ ?_
  · intro i o p found point whole sourced
    exact sourced.instruction ⟨found, point⟩ whole
  · intro before entry member whole sourced
    exact sourced.cleanup settled member whole

/-- Where an operation of a routine comes from. -/
theorem Settled.source (settled : Settled plan bound analysis) {k : Nat} {op : Operation}
    (operation : (routineOf plan bound analysis maxDepth).ops[k]? = some op) :
    ∃ e, Source plan bound analysis e ∧ e.operation = op ∧
      (routineOf plan bound analysis maxDepth).origin k = e.origin ∧
      ((routineOf plan bound analysis maxDepth).regionAt? (Int64.ofNat k)).map (fun region =>
        (⟨region.handler, region.depth⟩ : Protection)) = e.protection := by
  have listed : ((emissionOf plan bound analysis).builder.emitted.map Emitted.operation)[k]? =
      some op := operation
  rw [Array.getElem?_map, Option.map_eq_some_iff] at listed
  obtain ⟨e, emitted, same⟩ := listed
  refine ⟨e, settled.sourced.emitted e (Array.mem_of_getElem? emitted).val, same, ?_,
    build_regionAt? _ (small_word settled.small) emitted⟩
  simp [Routine.origin, routineOf, Builder.build, emitted]

end Lowering.Proofs
