import Lowering.Proofs.DepthSafety
import Lowering.Proofs.Helpers
import Lowering.Proofs.Layouts

/-! Exceptions in protected code. A frame that is offered an exception has given up the operands of the
operation that raised. What is left decides whether the exception reaches the handler, and how
much is left is known beforehand. -/

namespace Lowering.Proofs
open Machine Host Guest Emission

variable {plan : Plan} {bound : Array Bound} {analysis : Analysis.State}

/-- No protection keeps a negative depth. -/
def Positive (protection : Option Protection) : Prop :=
  ∀ kept, protection = some kept → 0 ≤ kept.depth

private theorem guards_positive {c : Context} {cleanups : Array Cleanup} {blocks : List Block}
    {protection : Option Protection} (opened : Opened c.analysis.regions blocks)
    (guards : Guards c cleanups blocks protection) : Positive protection := by
  have known : ∀ b ∈ blocks, 0 ≤ depthOf c b.region := by
    intro b member
    obtain ⟨r, found, positive⟩ := opened b member
    have found : c.region? b.region = some r := found
    rw [depthOf, found]
    exact positive
  intro kept protects
  cases guards with
  | free | uncaught => cases protects
  | @caught region below =>
    have positive := known ⟨region, false⟩ List.mem_cons_self
    rw [← Option.some.inj protects]
    exact positive
  | @unwound cleanup =>
    have positive := known cleanup.block List.mem_cons_self
    rw [← Option.some.inj protects]
    exact positive

/-- What is emitted keeps no negative depth, and the cleanups are those of open blocks. -/
structure Kept (regions : List Region) (st : Emission.State) : Prop where
  emitted : ∀ e ∈ st.builder.emitted.toList, Positive e.protection
  cleanups : ∀ cleanup ∈ st.cleanups, Opened regions (cleanup.block :: cleanup.below)

private theorem guardBlocks_opened {c : Context} {st : Emission.State} {blocks : List Block}
    {regions : List Region} (opened : Opened regions blocks)
    (kept : ∀ cleanup ∈ st.cleanups, Opened regions (cleanup.block :: cleanup.below)) :
    ∀ cleanup ∈ (guardBlocks c st blocks).cleanups,
      Opened regions (cleanup.block :: cleanup.below) := by
  intro cleanup member
  rcases guardBlocks_asks c st blocks with same | ⟨made, same, pushed⟩
  · exact kept cleanup (same ▸ member)
  · rw [pushed] at member
    rcases Array.mem_push.mp member with old | rfl
    · exact kept cleanup old
    · exact same ▸ opened

theorem Kept.instruction (planned : Planned plan bound) (stable : Stable plan bound analysis)
    {c : Context} (own : c.plan = plan) (analysed : c.analysis = analysis) {st : Emission.State}
    (kept : Kept analysis.regions st) {i : Nat} {o : Bound} {p : Point}
    (point : analysis.point? i = some p) (falls : Bool) :
    Kept analysis.regions (Emission.instruction c st i o p falls) := by
  subst own analysed
  obtain ⟨_, rooted, _⟩ := stable.sane i p point
  obtain ⟨_, _, guarded⟩ := guardedState_guards c st i o p
  have positive : Positive (guardedState c st i o p).builder.protection := by
    unfold Guarded at guarded
    split at guarded
    next legacy => exact guards_positive rooted.blocks guarded
    next modern =>
      intro protection protects
      rw [guarded] at protects
      obtain ⟨r, region, rest⟩ := Option.bind_eq_some_iff.mp protects
      obtain ⟨label, _, rfl⟩ := Option.map_eq_some_iff.mp rest
      have protects : Analysis.protecting? c.plan c.analysis i p = some r := by
        simp only [Analysis.protecting?, modern]
        exact region
      exact (protecting?_spec planned stable.regions rooted protects).2.1
  constructor
  · intro e member
    rw [instruction_emitted] at member
    rcases List.mem_append.mp member with old | new
    · exact kept.emitted e old
    · obtain ⟨_, _, rfl⟩ := List.mem_map.mp new
      exact positive
  · rw [instruction_cleanups, guardedState]
    unfold Emission.guard
    split
    · exact guardBlocks_opened rooted.blocks kept.cleanups
    · split
      · exact kept.cleanups
      · split <;> exact kept.cleanups

theorem Kept.cleanup {c : Context} {st : Emission.State} (kept : Kept c.analysis.regions st)
    {entry : Cleanup} (member : entry ∈ st.cleanups) :
    Kept c.analysis.regions (Emission.cleanup c st entry) := by
  have opened : Opened c.analysis.regions entry.below := fun b inside =>
    kept.cleanups entry member b (List.mem_cons_of_mem _ inside)
  obtain ⟨protection, emitted, guards⟩ := cleanup_emitted c st entry
  constructor
  · intro e listed
    rw [emitted] at listed
    rcases List.mem_append.mp listed with old | new
    · exact kept.emitted e old
    · obtain ⟨_, _, rfl⟩ := List.mem_map.mp new
      exact guards_positive opened guards
  · exact guardBlocks_opened opened kept.cleanups

theorem emissionOf_kept (planned : Planned plan bound) (stable : Stable plan bound analysis) :
    Kept analysis.regions (emissionOf plan bound analysis) := by
  have labelling : Labelling plan.function analysis _ _ _ _ :=
    labelledHandlers_labelling (planned.numbered.later stable.regions)
  have start : Kept analysis.regions (labelledHandlers plan analysis).1 := by
    refine ⟨?_, ?_⟩
    · rw [labelling.emitted]
      exact nofun
    · rw [labelling.cleanups]
      exact nofun
  refine emission_invariant start (fun _ _ kept => ⟨kept.emitted, kept.cleanups⟩) ?_ ?_
  · intro i o p _ point _ kept
    exact kept.instruction planned stable rfl rfl point _
  · intro before entry member _ kept
    exact Kept.cleanup (c := contextOf plan analysis) kept member

/-- A region of a lowered routine keeps no negative depth. -/
theorem Lowers.positive {fn : Function} {l : Lowered} (lowers : Lowers fn l plan bound analysis)
    {k : Nat} {o : Operation} (operation : l.routine.ops[k]? = some o) {region : Protected}
    (found : l.routine.regionAt? (Int64.ofNat k) = some region) : 0 ≤ region.depth := by
  rw [lowers.routine] at operation found
  have listed : ((emissionOf plan bound analysis).builder.emitted.map Emitted.operation)[k]? =
      some o := operation
  rw [Array.getElem?_map, Option.map_eq_some_iff] at listed
  obtain ⟨e, emitted, _⟩ := listed
  have protects := build_regionAt? _ (small_word lowers.small) emitted
  have found : (emissionOf plan bound analysis).builder.build.regionAt? (Int64.ofNat k) =
      some region := found
  rw [found, Option.map_some] at protects
  have member : e ∈ (emissionOf plan bound analysis).builder.emitted.toList :=
    (Array.mem_of_getElem? emitted).val
  exact (emissionOf_kept lowers.planned lowers.stable).emitted e member _ protects.symm

/-- An invocation of a standard helper, with as many operands as it looks at. -/
def Matched (inv : Invocation) : Prop :=
  ∃ needed, signature? inv.helper = some (needed, inv.results) ∧ inv.args.toInt = needed

private theorem matched {helper : Helper} {args results arg : Int64} {name : String} {needed : Nat}
    (signature : signature? helper = some (needed, results)) (count : args.toInt = needed) :
    Matched { helper, args, results, arg, name } :=
  ⟨needed, signature, count⟩

/-- An instruction that invokes a helper on as many operands as its argument tells. -/
def collects (opcode : Opcode) : Bool := opcode ∈ [.buildTuple, .buildList, .callFunction, .call]

theorem expand_invocation {fresh : Label} {o : Bound} {s : Shape.Stack} {inv : Invocation}
    (member : .invoke inv ∈ o.expand plan fresh s) :
    Matched inv ∨ collects o.opcode ∧ ∃ needed, signature? inv.helper = some (needed, 1) ∧ inv.results = 1 := by
  cases opcode : o.opcode <;> simp only [Bound.expand, opcode] at member
  case buildTuple | buildList | callFunction | call =>
    rw [List.mem_singleton, Operation.invoke.injEq] at member
    subst member
    exact .inr ⟨rfl, _, rfl, rfl⟩
  case popExcept =>
    unfold Plan.leave at member
    split at member
    · simp at member
    · simp only [List.mem_append, List.mem_replicate, List.mem_cons, reduceCtorEq, and_false,
        List.not_mem_nil, or_false, false_or] at member
      split at member <;> cases member
  case reraise =>
    unfold reraise at member
    split at member
    · simp at member
    · split at member <;> simp at member
  case raiseVarargs =>
    split at member
    · simp at member
    · split at member <;> simp at member <;> subst member <;> exact .inl (matched rfl (by decide))
  all_goals first
    | (simp at member; done)
    | (simp at member; subst member; exact .inl (matched rfl (by decide)))
    | (split at member <;> simp at member <;> subst member <;> exact .inl (matched rfl (by decide)))

theorem prologue_invocation {r : Region} {inv : Invocation} (member : .invoke inv ∈ r.prologue) :
    Matched inv := by
  unfold Region.prologue at member
  split at member
  · simp only [List.mem_cons, reduceCtorEq, Operation.invoke.injEq, List.not_mem_nil, or_false,
      false_or] at member
    rcases member with rfl | rfl <;> exact matched rfl (by decide)
  · split at member <;> simp at member
    subst member
    exact matched rfl (by decide)

theorem Lowers.standard {fn : Function} {l : Lowered} (lowers : Lowers fn l plan bound analysis)
    {inv : Invocation} (member : .invoke inv ∈ l.routine.ops) :
    ∃ needed, signature? inv.helper = some (needed, inv.results) := by
  rw [lowers.routine] at member
  have listed : .invoke inv ∈ opsOf (emissionOf plan bound analysis) := by
    simpa [Builder.build, opsOf] using member
  have labelling : Labelling plan.function analysis _ _ _ _ :=
    labelledHandlers_labelling (lowers.planned.numbered.later lowers.stable.regions)
  rcases emission_ops listed with old | ⟨o, p, fresh, falls, regions, new⟩ | ⟨entry, new⟩
  · rw [opsOf, labelling.emitted] at old
    cases old
  · rcases List.mem_append.mp new with first | second
    · rcases mem_lead first with jump | ⟨r, _, label | listed⟩
      · cases jump
      · cases label
      · obtain ⟨needed, signature, _⟩ := prologue_invocation listed
        exact ⟨needed, signature⟩
    · rcases mem_own second with label | expanded
      · cases label
      · rcases expand_invocation expanded with ⟨needed, signature, _⟩ | ⟨_, needed, signature, one⟩
        · exact ⟨needed, signature⟩
        · exact ⟨needed, one ▸ signature⟩
  · simp [restore] at new

/-- No helper gives more than two results. -/
theorem Lowers.results {fn : Function} {l : Lowered} (lowers : Lowers fn l plan bound analysis)
    {inv : Invocation} (member : .invoke inv ∈ l.routine.ops) :
    0 ≤ inv.results ∧ inv.results ≤ 2 := by
  obtain ⟨needed, signature⟩ := lowers.standard member
  have few : ∀ helper results, signature? helper = some (needed, results) → 0 ≤ results ∧ results ≤ 2 := by
    intro helper results signature
    cases helper <;> cases signature <;> decide
  exact few _ _ signature

private theorem perform_raises {setup : Setup} {st st' : Machine.State} {f g : Frame} {o : Operation}
    {exception : Nat} (raised : perform setup st f o = (st', .raise g exception)) :
    o.pushes = 0 ∨ o.pushes = 1 ∨ ∃ inv, o = .invoke inv := by
  cases o with
  | invoke inv => exact .inr (.inr ⟨inv, rfl⟩)
  | label | storeLocal | storeGlobal | deleteLocal | pop | goto | ifTrue | ifFalse | ret | throw
  | setHandled => exact .inl rfl
  | const | loadLocal | loadGlobal | getHandled => exact .inr (.inl rfl)
  | dup =>
    unfold perform at raised
    split at raised <;> simp_all [abort]
  | pick depth | swap depth =>
    simp only [perform] at raised
    split at raised <;> cases raised

private theorem room_left {length n : Nat} {pops pushes : Int64} (small : length ≤ fullStack)
    (enough : n ≤ length) (count : Int64.ofNat n = pops) (positive : 0 ≤ pushes) (few : pushes ≤ 2)
    (room : ¬ Int64.ofNat maxStackDepth < Int64.ofNat length - pops + pushes) :
    length - n ≤ maxStackDepth := by
  simp only [fullStack, addressable] at small
  simp only [Int64.le_iff_toInt_le, Int64.toInt_zero] at positive few
  have upper : pushes.toInt ≤ 2 := few
  have value : (Int64.ofNat length - pops + pushes).toInt = (length : Int) - n + pushes.toInt := by
    have less : (Int64.ofNat length - pops).toInt = (length : Int) - n := by
      rw [← count, Int64.toInt_sub, Int64.toInt_ofNat_of_lt (by omega),
        Int64.toInt_ofNat_of_lt (by omega), Int.bmod_eq_of_le (by omega) (by omega)]
    rw [Int64.toInt_add, less, Int.bmod_eq_of_le (by omega) (by omega)]
  rw [Int64.lt_iff_toInt_lt, value, Int64.toInt_ofNat_of_lt (by decide)] at room
  omega

section
variable {r : Routine} {depths : Depths} {setup : Setup}

private theorem execute_room
    (results : ∀ inv, .invoke inv ∈ r.ops → 0 ≤ inv.results ∧ inv.results ≤ 2) {c : Config}
    (levelled : Levelled r depths c) {o : Operation} {st st' : Machine.State} {f g : Frame}
    (issued : Issued c o st f) (own : f.routine = r)
    (left : (∃ exception, execute setup st f o = (st', .raise g exception)) ∨
      ∃ callee, execute setup st f o = (st', .enter g callee)) :
    g.stack.length ≤ maxStackDepth := by
  have within := execute_within setup st f o
  have small : f.stack.length ≤ fullStack :=
    issued.stack ▸ (levelled.frame.known (issued.routine ▸ own)).1
  have short : f.stack.length < 2 ^ 62 := by
    simp only [fullStack, addressable] at small
    omega
  have room : ¬ Int64.ofNat maxStackDepth < Int64.ofNat f.stack.length - o.pops + o.pushes := by
    intro full
    simp only [execute, if_pos full] at left
    split at left <;> simp [abort] at left
  have invoked : ∀ inv, o = .invoke inv → 0 ≤ o.pushes ∧ o.pushes ≤ 2 := by
    rintro inv rfl
    refine results inv ?_
    rw [← own, issued.routine]
    exact Array.mem_of_getElem? issued.operation
  rcases left with ⟨exception, raised⟩ | ⟨callee, entered⟩
  · rw [raised] at within
    obtain ⟨n, enough, count, rfl⟩ := within
    have pushes : 0 ≤ o.pushes ∧ o.pushes ≤ 2 := by
      simp only [execute, if_neg room] at raised
      split at raised
      · cases raised
      · rcases perform_raises raised with none | one | ⟨inv, same⟩
        · rw [none]
          decide
        · rw [one]
          decide
        · exact invoked inv same
    rw [List.length_drop]
    exact room_left small (enough short) count pushes.1 pushes.2 room
  · rw [entered] at within
    obtain ⟨inv, same, positive, enough, rfl, _⟩ := within
    have pushes := invoked inv same
    rw [List.length_drop]
    refine room_left small (enough short) ?_ pushes.1 pushes.2 room
    rw [same]
    exact ofNat_toNat positive

/-- Every frame of the routine that waits has room for one more value. -/
def Roomy (r : Routine) (c : Config) : Prop :=
  ∀ g ∈ c.waiting, g.routine = r → g.stack.length ≤ maxStackDepth

theorem Roomy.step
    (results : ∀ inv, .invoke inv ∈ r.ops → 0 ≤ inv.results ∧ inv.results ≤ 2) {c d : Config}
    (levelled : Levelled r depths c) (roomy : Roomy r c) (goes : Goes setup c d) : Roomy r d := by
  obtain ⟨o, st, f, issued, move⟩ := goes_cases goes
  cases move with
  | next _ same =>
    rw [Roomy, same]
    exact roomy
  | enter done below =>
    intro g member own
    rw [below] at member
    rcases List.mem_cons.mp member with rfl | old
    · have within := execute_within setup st f o
      rw [done] at within
      obtain ⟨_, _, _, _, rfl, _⟩ := within
      exact execute_room results levelled issued own (.inr ⟨_, done⟩)
    · exact roomy g old own
  | back _ below =>
    intro g member
    exact roomy g (below ▸ List.mem_cons_of_mem _ member)
  | raise _ offered =>
    intro g member
    exact roomy g (offered.mem.2 g member)

theorem Raises.roomy
    (results : ∀ inv, .invoke inv ∈ r.ops → 0 ≤ inv.results ∧ inv.results ≤ 2) {c : Config}
    (levelled : Levelled r depths c) (roomy : Roomy r c) {o : Operation} {st st' : Machine.State}
    {f g h : Frame} {exception : Nat} {rest : List Frame}
    (raises : Raises setup c o st f st' g exception)
    (offered : Offered exception g c.waiting h rest) (own : h.routine = r) :
    h.stack.length ≤ maxStackDepth ∧ ∃ raiser, Paused r depths raiser h := by
  have within := execute_within setup st f o
  rw [raises.executed] at within
  obtain ⟨n, enough, count, rfl⟩ := within
  have paused := levelled.frame.paused raises.issued enough count
  refine ⟨?_, (offered.paused paused levelled.waiting).1⟩
  rcases offered.mem.1 with rfl | member
  · exact execute_room results levelled raises.issued own (.inl ⟨_, raises.executed⟩)
  · exact roomy h member own

theorem receive_kept {f : Frame} {region : Protected} {target : Nat}
    (found : f.routine.regionAt? (Int64.ofNat (f.ip - 1)) = some region)
    (defined : f.routine.labelIndex? region.handler = some target) (positive : 0 ≤ region.depth)
    (kept : region.depth ≤ Int64.ofNat f.stack.length) (room : f.stack.length ≤ maxStackDepth)
    (exception : Nat) : receive exception f = .caught { f with
      ip := target
      stack := .exception exception ::
        f.stack.drop (f.stack.length - region.depth.toInt.toNat) } := by
  have sane : (region.depth < 0 || addressable < f.stack.length) = false := by
    have below : ¬ addressable < f.stack.length := by
      simp only [maxStackDepth, addressable] at room ⊢
      omega
    rw [decide_eq_false (Int64.not_lt.mpr positive), decide_eq_false below]
    rfl
  simp only [receive, found, defined, if_neg (Int64.not_lt.mpr kept), sane, Bool.false_eq_true,
    if_false]

theorem receive_short {f : Frame} {region : Protected} {target : Nat}
    (found : f.routine.regionAt? (Int64.ofNat (f.ip - 1)) = some region)
    (defined : f.routine.labelIndex? region.handler = some target)
    (short : Int64.ofNat f.stack.length < region.depth) (exception : Nat) :
    receive exception f = .failed (.belowProtected f.stack.length region.depth (f.ip - 1)) := by
  simp only [receive, found, defined, if_pos short]

/-- What a frame of the routine does with an exception: what the walk leaves of the depth before the
operation, once its operands are gone, decides. -/
theorem Paused.receives (agreeing : Agreeing r depths) {o : Operation} {f : Frame}
    (paused : Paused r depths o f) (own : f.routine = r) (room : f.stack.length ≤ maxStackDepth)
    {region : Protected} (found : r.regionAt? (Int64.ofNat (f.ip - 1)) = some region)
    (positive : 0 ≤ region.depth) (exception : Nat) :
    ∃ before target, depths.before[f.ip - 1]? = some before ∧
      r.labelIndex? region.handler = some target ∧
      before - o.pops = Int64.ofNat f.stack.length ∧
      (region.depth ≤ before - o.pops → receive exception f = .caught { f with
        ip := target
        stack := .exception exception ::
          f.stack.drop (f.stack.length - region.depth.toInt.toNat) }) ∧
      (before - o.pops < region.depth →
        receive exception f =
          .failed (.belowProtected f.stack.length region.depth (f.ip - 1))) := by
  obtain ⟨n, count, small, known⟩ := paused.known own
  obtain ⟨target, defined, _⟩ := paused.followed agreeing own (own ▸ found)
  have left : Int64.ofNat (f.stack.length + n) - o.pops = Int64.ofNat f.stack.length := by
    rw [← count, Int64.ofNat_add]
    grind
  refine ⟨_, target, known, own ▸ defined, left, fun kept => ?_, fun short => ?_⟩
  · rw [left] at kept
    exact receive_kept (own ▸ found) defined positive kept room exception
  · rw [left] at short
    exact receive_short (own ▸ found) defined short exception

end

private theorem ended_below {setup : Setup} {c : Config} {st' : Machine.State} {h : Frame}
    {left index : Nat} {kept : Int64} (ended : Machine.step setup c.state c.frame c.waiting =
      (st', .ended h (.failed (.belowProtected left kept index)))) :
    ∃ o st f st₁ g exception rest region, Issued c o st f ∧
      execute setup st f o = (st₁, .raise g exception) ∧ Offered exception g c.waiting h rest ∧
      h.routine.regionAt? (Int64.ofNat (h.ip - 1)) = some region ∧ index = h.ip - 1 ∧
      Int64.ofNat h.stack.length < region.depth := by
  rcases ends_cases ended with ⟨_, stopped⟩ | ⟨o, st, f, issued, finish⟩
  · cases stopped
  · cases finish with
    | own done =>
      have within := execute_within setup st f o
      rw [done] at within
      exact within.2.2.elim
    | received done offered failed =>
      unfold receive at failed
      dsimp only at failed
      split at failed
      · cases failed
      · next region found =>
        split at failed
        · cases failed
        · split at failed
          · next short =>
            cases failed
            exact ⟨o, st, f, _, _, _, _, region, issued, done, offered, found, rfl, short⟩
          · split at failed <;> cases failed

private theorem Lowers.unprotected {fn : Function} {l : Lowered}
    (lowers : Lowers fn l plan bound analysis) (empty : l.routine.ops.isEmpty = true) (k : Int64) :
    l.routine.regionAt? k = none := by
  rw [lowers.routine] at empty ⊢
  have none : (emissionOf plan bound analysis).builder.emitted = #[] := by
    simpa [Builder.build] using empty
  simp [Routine.regionAt?, Builder.build, none, Builder.regions, Builder.runs]

/-- Every run keeps the frames of a lowered routine at the depths of its walk, with room for an
exception. -/
theorem Lowers.keeps {fn : Function} {l : Lowered} (lowers : Lowers fn l plan bound analysis)
    (some : l.routine.ops.isEmpty = false) {depths : Depths}
    (walked : Depths.ofRoutine l.routine = .ok depths) {setup : Setup} {st : Machine.State}
    {entered : Routine} {args : List Value} {depth : Nat} {c : Config}
    (reached : Reaches setup (.enter st entered args depth) c) :
    Levelled l.routine depths c ∧ Roomy l.routine c := by
  have agreeing := ofRoutine_agrees some walked
  have results : ∀ inv, .invoke inv ∈ l.routine.ops → 0 ≤ inv.results ∧ inv.results ≤ 2 :=
    fun inv => lowers.results
  have kept : ∀ {a b : Config}, Levelled l.routine depths a ∧ Roomy l.routine a →
      Goes setup a b → Levelled l.routine depths b ∧ Roomy l.routine b :=
    fun valid goes => ⟨valid.1.step agreeing goes, valid.2.step results valid.1 goes⟩
  exact reached.keeps kept ⟨⟨enter_level agreeing _ entered args depth, nofun⟩, nofun⟩

/-- Protected code and its handlers. Whatever is run on whatever machine, an exception that is offered
to a frame of a lowered routine at a protected operation reaches the handler, on the part of the
stack that the region keeps, exactly when the depth that the walk found before the operation is
not below the depth of the region once the operands are taken off. Otherwise the run ends with the
fault that says so, and this fault has no other cause in such a frame. -/
theorem protected_raise_delivered (fn : Function) (l : Lowered) (events : List Lowering.Event)
    (lowered : lower fn = (.ok l, events)) (setup : Setup) (st : Machine.State) (entered : Routine)
    (args : List Value) (depth : Nat) :
    ∃ depths, Depths.ofRoutine l.routine = .ok depths ∧
    ∀ c, Reaches setup (.enter st entered args depth) c →
      (∀ o st₀ f st₁ g exception h rest region, Raises setup c o st₀ f st₁ g exception →
        Offered exception g c.waiting h rest → h.routine = l.routine →
        l.routine.regionAt? (Int64.ofNat (h.ip - 1)) = some region →
        ∃ raiser before target, l.routine.ops[h.ip - 1]? = some raiser ∧
          depths.before[h.ip - 1]? = some before ∧
          l.routine.labelIndex? region.handler = some target ∧
          (region.depth ≤ before - raiser.pops → ∃ c', Goes setup c c' ∧ c'.waiting = rest ∧
            c'.frame = { h with
              ip := target
              stack := .exception exception ::
                h.stack.drop (h.stack.length - region.depth.toInt.toNat) } ∧
            c'.frame.stack.length = region.depth.toInt.toNat + 1) ∧
          (before - raiser.pops < region.depth → ∃ st₂,
            Machine.step setup c.state c.frame c.waiting = (st₂, .ended h (.failed
              (.belowProtected h.stack.length region.depth (h.ip - 1)))))) ∧
      (∀ st₂ h left kept index, Machine.step setup c.state c.frame c.waiting =
          (st₂, .ended h (.failed (.belowProtected left kept index))) → h.routine = l.routine →
        ∃ raiser region before, l.routine.ops[index]? = some raiser ∧
          l.routine.regionAt? (Int64.ofNat index) = some region ∧
          depths.before[index]? = some before ∧ before - raiser.pops < region.depth) := by
  obtain ⟨plan, bound, analysis, lowers⟩ := lower_lowers lowered
  obtain ⟨depths, walked⟩ := lowers.depths
  refine ⟨depths, walked, fun c reached => ?_⟩
  cases empty : l.routine.ops.isEmpty with
  | true =>
    refine ⟨?_, ?_⟩
    · intro o st₀ f st₁ g exception h rest region _ _ _ found
      rw [lowers.unprotected empty] at found
      cases found
    · intro st₂ h left kept index ended own
      obtain ⟨_, _, _, _, _, _, _, _, _, _, _, found, _⟩ := ended_below ended
      rw [own, lowers.unprotected empty] at found
      cases found
  | false =>
    have agreeing := ofRoutine_agrees empty walked
    have results : ∀ inv, .invoke inv ∈ l.routine.ops → 0 ≤ inv.results ∧ inv.results ≤ 2 :=
      fun inv => lowers.results
    have valid := lowers.keeps empty walked reached
    refine ⟨?_, ?_⟩
    · intro o st₀ f st₁ g exception h rest region raises offered own found
      obtain ⟨room, raiser, paused⟩ := raises.roomy results valid.1 valid.2 offered own
      have operation : l.routine.ops[h.ip - 1]? = some raiser := own ▸ paused.operation
      have positive := lowers.positive operation found
      obtain ⟨before, target, known, defined, left, caught, failed⟩ :=
        paused.receives agreeing own room found positive exception
      refine ⟨raiser, before, target, operation, known, defined, fun kept => ?_, fun short => ?_⟩
      · obtain ⟨st', delivered, _⟩ := offered.caught (caught kept) st₁
        refine ⟨⟨st', _, rest⟩, raises.step.trans delivered, rfl, rfl, ?_⟩
        have enough : region.depth.toInt.toNat ≤ h.stack.length := by
          rw [left, ← Int64.not_lt] at kept
          simp only [maxStackDepth] at room
          exact toNat_le_of_not_lt (by omega) kept
        simp only [List.length_cons, List.length_drop]
        omega
      · obtain ⟨st', delivered⟩ := offered.failed (failed short) st₁
        exact ⟨st', raises.step.trans delivered⟩
    · intro st₂ h left kept index ended own
      obtain ⟨o, st₀, f, st₁, g, exception, rest, region, issued, executed, offered, found, rfl,
        short⟩ := ended_below ended
      have within := execute_within setup st₀ f o
      rw [executed] at within
      obtain ⟨n, enough, count, rfl⟩ := within
      have paused := valid.1.frame.paused issued enough count
      obtain ⟨⟨raiser, last⟩, _⟩ := offered.paused paused valid.1.waiting
      obtain ⟨m, taken, _, known⟩ := last.known own
      refine ⟨raiser, region, _, own ▸ last.operation, own ▸ found, known, ?_⟩
      rw [← taken, Int64.ofNat_add]
      have same : Int64.ofNat h.stack.length + Int64.ofNat m - Int64.ofNat m =
          Int64.ofNat h.stack.length := by grind
      rw [same]
      exact short

/-- A function that raises in a region which keeps so many values. -/
def raising (kept : Int64) : Function where
  name := "f"
  version := ⟨3, 11⟩
  constants := #[.int 1]
  instructions := #[{ offset := 0, code := Opcode.loadConst.code },
    { offset := 2, code := Opcode.raiseVarargs.code, arg := 1 },
    { offset := 4, code := Opcode.returnValue.code }]
  table := [⟨2, 4, 4, kept, false⟩]

/-- Its routine. What is raised was the only value on the stack. -/
def raisingRoutine (kept maxDepth : Int64) : Routine where
  name := "f"
  maxDepth := maxDepth
  ops := #[.const (.int 1), .invoke { helper := .makeException, args := 1, results := 1 }, .throw,
    .label (-1), .label 4, .ret]
  regions := [⟨1, 3, -1, kept⟩]
  origins := #[0, 2, 2, 4, 4, 4]

/-- The machine before the exception is thrown. -/
def throwing (kept maxDepth : Int64) : Config :=
  (Config.enter bareState (raisingRoutine kept maxDepth) [] 1).later {} 2

theorem throwing_raises : Raises {} (throwing 0 1) .throw
    { (throwing 0 1).state with steps := 3 } { (throwing 0 1).frame with ip := 3 }
    { (throwing 0 1).state with steps := 3 }
    { (throwing 0 1).frame with ip := 3, stack := [] } 0 :=
  ⟨⟨rfl, rfl, rfl, rfl, rfl, rfl, rfl, rfl, rfl, rfl⟩, rfl, rfl⟩

theorem raising_lowered : ∃ l events, lower (raising 0) = (.ok l, events) ∧
    l.routine = raisingRoutine 0 1 := lowers_alike (by decide +kernel)

theorem raising_delivered : ∃ c', Goes {} (throwing 0 1) c' ∧ c'.frame.ip = 3 ∧
    c'.frame.stack = [.exception 0] := by
  obtain ⟨l, events, lowered, routine⟩ := raising_lowered
  have walked : Depths.ofRoutine (raisingRoutine 0 1) =
      .ok ⟨#[0, 1, 1, 1, 1, 1], [(-1, 1), (4, 1)], 1⟩ := by cbv
  obtain ⟨depths, found, delivers⟩ :=
    protected_raise_delivered (raising 0) l events lowered {} bareState (raisingRoutine 0 1) [] 1
  rw [routine, walked] at found
  cases found
  obtain ⟨raiser, before, target, operation, known, defined, caught, _⟩ :=
    (delivers _ (reaches_later {} _ 2)).1 _ _ _ _ _ _ _ _ ⟨1, 3, -1, 0⟩ throwing_raises
      (.here _ _) routine.symm (by rw [routine]; rfl)
  rw [routine] at operation defined
  cases operation
  cases known
  cases defined
  obtain ⟨c', goes, _, frame, _⟩ := caught (by decide)
  exact ⟨c', goes, by rw [frame], by rw [frame]; rfl⟩

/-- A region that keeps the value that is raised loses the exception. -/
theorem raising_undelivered : ∃ l events, lower (raising 1) = (.ok l, events) ∧
    l.routine = raisingRoutine 1 2 ∧
    l.routine.regionAt? 2 = some ⟨1, 3, -1, 1⟩ ∧
    Reaches {} (.enter bareState l.routine [] 1) (throwing 1 2) ∧
    ∃ st f, Machine.step {} (throwing 1 2).state (throwing 1 2).frame (throwing 1 2).waiting =
      (st, .ended f (.failed (.belowProtected 0 1 2))) := by
  obtain ⟨l, events, lowered, routine⟩ : ∃ l events, lower (raising 1) = (.ok l, events) ∧
      l.routine = raisingRoutine 1 2 := lowers_alike (by decide +kernel)
  refine ⟨l, events, lowered, routine, ?_⟩
  rw [routine]
  exact ⟨rfl, reaches_later {} _ 2, _, _, rfl⟩

end Lowering.Proofs
