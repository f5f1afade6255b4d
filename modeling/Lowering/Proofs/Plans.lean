import Mathlib.Algebra.GroupWithZero.Nat
import Mathlib.Data.List.Forall2
import Lowering.Lowered

/-! What holds of every function that is analysed: its instructions are bound one by one, its regions
are numbered, and every handler and every jump leads to an instruction. -/

namespace Lowering.Proofs
open Guest

/-- Every region carries its own number. -/
def Numbered (regions : List Region) : Prop :=
  regions.length ≤ addressable ∧
    ∀ (k : Nat) (r : Region), regions[k]? = some r → r.id = Int64.ofNat (k + 1)

private theorem ofNat_inj {a b : Nat} (small : a < 2 ^ 63) (also : b < 2 ^ 63)
    (same : Int64.ofNat a = Int64.ofNat b) : a = b := by
  have equal := congrArg Int64.toInt same
  rw [Int64.toInt_ofNat_of_lt small, Int64.toInt_ofNat_of_lt also] at equal
  omega

theorem regionIn?_spec {regions : List Region} (numbered : Numbered regions) {id : Int64}
    {r : Region} (found : Plan.regionIn? regions id = some r) :
    r.id = id ∧ ∃ k, regions[k]? = some r ∧ id = Int64.ofNat (k + 1) := by
  unfold Plan.regionIn? at found
  split at found
  · cases found
  · next positive =>
    have own := numbered.2 _ r found
    have above : (1 : Int) ≤ id.toInt := by
      simpa [Int64.lt_iff_toInt_lt] using positive
    have position : Int64.ofNat (id.toInt.toNat - 1 + 1) = id := by
      rw [Nat.sub_add_cancel (by omega), ← Int64.ofInt_eq_ofNat, Int.toNat_of_nonneg (by omega),
        Int64.ofInt_toInt]
    exact ⟨own.trans position, _, found, position.symm⟩

theorem regionIn?_mem {regions : List Region} {id : Int64} {r : Region}
    (found : Plan.regionIn? regions id = some r) : r ∈ regions := by
  unfold Plan.regionIn? at found
  split at found
  · cases found
  · exact List.mem_of_getElem? found

theorem regionIn?_ofNat {regions : List Region} {k : Nat} (small : k + 1 < 2 ^ 63) :
    Plan.regionIn? regions (Int64.ofNat (k + 1)) = regions[k]? := by
  have number : (Int64.ofNat (k + 1)).toInt = (k : Int) + 1 := by
    rw [Int64.toInt_ofNat_of_lt small]
    rfl
  have positive : ¬ Int64.ofNat (k + 1) < 1 := by
    rw [Int64.lt_iff_toInt_lt, number]
    simp only [Int64.reduceToInt]
    omega
  rw [Plan.regionIn?, if_neg positive, number]
  simp

theorem region?_zero (plan : Plan) : plan.region? 0 = none := by
  rw [Plan.region?, Plan.regionIn?, if_pos (by decide)]

/-- A region is found by its own number. -/
theorem Numbered.find {regions : List Region} (numbered : Numbered regions) {r : Region}
    (member : r ∈ regions) : Plan.regionIn? regions r.id = some r := by
  obtain ⟨k, found⟩ := List.mem_iff_getElem?.mp member
  have inside := (List.getElem?_eq_some_iff.mp found).1
  have small := numbered.1
  simp only [addressable] at small
  rw [numbered.2 k r found, regionIn?_ofNat (by omega), found]

/-- Regions with the same number are the same. -/
theorem Numbered.unique {regions : List Region} (numbered : Numbered regions) {r s : Region}
    (first : r ∈ regions) (second : s ∈ regions) (same : r.id = s.id) : r = s := by
  have left := numbered.find first
  rw [same, numbered.find second] at left
  exact (Option.some.inj left).symm

theorem Numbered.nodup {regions : List Region} (numbered : Numbered regions) : regions.Nodup := by
  refine List.pairwise_iff_getElem.mpr fun i j first second less same => ?_
  have small := numbered.1
  simp only [addressable] at small
  have left := numbered.2 i regions[i] (List.getElem?_eq_getElem first)
  have right := numbered.2 j regions[j] (List.getElem?_eq_getElem second)
  rw [same, right] at left
  have equal := ofNat_inj (by omega) (by omega) left
  omega

/-- A region as the plan of a function has it. -/
structure Drafted (fn : Function) (dialect : Dialect) (r : Region) : Prop where
  own : r.dialect = dialect
  handler : (fn.indexOf? r.handler).isSome
  modern : dialect = .modern → 0 ≤ r.depth
  legacy : dialect = .legacy → r.lasti = false ∧ r.scratch = Int64.ofNat fn.localCount + r.id - 1

/-- A function, its regions and its bound instructions fit together. -/
structure Planned (plan : Plan) (bound : Array Bound) : Prop where
  dialect : dialectOf? plan.function.version = some plan.dialect
  positive : 0 < plan.function.instructions.size
  small : plan.function.instructions.size ≤ addressable
  locals : plan.hostLocals ≤ addressable
  numbered : Numbered plan.regions
  regions : ∀ r ∈ plan.regions, Drafted plan.function plan.dialect r
  bound : List.Forall₂ (fun inst o => Bound.ofInstruction plan.function inst = .ok o)
    plan.function.instructions.toList bound.toList

/-- What an instruction was checked for when it was bound. -/
theorem ofInstruction_spec {fn : Function} {inst : Instruction} {o : Bound}
    (found : Bound.ofInstruction fn inst = .ok o) :
    o.inst = inst ∧ Opcode.ofCode? inst.code = some o.opcode ∧
      resolve? o.opcode fn.version = some (o.dialect, o.behavior) ∧ Bound.check fn o = none := by
  unfold Bound.ofInstruction at found
  split at found
  · cases found
  · next opcode named =>
    split at found
    · cases found
    · next dialect behavior resolved =>
      dsimp only at found
      split at found
      · cases found
      · next checked =>
        cases found
        exact ⟨rfl, named, resolved, checked⟩

theorem inRange_none {what : String} {index : Int64} {count : Nat}
    (inside : Bound.inRange what index count = none) :
    0 ≤ index.toInt ∧ index.toInt.toNat < count := by
  unfold Bound.inRange at inside
  split at inside
  · cases inside
  · next range =>
    simp only [Bool.or_eq_true, decide_eq_true_eq, not_or] at range
    omega

theorem resolve?_dialect {opcode : Opcode} {v : Version} {dialect : Dialect} {behavior : Behavior}
    (resolved : resolve? opcode v = some (dialect, behavior)) : dialectOf? v = some dialect := by
  obtain ⟨known, version, rest⟩ := Option.bind_eq_some_iff.mp resolved
  obtain ⟨rule, _, same⟩ := Option.bind_eq_some_iff.mp rest
  cases same
  exact version

/-- The behaviour of an opcode is that of a rule for the version. -/
theorem resolve?_rule {opcode : Opcode} {v : Version} {dialect : Dialect} {behavior : Behavior}
    (resolved : resolve? opcode v = some (dialect, behavior)) : ∃ rule ∈ policy,
      rule.opcode = opcode ∧ v.atLeast rule.since = true ∧
        (rule.limit.isZero = true ∨ v.atLeast rule.limit = false) ∧ behavior = rule.behavior := by
  obtain ⟨known, _, rest⟩ := Option.bind_eq_some_iff.mp resolved
  obtain ⟨rule, found, same⟩ := Option.bind_eq_some_iff.mp rest
  cases same
  have holds := List.find?_some found
  simp only [Bool.and_eq_true, beq_iff_eq, Rule.covers, Bool.or_eq_true, Bool.not_eq_true'] at holds
  exact ⟨rule, List.mem_of_find?_eq_some found, holds.1, holds.2.1, holds.2.2, rfl⟩

/-- A handler is left by dropping as many slots as its dialect has, whether it ends or raises again. -/
theorem exceptionSlots_eq {opcode : Opcode} {v : Version} {dialect : Dialect} {behavior : Behavior}
    (leaves : opcode = .popExcept ∨ opcode = .reraise)
    (resolved : resolve? opcode v = some (dialect, behavior)) :
    behavior.exceptionSlots = dialect.exceptionSlots := by
  have version := resolve?_dialect resolved
  obtain ⟨rule, listed, same, since, limit, rfl⟩ := resolve?_rule resolved
  have rules : ∀ rule ∈ policy, rule.opcode = .popExcept ∨ rule.opcode = .reraise →
      rule.since = .minimum ∧ rule.limit = .exceptionTable ∧ rule.behavior.exceptionSlots = 3 ∨
      rule.since = .exceptionTable ∧ rule.behavior.exceptionSlots = 1 := by decide
  unfold dialectOf? at version
  rcases rules rule listed (same ▸ leaves) with ⟨first, last, slots⟩ | ⟨first, slots⟩
  · rw [last] at limit
    rw [first] at since
    have legacy : v.atLeast .exceptionTable = false := limit.resolve_left (by decide)
    rw [legacy, if_neg Bool.false_ne_true, if_pos since] at version
    cases version
    exact slots
  · rw [first] at since
    rw [if_pos since] at version
    cases version
    exact slots

private theorem bindAll_forall₂ {fn : Function} {i : Nat} {instructions : List Instruction}
    {bounds : List Bound} (bound : bindAll fn i instructions = .ok bounds) :
    List.Forall₂ (fun inst o => Bound.ofInstruction fn inst = .ok o) instructions bounds := by
  induction instructions generalizing i bounds with
  | nil =>
    cases bound
    exact .nil
  | cons inst rest ih =>
    rw [bindAll] at bound
    split at bound
    · cases bound
    · next o found =>
      split at bound
      · cases bound
      · next others tail =>
        cases bound
        exact .cons found (ih tail)

private theorem bound_of_mem {fn : Function} {instructions : List Instruction} {bounds : List Bound}
    (bound : List.Forall₂ (fun inst o => Bound.ofInstruction fn inst = .ok o) instructions bounds)
    {inst : Instruction} (member : inst ∈ instructions) :
    ∃ o, Bound.ofInstruction fn inst = .ok o := by
  induction bound with
  | nil => cases member
  | cons head _ ih =>
    rcases List.mem_cons.mp member with rfl | later
    · exact ⟨_, head⟩
    · exact ih later

theorem Planned.size {plan : Plan} {bound : Array Bound} (planned : Planned plan bound) :
    bound.size = plan.function.instructions.size := by
  simpa using planned.bound.length_eq.symm

theorem Planned.bounds {plan : Plan} {bound : Array Bound} (planned : Planned plan bound) {i : Nat}
    {o : Bound} (found : bound[i]? = some o) :
    plan.function.instructions[i]? = some o.inst ∧
      Bound.ofInstruction plan.function o.inst = .ok o := by
  obtain ⟨inside, rfl⟩ := Array.getElem?_eq_some_iff.mp found
  have also : i < plan.function.instructions.size := planned.size ▸ inside
  have checked := List.forall₂_iff_get.mp planned.bound
  have made := checked.2 i (by simpa using also) (by simpa using inside)
  simp only [List.get_eq_getElem, Array.getElem_toList] at made
  have same := (ofInstruction_spec made).1
  rw [same]
  exact ⟨Array.getElem?_eq_getElem also, made⟩

private theorem legacy_regions {fn : Function} {plan : Plan}
    (drafted : Plan.ofLegacy fn = .ok plan) :
    plan.function = fn ∧ plan.dialect = .legacy ∧
      (∀ (k : Nat) (r : Region), plan.regions[k]? = some r → r.id = Int64.ofNat (k + 1)) ∧
      ∀ r ∈ plan.regions, r.dialect = .legacy ∧ r.lasti = false ∧
        r.scratch = Int64.ofNat fn.localCount + r.id - 1 ∧
        ∃ inst ∈ fn.instructions, inst.code = Opcode.setupFinally.code ∧ r.handler = inst.arg := by
  unfold Plan.ofLegacy at drafted
  split at drafted
  · cases drafted
    refine ⟨rfl, rfl, fun k r found => ?_, fun r member => ?_⟩
    · simp only [Plan.scanSetups, List.map_map, List.getElem?_map, Option.map_eq_some_iff] at found
      obtain ⟨⟨inst, i⟩, present, rfl⟩ := found
      rw [List.getElem?_zipIdx] at present
      obtain ⟨_, _, same⟩ := Option.map_eq_some_iff.mp present
      cases same
      simp
    · simp only [Plan.scanSetups, List.map_map, List.mem_map] at member
      obtain ⟨⟨inst, i⟩, present, rfl⟩ := member
      have kept := List.mem_filter.mp (List.fst_mem_of_mem_zipIdx present)
      exact ⟨rfl, rfl, rfl, inst, by simpa using kept.1, by simpa using kept.2, rfl⟩
  · cases drafted

/-- What holds of the regions while the exception table is read. -/
private def Entered (fn : Function) (regions : List Region) : Prop :=
  (∀ (k : Nat) (r : Region), regions[k]? = some r → r.id = Int64.ofNat (k + 1)) ∧
    ∀ r ∈ regions, r.dialect = .modern ∧ 0 ≤ r.depth ∧ (fn.indexOf? r.handler).isSome

private theorem addEntry_entered {fn : Function} {regions later : List Region} {e : TableEntry}
    (entered : Entered fn regions) (added : Plan.addEntry fn regions e = .ok later) :
    Entered fn later := by
  unfold Plan.addEntry at added
  split at added
  · cases added
  · next valid =>
    split at added
    · cases added
    · next target =>
      split at added
      · cases added
        refine ⟨fun k r found => ?_, fun r member => ?_⟩
        · rw [List.getElem?_append] at found
          split at found
          · exact entered.1 k r found
          · next beyond =>
            obtain ⟨position, rfl⟩ := List.getElem?_eq_some_iff.mp found
            have last : k = regions.length := by
              simp only [List.length_cons, List.length_nil] at position
              omega
            subst last
            simp [Plan.opened]
        · rcases List.mem_append.mp member with old | new
          · exact entered.2 r old
          · have same := List.mem_singleton.mp new
            simp only [Bool.or_eq_true, decide_eq_true_eq, not_or, Int64.not_lt] at valid
            subst same
            exact ⟨rfl, valid.2, by simpa [Plan.opened, Option.isSome_iff_ne_none] using target⟩
      · split at added
        · cases added
        · cases added
          refine ⟨fun k r found => ?_, fun r member => ?_⟩
          · rw [List.getElem?_map] at found
            obtain ⟨s, present, rfl⟩ := Option.map_eq_some_iff.mp found
            split <;> exact entered.1 k s present
          · obtain ⟨s, present, rfl⟩ := List.mem_map.mp member
            split <;> exact entered.2 s present

private theorem addEntries_entered {fn : Function} {regions later : List Region}
    {table : List TableEntry} (entered : Entered fn regions)
    (added : Plan.addEntries fn regions table = .ok later) : Entered fn later := by
  induction table generalizing regions with
  | nil =>
    cases added
    exact entered
  | cons e rest ih =>
    rw [Plan.addEntries] at added
    split at added
    · cases added
    · next first => exact ih (addEntry_entered entered first) added

/-- What a plan takes from an exception table. -/
theorem ofModern_spec {fn : Function} {plan : Plan} (drafted : Plan.ofModern fn = .ok plan) :
    plan.function = fn ∧ plan.dialect = .modern ∧
      Plan.addEntries fn [] fn.table = .ok plan.regions ∧
      ∀ i, plan.protecting i = ((fn.instructions[i]?).map fun inst =>
        Plan.innermost plan.regions inst.offset (-1) 0 fn.table).getD 0 := by
  unfold Plan.ofModern at drafted
  split at drafted
  · cases drafted
  · next added =>
    cases drafted
    exact ⟨rfl, rfl, added, fun i => by simp [Plan.protecting, List.getD_eq_getElem?_getD]⟩

/-- The number that an entry gives what it protects: that of the region of its target. -/
def entryNumber (regions : List Region) (e : TableEntry) : Int64 :=
  ((regions.find? (·.handler == e.target)).map Region.id).getD 0

theorem entryNumber_named {regions : List Region} {e : TableEntry} (named : entryNumber regions e ≠ 0) :
    ∃ r ∈ regions, r.id = entryNumber regions e ∧ r.handler = e.target := by
  unfold entryNumber at named ⊢
  cases found : regions.find? (·.handler == e.target) with
  | none => simp [found] at named
  | some r =>
    have same := List.find?_some found
    exact ⟨r, List.mem_of_find?_eq_some found, rfl, by simpa using same⟩

theorem innermost_entry (regions : List Region) (offset width found : Int64) (table : List TableEntry) :
    Plan.innermost regions offset width found table = found ∨
    ∃ e ∈ table, e.contains offset = true ∧
      Plan.innermost regions offset width found table = entryNumber regions e := by
  induction table generalizing width found with
  | nil => exact .inl rfl
  | cons e rest ih =>
    rw [Plan.innermost]
    split
    next narrower =>
      rw [Bool.and_eq_true] at narrower
      rcases ih e.width (entryNumber regions e) with same | ⟨other, member, contains, named⟩
      · exact .inr ⟨e, List.mem_cons_self, narrower.1, same⟩
      · exact .inr ⟨other, List.mem_cons_of_mem _ member, contains, named⟩
    next =>
      rcases ih width found with same | ⟨other, member, contains, named⟩
      · exact .inl same
      · exact .inr ⟨other, List.mem_cons_of_mem _ member, contains, named⟩

/-- An instruction that is protected is contained in an entry for the handler. -/
theorem ofModern_protects {fn : Function} {plan : Plan} (drafted : Plan.ofModern fn = .ok plan) {i : Nat}
    (protected_ : plan.protecting i ≠ 0) : ∃ inst e r, fn.instructions[i]? = some inst ∧ e ∈ fn.table ∧
      e.contains inst.offset = true ∧ r ∈ plan.regions ∧ r.id = plan.protecting i ∧
      r.handler = e.target := by
  obtain ⟨_, _, _, protecting⟩ := ofModern_spec drafted
  rw [protecting] at protected_ ⊢
  cases found : fn.instructions[i]? with
  | none => simp [found] at protected_
  | some inst =>
    simp only [found, Option.map_some, Option.getD_some] at protected_ ⊢
    rcases innermost_entry plan.regions inst.offset (-1) 0 fn.table with zero | ⟨e, member, contains, named⟩
    · exact absurd zero protected_
    · rw [named] at protected_ ⊢
      obtain ⟨r, listed, same, handler⟩ := entryNumber_named protected_
      exact ⟨inst, e, r, rfl, member, contains, listed, same, handler⟩

private theorem modern_regions {fn : Function} {plan : Plan}
    (drafted : Plan.ofModern fn = .ok plan) :
    plan.function = fn ∧ plan.dialect = .modern ∧ Entered fn plan.regions := by
  obtain ⟨function, dialect, added, _⟩ := ofModern_spec drafted
  exact ⟨function, dialect, addEntries_entered ⟨by simp, by simp⟩ added⟩

/-- The operand of an instruction that jumps leads somewhere. -/
theorem jumps_somewhere {fn : Function} {o : Bound} (checked : Bound.check fn o = none)
    (jumps : o.opcode.jumps = true) : (fn.indexOf? o.arg).isSome := by
  unfold Bound.check at checked
  split at checked
  · cases checked
  · next target => simpa [jumps, Option.isSome_iff_ne_none] using target

/-- A function that has been checked and can be analysed. -/
structure Ready (fn : Function) (plan : Plan) (bound : Array Bound) : Prop where
  drafted : Plan.ofFunction fn = .ok plan
  present : fn.instructions.isEmpty = false
  fitting : fits fn plan = true
  bindings : bindAll fn 0 fn.instructions.toList = .ok bound.toList

theorem prepare_ready {fn : Function} {plan : Plan} {bound : Array Bound}
    {analysis : Analysis.State} (prepared : prepare fn = .ok (plan, bound, analysis)) :
    Ready fn plan bound ∧ Analysis.analyze plan bound = .ok analysis := by
  unfold prepare at prepared
  split at prepared
  · cases prepared
  · next drafted =>
    split at prepared
    · cases prepared
    · next present =>
      split at prepared
      · cases prepared
      · next fitting =>
        split at prepared
        · cases prepared
        · next bounds bind =>
          split at prepared
          · cases prepared
          · next analysed =>
            cases prepared
            exact ⟨⟨drafted, by simpa using present, by simpa using fitting, by simpa using bind⟩,
              analysed⟩

theorem prepare_drafted {fn : Function} {plan : Plan} {bound : Array Bound}
    {analysis : Analysis.State} (prepared : prepare fn = .ok (plan, bound, analysis)) :
    Plan.ofFunction fn = .ok plan :=
  (prepare_ready prepared).1.drafted

/-- A modern function that was prepared was planned by its exception table. -/
theorem prepare_tabled {fn : Function} {plan : Plan} {bound : Array Bound} {analysis : Analysis.State}
    (prepared : prepare fn = .ok (plan, bound, analysis)) (modern : plan.dialect = .modern) :
    Plan.ofModern fn = .ok plan := by
  have drafted := prepare_drafted prepared
  unfold Plan.ofFunction at drafted
  split at drafted
  · cases drafted
  · rw [(legacy_regions drafted).2.1] at modern
    cases modern
  · exact drafted

/-- A function that is ready is planned. -/
theorem Ready.planned {fn : Function} {plan : Plan} {bound : Array Bound}
    (ready : Ready fn plan bound) : plan.function = fn ∧ Planned plan bound := by
  have drafted := ready.drafted
  have bindings := bindAll_forall₂ ready.bindings
  have fitting := ready.fitting
  simp only [fits, Bool.and_eq_true, decide_eq_true_eq] at fitting
  have positive : 0 < fn.instructions.size := by
    simpa [Array.isEmpty, Nat.pos_iff_ne_zero] using ready.present
  unfold Plan.ofFunction at drafted
  split at drafted
  · cases drafted
  · next version =>
    obtain ⟨rfl, dialect, numbers, regions⟩ := legacy_regions drafted
    refine ⟨rfl, dialect ▸ version, positive, fitting.1.1, fitting.1.2,
      ⟨fitting.2, numbers⟩, fun r member => ?_, bindings⟩
    obtain ⟨own, lasti, scratch, inst, listed, code, handler⟩ := regions r member
    refine ⟨dialect ▸ own, ?_, fun modern => ?_, fun _ => ⟨lasti, scratch⟩⟩
    · obtain ⟨o, made⟩ := bound_of_mem bindings (by simpa using listed)
      obtain ⟨same, named, _, checked⟩ := ofInstruction_spec made
      have opcode : o.opcode = .setupFinally := by
        rw [code] at named
        exact (Option.some.inj named).symm
      rw [handler, ← same]
      exact jumps_somewhere checked (by rw [opcode]; rfl)
    · rw [dialect] at modern
      cases modern
  · next version =>
    obtain ⟨rfl, dialect, numbers, regions⟩ := modern_regions drafted
    refine ⟨rfl, dialect ▸ version, positive, fitting.1.1, fitting.1.2,
      ⟨fitting.2, numbers⟩, fun r member => ?_, bindings⟩
    obtain ⟨own, depth, handler⟩ := regions r member
    refine ⟨dialect ▸ own, handler, fun _ => depth, fun legacy => ?_⟩
    rw [dialect] at legacy
    cases legacy

/-- A function that was prepared is planned. -/
theorem prepare_planned {fn : Function} {plan : Plan} {bound : Array Bound}
    {analysis : Analysis.State} (prepared : prepare fn = .ok (plan, bound, analysis)) :
    plan.function = fn ∧ Planned plan bound ∧ Analysis.analyze plan bound = .ok analysis := by
  obtain ⟨ready, analysed⟩ := prepare_ready prepared
  obtain ⟨same, planned⟩ := ready.planned
  exact ⟨same, planned, analysed⟩

theorem ok_of_toOption {ε α : Type} {e : Except ε α} {a : α} (given : e.toOption = some a) : e = .ok a := by
  cases e with
  | error => cases given
  | ok => exact congrArg Except.ok (Option.some.inj given)

/-- What is made of a function before anything is emitted passes a test. -/
def preparesTo (fn : Function) (test : Plan → Array Bound → Analysis.State → Bool) : Bool :=
  match prepare fn with
  | .ok (plan, bound, analysis) => test plan bound analysis
  | .error _ => false

theorem preparesTo_spec {fn : Function} {test : Plan → Array Bound → Analysis.State → Bool}
    (holds : preparesTo fn test = true) : ∃ plan bound analysis,
      prepare fn = .ok (plan, bound, analysis) ∧ test plan bound analysis = true := by
  unfold preparesTo at holds
  split at holds
  next plan bound analysis prepared => exact ⟨plan, bound, analysis, prepared, holds⟩
  next => cases holds

end Lowering.Proofs
