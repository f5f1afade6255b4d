import Mathlib.Data.List.Induction
import Mathlib.Data.List.Nodup
import Lowering.Proofs.Builders

/-! Whatever is asked of a builder, the routine that it builds tells for every operation what was in
force when this was emitted, and its regions are the largest ranges that do. -/

namespace Lowering.Proofs
open Host

/-- What can be asked of a builder. -/
inductive BuilderRequest where
  | emit (operations : List Operation)
  | setOrigin (offset : Int64)
  | protect (handler : Label) (depth : Int64)
  | unprotect
  | newLabel
  | reserveLocals (n : Int64)

namespace BuilderRequest

/-- What a builder does, and the label that it returns. -/
def perform (b : Builder) : BuilderRequest → Builder × Option Label
  | emit operations => (b.emit operations, none)
  | setOrigin offset => (b.setOrigin offset, none)
  | protect handler depth => (b.protect handler depth, none)
  | unprotect => (b.unprotect, none)
  | newLabel => (b.newLabel.2, some b.newLabel.1)
  | reserveLocals n => (b.reserveLocals n, none)

def operations : BuilderRequest → List Operation
  | emit operations => operations
  | _ => []

/-- The protection that a request puts in force. -/
def protection? : BuilderRequest → Option (Option Protection)
  | protect handler depth => some (some ⟨handler, depth⟩)
  | unprotect => some none
  | _ => none

/-- The origin that a request puts in force. -/
def origin? : BuilderRequest → Option Int64
  | setOrigin offset => some offset
  | _ => none

end BuilderRequest

/-- A builder after requests, and the labels that it returned. -/
def building (b : Builder) : List BuilderRequest → Builder × List Label
  | [] => (b, [])
  | request :: rest =>
    let after := building (request.perform b).1 rest
    (after.1, (request.perform b).2.toList ++ after.2)

def emittedBy (requests : List BuilderRequest) : List Operation :=
  requests.flatMap BuilderRequest.operations

/-- The protection in force after requests, that the last one of those that concern it put there. -/
def protectionAfter (requests : List BuilderRequest) : Option Protection :=
  (requests.reverse.findSome? BuilderRequest.protection?).getD none

def originAfter (requests : List BuilderRequest) : Int64 :=
  (requests.reverse.findSome? BuilderRequest.origin?).getD 0

/-- The operation of an index, and the requests that were made before the one that emitted it. -/
def EmittedAfter (requests : List BuilderRequest) (k : Nat) (o : Operation)
    (before : List BuilderRequest) : Prop :=
  ∃ operations after i, requests = before ++ BuilderRequest.emit operations :: after ∧
    operations[i]? = some o ∧ k = (emittedBy before).length + i

/-- The regions of a routine of some size are its largest ranges with one protection. -/
structure Coalesced (regions : List Protected) (size : Nat) : Prop where
  filled : ∀ region ∈ regions, region.start < region.stop
  within : ∀ region ∈ regions, 0 ≤ region.start ∧ region.stop ≤ Int64.ofNat size
  sorted : regions.Pairwise fun first second => first.start < second.start
  disjoint : regions.Pairwise fun first second => ∀ i, ¬ (first.covers i ∧ second.covers i)
  maximal : ∀ first ∈ regions, ∀ second ∈ regions, first.stop = second.start →
    ¬ (first.handler = second.handler ∧ first.depth = second.depth)

theorem building_append (b : Builder) (first second : List BuilderRequest) :
    building b (first ++ second) =
      ((building (building b first).1 second).1,
        (building b first).2 ++ (building (building b first).1 second).2) := by
  induction first generalizing b with
  | nil => rfl
  | cons request rest ih =>
    simp only [List.cons_append, building, ih, List.append_assoc]

theorem reserveLocals_eq (b : Builder) (n : Int64) :
    ∃ count, b.reserveLocals n = { b with localCount := count } := by
  unfold Builder.reserveLocals
  split
  · exact ⟨n, rfl⟩
  · exact ⟨b.localCount, rfl⟩

theorem perform_spec (b : Builder) (request : BuilderRequest) :
    (request.perform b).1.emitted = b.emitted ++ marked b request.operations ∧
      (request.perform b).1.protection = request.protection?.getD b.protection ∧
      (request.perform b).1.origin = request.origin?.getD b.origin := by
  cases request with
  | emit operations =>
    simp [BuilderRequest.perform, BuilderRequest.operations, BuilderRequest.protection?,
      BuilderRequest.origin?, emit_eq]
  | reserveLocals n =>
    obtain ⟨count, same⟩ := reserveLocals_eq b n
    simp [BuilderRequest.perform, BuilderRequest.operations, BuilderRequest.protection?,
      BuilderRequest.origin?, same, marked]
  | _ =>
    refine ⟨?_, rfl, rfl⟩
    simp [BuilderRequest.perform, BuilderRequest.operations, marked, Builder.setOrigin, Builder.protect,
      Builder.unprotect, Builder.newLabel]

theorem building_force (name : String) (localCount : Int64) (requests : List BuilderRequest) :
    (building (.start name localCount) requests).1.protection = protectionAfter requests ∧
      (building (.start name localCount) requests).1.origin = originAfter requests := by
  induction requests using List.reverseRecOn with
  | nil => exact ⟨rfl, rfl⟩
  | append_singleton requests request ih =>
    obtain ⟨_, protection, origin⟩ := perform_spec (building (.start name localCount) requests).1 request
    rw [building_append]
    simp only [building]
    rw [protection, origin, ih.1, ih.2]
    simp only [protectionAfter, originAfter, List.reverse_append, List.reverse_singleton,
      List.singleton_append, List.findSome?_cons]
    constructor
    · cases request.protection? <;> rfl
    · cases request.origin? <;> rfl

theorem building_operations (b : Builder) (requests : List BuilderRequest) :
    (building b requests).1.emitted.toList.map Emitted.operation =
      b.emitted.toList.map Emitted.operation ++ emittedBy requests := by
  induction requests generalizing b with
  | nil => simp [building, emittedBy]
  | cons request rest ih =>
    rw [building, ih, (perform_spec b request).1]
    simp [emittedBy, marked, Function.comp_def]

theorem building_keeps (b : Builder) (requests : List BuilderRequest) :
    b.emitted.toList <+: (building b requests).1.emitted.toList := by
  induction requests generalizing b with
  | nil => exact List.prefix_refl _
  | cons request rest ih =>
    refine List.IsPrefix.trans ?_ (ih _)
    rw [(perform_spec b request).1, Array.toList_appendList]
    exact List.prefix_append _ _

theorem building_emitted {name : String} {localCount : Int64} {requests before : List BuilderRequest}
    {k : Nat} {o : Operation} (emitted : EmittedAfter requests k o before) :
    (building (.start name localCount) requests).1.emitted[k]? =
      some ⟨o, originAfter before, protectionAfter before⟩ := by
  obtain ⟨operations, after, i, rfl, present, rfl⟩ := emitted
  obtain ⟨protection, origin⟩ := building_force name localCount before
  have count := congrArg List.length (building_operations (.start name localCount) before)
  rw [building_append, building]
  generalize (building (.start name localCount) before).1 = b at protection origin count
  have kept := building_keeps (b.emit operations) after
  obtain ⟨later, whole⟩ := kept
  have length : b.emitted.toList.length = (emittedBy before).length := by
    simpa [Builder.start] using count
  have inside := (List.getElem?_eq_some_iff.mp present).1
  rw [emit_eq, Array.toList_appendList, List.append_assoc] at whole
  simp only [BuilderRequest.perform]
  rw [← Array.getElem?_toList, emit_eq, ← whole, ← length,
    List.getElem?_append_right (Nat.le_add_right _ _), Nat.add_sub_cancel_left,
    List.getElem?_append_left (by simpa [marked] using inside), marked, List.getElem?_map, present,
    protection, origin]
  rfl

theorem emittedAfter_of_lt {requests : List BuilderRequest} {k : Nat}
    (below : k < (emittedBy requests).length) : ∃ o before, EmittedAfter requests k o before := by
  induction requests using List.reverseRecOn with
  | nil => cases below
  | append_singleton requests request ih =>
    by_cases early : k < (emittedBy requests).length
    · obtain ⟨o, before, operations, after, i, rfl, present, place⟩ := ih early
      exact ⟨o, before, operations, after ++ [request], i, by simp, present, place⟩
    · have inside : k - (emittedBy requests).length < request.operations.length := by
        simp only [emittedBy, List.flatMap_append, List.length_append, List.flatMap_cons,
          List.flatMap_nil, List.append_nil] at below early ⊢
        omega
      cases request with
      | emit operations =>
        exact ⟨_, requests, operations, [], _, rfl, List.getElem?_eq_getElem inside, by omega⟩
      | _ => cases inside

private theorem ofNat_injective {i j : Nat} (first : i < 2 ^ 64) (second : j < 2 ^ 64)
    (same : Int64.ofNat i = Int64.ofNat j) : i = j := by
  have words := congrArg Int64.toBitVec same
  simp only [Int64.toBitVec_ofNat'] at words
  have numbers := congrArg BitVec.toNat words
  rwa [BitVec.toNat_ofNat, BitVec.toNat_ofNat, Nat.mod_eq_of_lt first, Nat.mod_eq_of_lt second]
    at numbers

theorem countdown_nodup (top : Label) (n : Nat) :
    ((List.range n).map fun i => top - Int64.ofNat i).Nodup ↔ n ≤ 2 ^ 64 := by
  constructor
  · intro nodup
    by_contra many
    have length : ((List.range n).map fun i => top - Int64.ofNat i).length = n := by simp
    have again : ((List.range n).map fun i => top - Int64.ofNat i)[0] =
        ((List.range n).map fun i => top - Int64.ofNat i)[2 ^ 64] := by
      rw [List.getElem_map, List.getElem_map, List.getElem_range, List.getElem_range]
      congr 1
    have equal := nodup.getElem_inj_iff.mp again
    omega
  · intro few
    refine List.Nodup.map_on ?_ List.nodup_range
    intro i first j second same
    have first := List.mem_range.mp first
    have second := List.mem_range.mp second
    exact ofNat_injective (by omega) (by omega) ((Int64.sub_right_inj _).mp same)

theorem perform_label (b : Builder) (request : BuilderRequest) :
    ((request.perform b).2 = none ∧ (request.perform b).1.nextLabel = b.nextLabel) ∨
      ((request.perform b).2 = some b.nextLabel ∧
        (request.perform b).1.nextLabel = b.nextLabel - 1) := by
  cases request with
  | emit operations => exact .inl ⟨rfl, emit_nextLabel b operations⟩
  | reserveLocals n =>
    obtain ⟨count, same⟩ := reserveLocals_eq b n
    exact .inl ⟨rfl, by rw [BuilderRequest.perform, same]⟩
  | newLabel => exact .inr ⟨rfl, rfl⟩
  | _ => exact .inl ⟨rfl, rfl⟩

theorem building_labels (b : Builder) (requests : List BuilderRequest) :
    ∃ n, (building b requests).2 = (List.range n).map (fun i => b.nextLabel - Int64.ofNat i) ∧
      (building b requests).1.nextLabel = b.nextLabel - Int64.ofNat n := by
  induction requests using List.reverseRecOn with
  | nil => exact ⟨0, rfl, by simp [building]⟩
  | append_singleton requests request ih =>
    obtain ⟨n, labels, next⟩ := ih
    rw [building_append]
    simp only [building, List.append_nil]
    rcases perform_label (building b requests).1 request with ⟨none, kept⟩ | ⟨label, counted⟩
    · exact ⟨n, by simp [none, labels], kept.trans next⟩
    · refine ⟨n + 1, by simp [label, labels, next, List.range_succ], ?_⟩
      rw [counted, next, Int64.sub_sub, Int64.ofNat_add]
      rfl

/-- A routine tells for every operation what was in force when this was emitted. -/
structure Remembered (requests : List BuilderRequest) (r : Routine) : Prop where
  emitted : r.ops.toList = emittedBy requests
  known : ∀ k < r.ops.size, ∃ o before, EmittedAfter requests k o before
  force : ∀ {k o before}, EmittedAfter requests k o before →
    r.ops[k]? = some o ∧ r.origins[k]? = some (originAfter before) ∧
      (r.regionAt? (Int64.ofNat k)).map (fun region => (⟨region.handler, region.depth⟩ : Protection)) =
        protectionAfter before

theorem build_coalesced (b : Builder) (small : b.emitted.size < 2 ^ 63) :
    Coalesced b.build.regions b.build.ops.size := by
  obtain ⟨each, order⟩ := build_regions b small
  refine ⟨fun region member => (each region member).2.1,
    fun region member => ⟨(each region member).1, (each region member).2.2.1⟩, ?_, ?_,
    fun first one second two => build_maximal b small one two⟩
  · refine order.imp_of_mem ?_
    intro first second one _ follows
    exact Int64.lt_of_lt_of_le (each first one).2.1 follows
  · refine order.imp ?_
    rintro first second follows i ⟨one, two⟩
    simp only [Protected.covers, Bool.and_eq_true, decide_eq_true_eq] at one two
    exact Int64.lt_irrefl (Int64.lt_of_lt_of_le one.2 (Int64.le_trans follows two.1))

/-- Whatever is asked of a builder, each operation of the routine has the origin and the protection
that were in force when it was emitted, the regions are the largest ranges with one protection, and
no label is returned twice, as long as there are labels left. The indices of operations have to be
words. -/
theorem protections_coalesce (name : String) (localCount : Int64) (requests : List BuilderRequest)
    (few : (emittedBy requests).length < 2 ^ 63) :
    let (builder, labels) := building (.start name localCount) requests
    Remembered requests builder.build ∧ Coalesced builder.build.regions builder.build.ops.size ∧
      (labels.Nodup ↔ labels.length ≤ 2 ^ 64) := by
  have operations := building_operations (.start name localCount) requests
  have emitted := @building_emitted name localCount requests
  obtain ⟨n, labels, _⟩ := building_labels (.start name localCount) requests
  generalize building (.start name localCount) requests = built at operations emitted labels
  obtain ⟨builder, returned⟩ := built
  dsimp only at operations emitted labels ⊢
  have ops : builder.build.ops.toList = emittedBy requests := by
    simpa [Builder.build, Builder.start] using operations
  have size : builder.build.ops.size = (emittedBy requests).length := by
    rw [← ops, Array.length_toList]
  have small : builder.emitted.size < 2 ^ 63 := by
    rw [← size] at few
    simpa [Builder.build] using few
  refine ⟨⟨ops, fun k below => emittedAfter_of_lt (size ▸ below), fun traced => ?_⟩,
    build_coalesced builder small, ?_⟩
  · have stands := emitted traced
    exact ⟨by simp [Builder.build, stands], by simp [Builder.build, stands],
      build_regionAt? builder small stands⟩
  · rw [labels, countdown_nodup, List.length_map, List.length_range]

/-- Operations with two handlers in turn, and two labels. -/
def drops : List BuilderRequest :=
  [.setOrigin 4, .emit [.const .none], .newLabel, .protect 10 1, .emit [.dup, .pop], .setOrigin 8,
    .protect 20 1, .reserveLocals 3, .emit [.pop], .unprotect, .newLabel, .emit [.ret]]

theorem drops_coalesce :
    let (builder, labels) := building (.start "f" 1) drops
    builder.build.regions = [⟨1, 3, 10, 1⟩, ⟨3, 4, 20, 1⟩] ∧ labels = [-1, -2] ∧
      Remembered drops builder.build ∧ Coalesced builder.build.regions builder.build.ops.size ∧
        (labels.Nodup ↔ labels.length ≤ 2 ^ 64) :=
  ⟨by decide, by decide, protections_coalesce "f" 1 drops (by decide)⟩

end Lowering.Proofs
