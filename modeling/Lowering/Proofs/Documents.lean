import Lowering.Proofs.BinaryForm
import Lowering.Proofs.Protection

/-! Documents. A lowered function is written and read back as it was, with every operation, constant, origin and
region, whatever library does the writing, if it reads what it writes. -/

namespace Lowering.Proofs
open Artifact Host

theorem Plain.constant {h : Heap} {v : Value} (plain : Plain v) : Artifact.constant h v = v := by
  induction plain with
  | none | bool | int | float | str => rfl
  | @sequence items plain each =>
    clear plain
    rw [Artifact.constant]
    congr 1
    induction items with
    | nil => rfl
    | cons item items ih =>
      obtain ⟨first, others⟩ := List.forall_mem_cons.mp each
      rw [constantAll, first, ih others]

private theorem narrowed_widened {v : Value} (plain : Plain v) : narrowed (widened v) = v := by
  induction plain with
  | none | bool | float | str => rfl
  | int n =>
    rw [widened]
    split
    next positive =>
      have same : (UInt64.ofNat n.toInt.toNat).toInt64 = n :=
        ofNat_toNat (by rwa [Int64.le_iff_toInt_le, Int64.toInt_zero])
      rw [narrowed, same]
    · rfl
  | @sequence items plain each =>
    clear plain
    rw [widened, narrowed]
    congr 1
    induction items with
    | nil => rfl
    | cons item items ih =>
      obtain ⟨first, others⟩ := List.forall_mem_cons.mp each
      rw [widenedAll, narrowedAll, first, ih others]

/-- What can be written of an operation: its helper is known by its name, and its constant is plain or null. -/
structure Writable (o : Operation) : Prop where
  helper : ∀ inv, o = .invoke inv → Helper.ofName inv.helper.name = inv.helper
  constant : ∀ v, o = .const v → v = .null ∨ Plain v

private theorem Writable.ofConst {h : Heap} {v : Value} {origin : Int64} (plain : Plain v) :
    Op.ofOperation h (.const v) origin = { op := "Const", origin, value := v } := by
  have same := plain.constant (h := h)
  cases plain <;> simp only [Op.ofOperation, same] <;> rfl

private theorem Writable.plain {h : Heap} {o : Operation} (writable : Writable o) (origin : Int64) :
    Plain (Op.ofOperation h o origin).value := by
  cases o with
  | const v =>
    rcases writable.constant v rfl with rfl | plain
    · exact .none
    · rw [Writable.ofConst plain]
      exact plain
  | _ => exact .none

private theorem Writable.operation? {h : Heap} {o : Operation} (writable : Writable o) (origin : Int64) :
    (widenedOp (Op.ofOperation h o origin)).operation? = some o := by
  cases o with
  | const v =>
    rcases writable.constant v rfl with rfl | plain
    · rfl
    · rw [Writable.ofConst plain]
      exact congrArg (some <| Operation.const ·) (narrowed_widened plain)
  | invoke inv =>
    change some (Operation.invoke { inv with helper := .ofName inv.helper.name }) = _
    rw [writable.helper inv rfl]
  | _ => rfl

private theorem ofOperation_origin (h : Heap) (o : Operation) (origin : Int64) :
    (Op.ofOperation h o origin).origin = origin := by
  cases o with
  | const v => cases v <;> rfl
  | _ => rfl

private theorem operations_restored (h : Heap) (pairs : List (Operation × Int64))
    (writable : ∀ pair ∈ pairs, Writable pair.1) (name : String) (i : Nat) :
    Artifact.operations name i ((pairs.map fun pair => Op.ofOperation h pair.1 pair.2).map widenedOp) =
      .ok (pairs.map Prod.fst) := by
  induction pairs generalizing i with
  | nil => rfl
  | cons pair pairs ih =>
    obtain ⟨first, others⟩ := List.forall_mem_cons.mp writable
    simp only [List.map_cons, Artifact.operations, first.operation?, ih others]

/-- What can be written of a routine: every operation, with its origin. -/
structure WritableRoutine (r : Host.Routine) : Prop where
  operations : ∀ o ∈ r.ops, Writable o
  origins : r.origins.size = r.ops.size

private theorem ofLowered_ops {h : Heap} {l : Lowered} (origins : l.routine.origins.size = l.routine.ops.size) :
    (Artifact.Routine.ofLowered h l).ops = (l.routine.ops.toList.zip l.routine.origins.toList).map
      fun pair => Op.ofOperation h pair.1 pair.2 := by
  apply List.ext_getElem
  · simp [Artifact.Routine.ofLowered, origins]
  · intro i first second
    have inside : i < l.routine.origins.size := by
      simp only [Artifact.Routine.ofLowered, List.length_map, List.length_zipIdx, Array.length_toList] at first
      omega
    simp [Artifact.Routine.ofLowered, inside]

theorem WritableRoutine.restored {h : Heap} {l : Lowered} (writable : WritableRoutine l.routine) :
    (widenedRoutine (Artifact.Routine.ofLowered h l)).toRoutine = .ok l.routine := by
  have pairs := ofLowered_ops (h := h) writable.origins
  have restored := operations_restored h (l.routine.ops.toList.zip l.routine.origins.toList)
    fun pair member => writable.operations _ (Array.mem_toList_iff.mp (List.of_mem_zip member).1)
  have same : l.routine.ops.toList.length = l.routine.origins.toList.length := by simp [writable.origins]
  have origins : ((Artifact.Routine.ofLowered h l).ops.map widenedOp).map Op.origin = l.routine.origins.toList := by
    rw [pairs, List.map_map, List.map_map]
    calc _
      _ = (l.routine.ops.toList.zip l.routine.origins.toList).map Prod.snd :=
        List.map_congr_left fun pair _ => ofOperation_origin h pair.1 pair.2
      _ = l.routine.origins.toList := List.map_snd_zip (Nat.le_of_eq same.symm)
  rw [← pairs] at restored
  simp only [widenedRoutine, Artifact.Routine.toRoutine, restored, origins, List.map_fst_zip (Nat.le_of_eq same)]
  rfl

private theorem Lowers.writable {fn : Guest.Function} {l : Lowered} {plan : Guest.Plan} {bound : Array Guest.Bound}
    {analysis : Analysis.State} (lowers : Lowers fn l plan bound analysis)
    (constants : ∀ v, .const v ∈ l.routine.ops → v = .null ∨ Plain v) :
    WritableRoutine l.routine := by
  refine ⟨fun o member => ⟨?_, ?_⟩, ?_⟩
  · rintro inv rfl
    obtain ⟨needed, signature⟩ := lowers.standard member
    cases known : inv.helper <;> rw [known] at signature <;> first | rfl | cases signature
  · rintro v rfl
    exact constants v member
  · rw [lowers.routine]
    simp [Builder.build]

/-- What a library writes within its limits is read back: every routine is the one that was lowered, with all its
operations, constants, origins and regions. -/
theorem document_roundtrip {codec : Codec} {limits : Document → Prop} (faithful : Faithful codec limits)
    (h : Heap) (results : List (Option Lowered))
    (lowered : ∀ l, some l ∈ results → ∃ fn events, lower fn = (.ok l, events))
    (constants : ∀ l, some l ∈ results → ∀ v, .const v ∈ l.routine.ops → v = .null ∨ Plain v)
    (within : limits (.ofResults h results)) :
    ∃ bytes d, codec.marshal (.ofResults h results) = some bytes ∧ codec.unmarshal bytes = some d ∧
      d.routines.map Artifact.Routine.toRoutine = (results.filterMap id).map fun l => .ok l.routine := by
  obtain ⟨bytes, written, read⟩ := faithful.reads _ within
  refine ⟨bytes, _, written, read, ?_⟩
  have routines : (Document.ofResults h results).routines =
      (results.filterMap id).map (Artifact.Routine.ofLowered h) := by
    simp [Document.ofResults, List.map_filterMap]
  rw [widenedDocument, routines, List.map_map, List.map_map]
  refine List.map_congr_left fun l member => ?_
  have present : some l ∈ results := by simpa using member
  obtain ⟨fn, events, done⟩ := lowered l present
  obtain ⟨plan, bound, analysis, lowers⟩ := lower_lowers done
  exact (lowers.writable (constants l present)).restored

private theorem legible_kind (o : Operation) : Legible o.kind := by
  cases o <;> exact legible_plain (by cbv) (by cbv)

private theorem legible_helper {helper : Helper} {needed : Nat × Int64} (standard : signature? helper = some needed) :
    Legible helper.name := by
  cases helper with
  | other => cases standard
  | _ => exact legible_plain (by cbv) (by cbv)

private theorem legible_dialect (dialect : Guest.Dialect) : Legible dialect.text := by
  cases dialect <;> exact legible_plain (by cbv) (by cbv)

private theorem legible_empty : Legible "" := legible_plain rfl (by decide)

/-- The names that an operation holds. -/
def namesOf : Operation → List String
  | .loadGlobal name | .storeGlobal name => [name]
  | .invoke inv => [inv.name]
  | _ => []

private theorem compactOp {h : Heap} {o : Operation} {origin : Int64} (writable : Writable o)
    (standard : ∀ inv, o = .invoke inv → Legible inv.helper.name) (names : ∀ s ∈ namesOf o, Legible s)
    (constants : ∀ v, o = .const v → v ≠ .null → Readable constantRoom (valueItem h (h.size + 1) v)) :
    CompactOp h (Op.ofOperation h o origin) := by
  have made : ∀ {op : Op}, op.op = o.kind → Legible op.helper → Legible op.name → op.value = .none →
      CompactOp h op := by
    intro op kind helper name empty
    refine ⟨?_, empty ▸ .none, fun present => absurd empty present⟩
    simp only [List.forall_mem_cons, List.not_mem_nil, false_imp_iff, implies_true, and_true]
    exact ⟨kind ▸ legible_kind o, helper, name⟩
  cases o with
  | const v =>
    rcases writable.constant v rfl with rfl | plain
    · exact made rfl legible_empty legible_empty rfl
    · have present : v ≠ .null := by rintro rfl; cases plain
      rw [Writable.ofConst plain]
      refine ⟨?_, plain, fun _ => constants v rfl present⟩
      simp only [List.forall_mem_cons, List.not_mem_nil, false_imp_iff, implies_true, and_true]
      exact ⟨legible_kind (.const v), legible_empty, legible_empty⟩
  | invoke inv => exact made rfl (standard inv rfl) (names _ (.head _)) rfl
  | loadGlobal name | storeGlobal name => exact made rfl legible_empty (names name (.head _)) rfl
  | _ => exact made rfl legible_empty legible_empty rfl

theorem Lowers.compact {h : Heap} {fn : Guest.Function} {l : Lowered} {plan : Guest.Plan}
    {bound : Array Guest.Bound} {analysis : Analysis.State} (lowers : Lowers fn l plan bound analysis)
    (plain : ∀ v, .const v ∈ l.routine.ops → v = .null ∨ Plain v)
    (sizes : l.routine.ops.size ≤ Cbor.maxElements ∧ l.routine.regions.length ≤ Cbor.maxElements ∧
      l.regions.length ≤ Cbor.maxElements)
    (titles : ∀ s ∈ [l.routine.name, l.function.filename, l.function.version.text], Legible s)
    (names : ∀ o ∈ l.routine.ops, ∀ s ∈ namesOf o, Legible s)
    (constants : ∀ v, .const v ∈ l.routine.ops → v ≠ .null →
      Readable constantRoom (valueItem h (h.size + 1) v)) :
    CompactRoutine h (Artifact.Routine.ofLowered h l) := by
  have writable := lowers.writable plain
  refine ⟨titles, ?_, sizes.2.1, ?_, fun op member => ?_, fun handler member => ?_⟩
  · simpa [Artifact.Routine.ofLowered] using sizes.1
  · simpa [Artifact.Routine.ofLowered] using sizes.2.2
  · rw [ofLowered_ops writable.origins] at member
    obtain ⟨pair, listed, rfl⟩ := List.mem_map.mp member
    have inside : pair.1 ∈ l.routine.ops := Array.mem_toList_iff.mp (List.of_mem_zip listed).1
    refine compactOp (writable.operations _ inside) (fun inv same => ?_) (names _ inside)
      fun v same => constants v (same ▸ inside)
    obtain ⟨needed, signature⟩ := lowers.standard (same ▸ inside)
    exact legible_helper signature
  · obtain ⟨region, _, rfl⟩ := List.mem_map.mp member
    exact legible_dialect region.dialect

/-- A function that returns a nested constant when a global is missing. -/
def archived (x : Float) (s : String) : Guest.Function where
  name := "f"
  version := ⟨3, 9⟩
  constants := #[.sequence [.int (-1), .sequence [.none, .bool true, .float x], .str s]]
  names := #["g"]
  instructions := #[{ offset := 0, code := Guest.Opcode.setupFinally.code, arg := 8 },
    { offset := 2, code := Guest.Opcode.loadGlobal.code },
    { offset := 4, code := Guest.Opcode.popBlock.code },
    { offset := 6, code := Guest.Opcode.returnValue.code },
    { offset := 8, code := Guest.Opcode.popExcept.code },
    { offset := 10, code := Guest.Opcode.loadConst.code },
    { offset := 12, code := Guest.Opcode.returnValue.code }]

/-- A text with one of the characters that stray bytes are kept as. -/
def rareText : String := Text.kept ("é".push (Char.ofNat 0x10f080))

/-- The constant, up to the number that is a fraction. -/
private def nested : Value → Bool
  | .sequence [.int i, .sequence [.none, .bool b, .float _], .str s] => i == -1 && b && s == rareText
  | _ => false

private theorem nested_eq {v : Value} (same : nested v = true) :
    ∃ x, v = .sequence [.int (-1), .sequence [.none, .bool true, .float x], .str rareText] := by
  unfold nested at same
  split at same
  · simp only [Bool.and_eq_true, beq_iff_eq] at same
    obtain ⟨⟨rfl, rfl⟩, rfl⟩ := same
    exact ⟨_, rfl⟩
  · cases same

private theorem lower_archived : ∃ l events, lower (archived 0.5 rareText) = (.ok l, events) ∧
    (∀ v, .const v ∈ l.routine.ops →
      ∃ x, v = .sequence [.int (-1), .sequence [.none, .bool true, .float x], .str rareText]) ∧
    l.routine.ops.size = 24 ∧ l.routine.regions.length = 2 ∧ l.regions.length = 1 ∧
    [l.routine.name, l.function.filename, l.function.version.text] = ["f", "", "3.9"] ∧
    ∀ o ∈ l.routine.ops, ∀ s ∈ namesOf o, s = "g" ∨ s = "" := by
  have checked : lowersTo (archived 0.5 rareText) (fun _ _ _ l =>
      l.routine.constants.all nested &&
      l.routine.ops.size == 24 && l.routine.regions.length == 2 && l.regions.length == 1 &&
      [l.routine.name, l.function.filename, l.function.version.text] == ["f", "", "3.9"] &&
      l.routine.ops.all fun o => (namesOf o).all fun s => s == "g" || s == "") = true := by decide +kernel
  obtain ⟨_, _, _, l, events, prepared, finished, holds⟩ := lowersTo_spec checked
  simp only [Bool.and_eq_true, Bool.or_eq_true, beq_iff_eq, Array.all_eq_true', List.all_eq_true] at holds
  obtain ⟨⟨⟨⟨⟨constants, ops⟩, regions⟩, handlers⟩, titles⟩, names⟩ := holds
  exact ⟨l, events, lower_of_finish prepared finished, fun v member =>
    nested_eq (constants v (List.mem_filterMap.mpr ⟨.const v, Array.mem_toList_iff.mpr member, rfl⟩)),
    
    ops, regions, handlers, titles, names⟩

theorem archived_roundtrip : ∃ l events bytes d, lower (archived 0.5 rareText) = (.ok l, events) ∧
    Faithful (binary {}) (Compact {}) ∧ Compact {} (.ofResults {} [none, some l]) ∧
    (binary {}).marshal (.ofResults {} [none, some l]) = some bytes ∧
    (binary {}).unmarshal bytes = some d ∧ d.routines.map Artifact.Routine.toRoutine = [.ok l.routine] := by
  obtain ⟨l, events, lowered, constants, ops, regions, handlers, titles, names⟩ := lower_archived
  have only : ∀ other, some other ∈ [none, some l] → other = l := by simp
  have plain : ∀ v, .const v ∈ l.routine.ops → v = .null ∨ Plain v := by
    intro v member
    obtain ⟨x, rfl⟩ := constants v member
    refine .inr (.sequence fun item listed => ?_)
    simp only [List.mem_cons, List.not_mem_nil, or_false] at listed
    rcases listed with rfl | rfl | rfl
    · exact .int _
    · refine .sequence fun item listed => ?_
      simp only [List.mem_cons, List.not_mem_nil, or_false] at listed
      rcases listed with rfl | rfl | rfl
      · exact .none
      · exact .bool _
      · exact .float _
    · exact .str _
  have legible : ∀ s ∈ ["f", "", "3.9", "g"], Legible s := by
    simp only [List.forall_mem_cons, List.not_mem_nil, false_imp_iff, implies_true, and_true]
    exact ⟨legible_plain (by cbv) (by cbv), legible_empty, legible_plain (by cbv) (by cbv),
      legible_plain (by cbv) (by cbv)⟩
  have readable : ∀ x, Readable 27 (.array [.negative 0, .array [.null, .bool true, .float x],
      .text rareText]) := by
    intro x
    have inner : Readable 26 (.array [.null, .bool true, .float x]) := by
      refine .array (by simp [Cbor.maxElements]) fun item listed => ?_
      simp only [List.mem_cons, List.not_mem_nil, or_false] at listed
      rcases listed with rfl | rfl | rfl
      · exact .null
      · exact .bool _
      · exact .float _
    refine .array (by simp [Cbor.maxElements]) fun item listed => ?_
    simp only [List.mem_cons, List.not_mem_nil, or_false] at listed
    rcases listed with rfl | rfl | rfl
    · exact .negative (by decide)
    · exact inner
    · exact .text ⟨⟨_, rfl⟩, by decide +kernel⟩
  obtain ⟨plan, bound, analysis, lowers⟩ := lower_lowers lowered
  have routine : CompactRoutine {} (Artifact.Routine.ofLowered {} l) := by
    refine lowers.compact plain (by rw [ops, regions, handlers]; decide) ?_ ?_ fun v member _ => ?_
    · rw [titles]
      exact fun s member => legible s (by simp at member ⊢; tauto)
    · intro o member s listed
      rcases names o member s listed with rfl | rfl <;> exact legible _ (by simp)
    · obtain ⟨x, rfl⟩ := constants v member
      exact readable x
  have compact : Compact {} (.ofResults {} [none, some l]) := ⟨by simp [Document.ofResults, Cbor.maxElements], by
    simpa [Document.ofResults] using routine⟩
  obtain ⟨bytes, d, written, read, same⟩ := document_roundtrip (binary_faithful {}) {} [none, some l]
    (fun other member => only other member ▸ ⟨_, events, lowered⟩)
    (fun other member => only other member ▸ plain) compact
  exact ⟨l, events, bytes, d, lowered, binary_faithful {}, compact, written, read, same⟩

end Lowering.Proofs
