import Mathlib.Data.List.Forall2
import Lowering.Listing.Build
import Lowering.Proofs.ExceptionTables

/-! Building listings. A listing is built exactly if every function has a version, offsets that increase from
zero on, opcodes that exist, and constants that hold nothing but scalars. What is built has the functions in
their order, and every instruction is found at its offset. -/

namespace Lowering.Proofs
open Listing Yaml Guest

/-- The offset of a listed instruction: where none is stated, twice the index. -/
def offsetAt (i : Nat) (listed : Listing.Instruction) : Int64 := listed.offset.getD (Int64.ofNat (2 * i))

/-- The offsets of listed instructions, the first of which has a given index. -/
def offsetsFrom (i : Nat) (listed : List Listing.Instruction) : List Int64 :=
  (listed.zipIdx i).map fun (listed, i) => offsetAt i listed

/-- The first version that is not zero. -/
def statedVersion (override own shared : Version) : Option Version :=
  [override, own, shared].find? fun v => !v.isZero

/-- The value of a constant: scalars stand for themselves, sequences for those of their items. -/
inductive Represents : Data → Value → Prop
  | null : Represents .null .none
  | bool (b : Bool) : Represents (.bool b) (.bool b)
  | int (n : Int64) : Represents (.int n) (.int n)
  | float (x : Float) : Represents (.float x) (.float x)
  | text (s : String) : Represents (.text s) (.str s)
  | sequence {items : List Data} {values : List Value} :
    List.Forall₂ Represents items values → Represents (.sequence items) (.sequence values)

/-- The opcode that a listed instruction names, however it is written. -/
def NamesOpcode (listed : Listing.Instruction) (opcode : Opcode) : Prop :=
  opcode.name = Text.capitals (Text.trim listed.op)

instance (listed : Listing.Instruction) (opcode : Opcode) : Decidable (NamesOpcode listed opcode) :=
  inferInstanceAs (Decidable (opcode.name = Text.capitals (Text.trim listed.op)))

/-- An instruction does what a listed one says. -/
structure Assembled (i : Nat) (listed : Listing.Instruction) (inst : Guest.Instruction) : Prop where
  offset : inst.offset = offsetAt i listed
  opcode : ∃ opcode, NamesOpcode listed opcode ∧ inst.code = opcode.code
  arg : inst.arg = listed.arg
  line : inst.line = listed.line

/-- A function that can be built. -/
structure Buildable (override shared : Version) (f : Listing.Function) : Prop where
  version : ∃ v, statedVersion override f.version shared = some v
  increasing : (offsetsFrom 0 f.instructions).Pairwise (· < ·)
  positive : ∀ offset ∈ offsetsFrom 0 f.instructions, 0 ≤ offset
  opcodes : ∀ listed ∈ f.instructions, ∃ opcode, NamesOpcode listed opcode
  constants : ∀ d ∈ f.constants, ∃ v, Represents d v

/-- A function is what a listed one says. -/
structure Built (override shared : Version) (f : Listing.Function) (fn : Guest.Function) : Prop where
  version : statedVersion override f.version shared = some fn.version
  instructions : List.Forall₂ (fun (listed, i) inst => Assembled i listed inst) f.instructions.zipIdx
    fn.instructions.toList
  constants : List.Forall₂ Represents f.constants fn.constants.toList
  found : ∀ offset i, fn.indexOf? offset = some i ↔
    ∃ inst, fn.instructions[i]? = some inst ∧ inst.offset = offset
  table : fn.table.Perm f.table ∧ fn.table.Pairwise (·.start ≤ ·.start)
  rest : fn.name = f.name ∧ fn.filename = f.filename ∧ fn.firstLine = f.firstLine ∧ fn.argCount = f.args ∧
    fn.names.toList = f.names ∧ fn.localNames.toList = f.locals

variable {override shared v : Version} {f : Listing.Function} {fn : Guest.Function}

private theorem exists_forall₂ {α β : Type} {R : α → β → Prop} {as : List α} :
    (∃ bs, List.Forall₂ R as bs) ↔ ∀ a ∈ as, ∃ b, R a b := by
  induction as with
  | nil => simp
  | cons a as ih =>
    rw [List.forall_mem_cons, ← ih]
    constructor
    · rintro ⟨_, ⟨⟩⟩
      next b bs first rest => exact ⟨⟨b, first⟩, bs, rest⟩
    · rintro ⟨⟨b, first⟩, bs, rest⟩
      exact ⟨b :: bs, .cons first rest⟩

private theorem map_cons_ok {ε α : Type} {a : α} {rest : Except ε (List α)} {all : List α} :
    rest.map (a :: ·) = .ok all ↔ ∃ more, rest = .ok more ∧ all = a :: more := by
  cases rest <;> simp [Except.map, eq_comm]

private theorem cons_ok {ε α : Type} {first : Except ε α} {rest : Except ε (List α)} {all : List α} :
    (first.bind fun a => rest.map (a :: ·)) = .ok all ↔
      ∃ a more, first = .ok a ∧ rest = .ok more ∧ all = a :: more := by
  cases first with
  | error => simp [Except.bind]
  | ok a => simp [Except.bind, map_cons_ok]

private theorem constantItems_cons (index : Nat) (d : Data) (rest : List Data) :
    constantItems index (d :: rest) =
      (constant index d).bind fun v => (constantItems index rest).map (v :: ·) := by
  rw [constantItems]
  cases constant index d <;> rfl

private theorem buildConstants_cons (i : Nat) (d : Data) (rest : List Data) :
    buildConstants i (d :: rest) =
      (constant i d).bind fun v => (buildConstants (i + 1) rest).map (v :: ·) := by
  rw [buildConstants]
  cases constant i d <;> rfl

mutual

private theorem constant_iff (index : Nat) :
    ∀ (d : Data) (v : Value), constant index d = .ok v ↔ Represents d v
  | .null, v => by
    rw [constant, Except.ok.injEq]
    exact ⟨fun same => same ▸ .null, fun | .null => rfl⟩
  | .bool b, v => by
    rw [constant, Except.ok.injEq]
    exact ⟨fun same => same ▸ .bool b, fun | .bool _ => rfl⟩
  | .int n, v => by
    rw [constant, Except.ok.injEq]
    exact ⟨fun same => same ▸ .int n, fun | .int _ => rfl⟩
  | .float x, v => by
    rw [constant, Except.ok.injEq]
    exact ⟨fun same => same ▸ .float x, fun | .float _ => rfl⟩
  | .text s, v => by
    rw [constant, Except.ok.injEq]
    exact ⟨fun same => same ▸ .text s, fun | .text _ => rfl⟩
  | .sequence items, v => by
    have all := constantItems_iff index items
    rw [constant]
    constructor
    · intro built
      cases found : constantItems index items with
      | error => simp [found, Except.map] at built
      | ok values =>
        rw [found] at built
        cases built
        exact .sequence ((all values).mp found)
    · rintro ⟨⟩
      next values each => rw [(all values).mpr each]; rfl
  | .natural _, v | .date _, v | .mapping _ _, v => ⟨nofun, nofun⟩

private theorem constantItems_iff (index : Nat) :
    ∀ (items : List Data) (values : List Value),
      constantItems index items = .ok values ↔ List.Forall₂ Represents items values
  | [], values => by
    rw [constantItems, Except.ok.injEq, List.forall₂_nil_left_iff, eq_comm]
  | d :: rest, values => by
    have head := constant_iff index d
    have tail := constantItems_iff index rest
    simp only [constantItems_cons, cons_ok, head, tail, List.forall₂_cons_left_iff]

end

private theorem buildConstants_iff {i : Nat} {ds : List Data} {values : List Value} :
    buildConstants i ds = .ok values ↔ List.Forall₂ Represents ds values := by
  induction ds generalizing i values with
  | nil => rw [buildConstants, Except.ok.injEq, List.forall₂_nil_left_iff, eq_comm]
  | cons d ds ih =>
    simp only [buildConstants_cons, cons_ok, constant_iff, ih, List.forall₂_cons_left_iff]

private theorem opcode?_iff {listed : Listing.Instruction} {opcode : Opcode} :
    opcode? listed.op = some opcode ↔ NamesOpcode listed opcode := by
  rw [opcode?, Opcode.ofName?, NamesOpcode]
  constructor
  · intro found
    simpa using List.find?_some found
  · intro named
    rw [← named]
    cases opcode <;> rfl

/-- The instruction that a listed one with an opcode becomes. -/
private def assembled (i : Nat) (listed : Listing.Instruction) (opcode : Opcode) : Guest.Instruction :=
  ⟨offsetAt i listed, opcode.code, listed.arg, listed.line⟩

private theorem assembled_iff {i : Nat} {listed : Listing.Instruction} {inst : Guest.Instruction} :
    Assembled i listed inst ↔ ∃ opcode, opcode? listed.op = some opcode ∧ inst = assembled i listed opcode := by
  simp only [opcode?_iff]
  constructor
  · rintro ⟨offset, ⟨opcode, names, code⟩, arg, line⟩
    refine ⟨opcode, names, ?_⟩
    rw [assembled, ← offset, ← code, ← arg, ← line]
  · rintro ⟨opcode, names, rfl⟩
    exact ⟨rfl, ⟨opcode, names, rfl⟩, rfl, rfl⟩

private theorem buildInstructions_cons (last : Int64) (i : Nat) (listed : Listing.Instruction)
    (rest : List Listing.Instruction) : buildInstructions last i (listed :: rest) =
      if offsetAt i listed ≤ last then .error (.notIncreasing (offsetAt i listed) last)
      else (opcode? listed.op).elim (.error (.unknownOpcode (offsetAt i listed) listed.op)) fun opcode =>
        (buildInstructions (offsetAt i listed) (i + 1) rest).map (assembled i listed opcode :: ·) := by
  rw [buildInstructions]
  refine if_congr Iff.rfl rfl ?_
  cases opcode? listed.op with
  | none => rfl
  | some opcode =>
    unfold assembled offsetAt
    cases buildInstructions (listed.offset.getD (Int64.ofNat (2 * i))) (i + 1) rest <;> rfl

private theorem buildInstructions_cons_ok {last : Int64} {i : Nat} {listed : Listing.Instruction}
    {rest : List Listing.Instruction} {insts : List Guest.Instruction} :
    buildInstructions last i (listed :: rest) = .ok insts ↔ last < offsetAt i listed ∧
      ∃ opcode, opcode? listed.op = some opcode ∧ ∃ more,
        buildInstructions (offsetAt i listed) (i + 1) rest = .ok more ∧
          insts = assembled i listed opcode :: more := by
  rw [buildInstructions_cons]
  by_cases late : offsetAt i listed ≤ last
  · rw [if_pos late]
    exact ⟨nofun, fun given => absurd given.1 (Int64.not_lt.mpr late)⟩
  · rw [if_neg late]
    have increases : last < offsetAt i listed := Int64.not_le.mp late
    cases opcode? listed.op <;> simp [increases, map_cons_ok]

private theorem buildInstructions_iff {last : Int64} {i : Nat} {listed : List Listing.Instruction}
    {insts : List Guest.Instruction} :
    buildInstructions last i listed = .ok insts ↔ (last :: offsetsFrom i listed).IsChain (· < ·) ∧
      List.Forall₂ (fun (listed, i) inst => Assembled i listed inst) (listed.zipIdx i) insts := by
  induction listed generalizing last i insts with
  | nil =>
    rw [buildInstructions, Except.ok.injEq, List.zipIdx_nil, List.forall₂_nil_left_iff, eq_comm]
    simp [offsetsFrom]
  | cons listed rest ih =>
    have offsets : offsetsFrom i (listed :: rest) = offsetAt i listed :: offsetsFrom (i + 1) rest := by
      simp [offsetsFrom, List.zipIdx_cons]
    simp only [buildInstructions_cons_ok, ih, offsets, List.isChain_cons_cons, List.zipIdx_cons,
      List.forall₂_cons_left_iff, assembled_iff]
    grind

private theorem chain_iff {offsets : List Int64} : ((-1) :: offsets).IsChain (· < ·) ↔
    offsets.Pairwise (· < ·) ∧ ∀ offset ∈ offsets, 0 ≤ offset := by
  have trans : Trans (α := Int64) (· < ·) (· < ·) (· < ·) := ⟨Int64.lt_trans⟩
  have positive : ∀ offset : Int64, -1 < offset ↔ 0 ≤ offset := by
    intro offset
    rw [Int64.lt_iff_toInt_lt, Int64.le_iff_toInt_le]
    exact Int.lt_iff_add_one_le
  rw [List.isChain_iff_pairwise, List.pairwise_cons]
  simp only [positive, and_comm]

private theorem statedVersion_iff {own : Version} : statedVersion override own shared = some v ↔
    chosenVersion override own shared = v ∧ v.isZero = false := by
  unfold statedVersion chosenVersion
  cases first : override.isZero <;> cases second : own.isZero <;> cases third : shared.isZero <;>
    simp [first, second, third] <;> grind

/-- The function with the instructions and the constants that were built. -/
private def composed (f : Listing.Function) (version : Version) (instructions : List Guest.Instruction)
    (constants : List Value) : Guest.Function :=
  Guest.Function.sorted
    { name := f.name, filename := f.filename, firstLine := f.firstLine, version, argCount := f.args
      instructions := instructions.toArray, constants := constants.toArray, names := f.names.toArray
      localNames := f.locals.toArray, table := f.table }

private theorem function_iff : f.build v = .ok fn ↔ v.isZero = false ∧ ∃ instructions constants,
    buildInstructions (-1) 0 f.instructions = .ok instructions ∧ buildConstants 0 f.constants = .ok constants ∧
      fn = composed f v instructions constants := by
  rw [Listing.Function.build]
  cases zero : v.isZero with
  | true => simp
  | false =>
    cases instructions : buildInstructions (-1) 0 f.instructions with
    | error => simp
    | ok =>
      cases constants : buildConstants 0 f.constants with
      | error => simp
      | ok => simp [composed, eq_comm]

private theorem buildFrom_iff {i : Nat} {fs : List Listing.Function} {fns : List Guest.Function} :
    buildFrom override shared i fs = .ok fns ↔
      List.Forall₂ (fun f fn => f.build (chosenVersion override f.version shared) = .ok fn) fs fns := by
  induction fs generalizing i fns with
  | nil => rw [buildFrom, Except.ok.injEq, List.forall₂_nil_left_iff, eq_comm]
  | cons f fs ih =>
    rw [buildFrom, List.forall₂_cons_left_iff]
    cases f.build (chosenVersion override f.version shared) <;> simp [map_cons_ok, ih]

private theorem buildable_iff : (∃ fn, f.build (chosenVersion override f.version shared) = .ok fn) ↔
    Buildable override shared f := by
  have version : (∃ v, statedVersion override f.version shared = some v) ↔
      (chosenVersion override f.version shared).isZero = false := by
    simp only [statedVersion_iff, exists_eq_left']
  have opcodes : (∃ insts, List.Forall₂ (fun (listed, i) inst => Assembled i listed inst)
      f.instructions.zipIdx insts) ↔ ∀ listed ∈ f.instructions, ∃ opcode, NamesOpcode listed opcode := by
    rw [exists_forall₂]
    constructor
    · intro each listed member
      obtain ⟨i, there⟩ := List.getElem?_of_mem member
      obtain ⟨inst, assembled⟩ := each (listed, i) (List.mk_mem_zipIdx_iff_getElem?.mpr there)
      exact assembled.opcode.imp fun _ => And.left
    · rintro named ⟨listed, i⟩ member
      obtain ⟨opcode, names⟩ := named listed (List.fst_mem_of_mem_zipIdx member)
      exact ⟨assembled i listed opcode, assembled_iff.mpr ⟨opcode, opcode?_iff.mpr names, rfl⟩⟩
  have constants : (∃ values, List.Forall₂ Represents f.constants values) ↔
      ∀ d ∈ f.constants, ∃ v, Represents d v := exists_forall₂
  simp only [function_iff, buildInstructions_iff, chain_iff, buildConstants_iff]
  constructor
  · rintro ⟨_, stated, insts, values, ⟨⟨increasing, positive⟩, each⟩, represented, _⟩
    exact ⟨version.mpr stated, increasing, positive, opcodes.mp ⟨insts, each⟩,
      constants.mp ⟨values, represented⟩⟩
  · rintro ⟨stated, increasing, positive, named, represented⟩
    obtain ⟨insts, each⟩ := opcodes.mpr named
    obtain ⟨values, all⟩ := constants.mpr represented
    exact ⟨_, version.mp stated, insts, values, ⟨⟨increasing, positive⟩, each⟩, all, rfl⟩

private theorem offsets_assembled {i : Nat} {listed : List Listing.Instruction} {insts : List Guest.Instruction}
    (each : List.Forall₂ (fun (listed, i) inst => Assembled i listed inst) (listed.zipIdx i) insts) :
    insts.map Guest.Instruction.offset = offsetsFrom i listed := by
  induction listed generalizing i insts with
  | nil =>
    obtain rfl := List.forall₂_nil_left_iff.mp each
    rfl
  | cons listed rest ih =>
    rw [List.zipIdx_cons] at each
    obtain ⟨inst, others, assembled, later, rfl⟩ := List.forall₂_cons_left_iff.mp each
    simp only [List.map_cons, ih later, offsetsFrom, List.zipIdx_cons, assembled.offset]

private theorem indexOf?_iff {insts : Array Guest.Instruction}
    (increasing : (insts.toList.map Guest.Instruction.offset).Pairwise (· < ·)) (offset : Int64) (i : Nat) :
    insts.findIdx? (·.offset == offset) = some i ↔ ∃ inst, insts[i]? = some inst ∧ inst.offset = offset := by
  rw [Array.findIdx?_eq_some_iff_getElem]
  constructor
  · rintro ⟨inside, here, _⟩
    exact ⟨insts[i], Array.getElem?_eq_getElem inside, beq_iff_eq.mp here⟩
  · rintro ⟨inst, there, rfl⟩
    obtain ⟨inside, rfl⟩ := Array.getElem?_eq_some_iff.mp there
    refine ⟨inside, beq_self_eq_true _, fun j before => ?_⟩
    have less : insts[j].offset < insts[i].offset := by
      rw [List.pairwise_map] at increasing
      exact List.pairwise_iff_getElem.mp increasing j i (before.trans inside) inside before
    simpa using Int64.ne_of_lt less

private theorem built (given : f.build (chosenVersion override f.version shared) = .ok fn) :
    Built override shared f fn := by
  obtain ⟨zero, insts, values, instructions, constants, rfl⟩ := function_iff.mp given
  obtain ⟨chain, each⟩ := buildInstructions_iff.mp instructions
  have increasing := (chain_iff.mp chain).1
  rw [← offsets_assembled each] at increasing
  exact {
    version := statedVersion_iff.mpr ⟨rfl, zero⟩
    instructions := each
    constants := buildConstants_iff.mp constants
    found := indexOf?_iff increasing
    table := ⟨sorted_perm _, sorted_pairwise _⟩
    rest := ⟨rfl, rfl, rfl, rfl, rfl, rfl⟩ }

/-- A listing is built exactly if all its functions can be, and what is built is what is listed. -/
theorem listing_builds (d : Document) (override : Version) :
    ((∃ fns, d.build override = .ok fns) ↔ ∀ f ∈ d.functions, Buildable override d.version f) ∧
      ∀ fns, d.build override = .ok fns → List.Forall₂ (Built override d.version) d.functions fns := by
  unfold Document.build
  refine ⟨?_, fun fns given => (buildFrom_iff.mp given).imp fun _ _ => built⟩
  simp only [buildFrom_iff, exists_forall₂, buildable_iff]

/-- A function without stated offsets, with a constant that nests. -/
def unspaced : Listing.Function where
  name := "f"
  constants := [.sequence [.int 1, .sequence [.text "a", .null]]]
  instructions := [{ op := "load_const" }, { op := " Return_Value ", line := 7 }]

/-- A function with a version of its own, with offsets for some of its instructions. -/
def gapped : Listing.Function where
  name := "g"
  version := ⟨3, 11⟩
  locals := ["x"]
  instructions := [{ op := "NOP", offset := some 1 }, { op := "LOAD_FAST" },
    { op := "RETURN_VALUE", offset := some 10 }]

theorem gapped_builds : ∃ f g, Document.build ⟨⟨3, 9⟩, [unspaced, gapped]⟩ .zero = .ok [f, g] ∧
    f.version = ⟨3, 9⟩ ∧ f.instructions.toList.map Guest.Instruction.offset = [0, 2] ∧
    g.version = ⟨3, 11⟩ ∧ g.instructions.toList.map Guest.Instruction.offset = [1, 2, 10] := by
  obtain ⟨builds, each⟩ := listing_builds ⟨⟨3, 9⟩, [unspaced, gapped]⟩ .zero
  have first : Buildable .zero ⟨3, 9⟩ unspaced := by
    refine ⟨⟨_, rfl⟩, ?_, ?_, ?_, ?_⟩
    · simp [offsetsFrom, offsetAt, unspaced]
    · simp [offsetsFrom, offsetAt, unspaced]
    · simp only [unspaced, List.forall_mem_cons]
      exact ⟨⟨.loadConst, by decide +kernel⟩, ⟨.returnValue, by decide +kernel⟩, nofun⟩
    · simp only [unspaced, List.forall_mem_cons]
      have inner : Represents (.sequence [.text "a", .null]) (.sequence [.str "a", .none]) :=
        .sequence (.cons (.text "a") (.cons .null .nil))
      exact ⟨⟨_, .sequence (.cons (.int 1) (.cons inner .nil))⟩, nofun⟩
  have second : Buildable .zero ⟨3, 9⟩ gapped := by
    refine ⟨⟨_, rfl⟩, ?_, ?_, ?_, nofun⟩
    · simp [offsetsFrom, offsetAt, gapped]
    · simp [offsetsFrom, offsetAt, gapped]
    · simp only [gapped, List.forall_mem_cons]
      exact ⟨⟨.nop, by decide +kernel⟩, ⟨.loadFast, by decide +kernel⟩,
        ⟨.returnValue, by decide +kernel⟩, nofun⟩
  obtain ⟨fns, given⟩ := builds.mpr (List.forall_mem_cons.mpr ⟨first, List.forall_mem_singleton.mpr second⟩)
  cases each fns given with
  | cons f rest =>
    cases rest with
    | cons g rest =>
      cases rest
      exact ⟨_, _, given, Option.some.inj f.version.symm, offsets_assembled f.instructions,
        Option.some.inj g.version.symm, offsets_assembled g.instructions⟩

end Lowering.Proofs
