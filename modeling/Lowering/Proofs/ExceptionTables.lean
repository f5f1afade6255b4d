import Mathlib
import Lowering.Proofs.Plans

/-! Loading of exception tables. The entries are grouped by their targets: a region spans all entries of its
target, and the regions are numbered in the order in which the targets first occur. An instruction is
protected by the region of the narrowest entry around it, of equally narrow ones the one that starts
first, so that the order in which a table lists its entries does not matter. -/

namespace Lowering.Proofs
open Guest

variable {fn : Function} {table done rest : List TableEntry} {regions more : List Region}

/-- The number of offsets from the start of an entry to its end. -/
def span (e : TableEntry) : Int := e.stop.toInt - e.start.toInt

/-- An entry that a table may have: it protects something, and its handler is an instruction. -/
structure Admissible (fn : Function) (e : TableEntry) : Prop where
  order : e.start < e.stop
  depth : 0 ≤ e.depth
  target : ∃ inst ∈ fn.instructions, inst.offset = e.target

/-- Entries of the same target ask for the same stack. -/
def Concordant (table : List TableEntry) : Prop :=
  ∀ e ∈ table, ∀ e' ∈ table, e.target = e'.target → e.depth = e'.depth ∧ e.lasti = e'.lasti

/-- Entries of different targets have different ranges. -/
def Discernible (table : List TableEntry) : Prop :=
  ∀ e ∈ table, ∀ e' ∈ table, e.target ≠ e'.target → e.start ≠ e'.start ∨ e.stop ≠ e'.stop

private theorem indexOf?_isSome {offset : Int64} :
    (fn.indexOf? offset).isSome ↔ ∃ inst ∈ fn.instructions, inst.offset = offset := by
  simp only [Function.indexOf?, Array.findIdx?_isSome, Array.any_eq_true', beq_iff_eq]

private theorem eraseDups_length_le (targets : List Int64) :
    targets.eraseDups.length ≤ targets.length := by
  match targets with
  | [] => simp
  | target :: others =>
    rw [List.eraseDups_cons, List.length_cons, List.length_cons]
    have fewer := List.length_filter_le (fun other => !other == target) others
    exact Nat.succ_le_succ (Nat.le_trans (eraseDups_length_le _) fewer)
termination_by targets.length
decreasing_by exact Nat.lt_succ_of_le (List.length_filter_le _ _)

private theorem handler_of_find {target : Int64} {r : Region}
    (found : regions.find? (·.handler == target) = some r) : r ∈ regions ∧ r.handler = target := by
  have same := List.find?_some found
  exact ⟨List.mem_of_find?_eq_some found, beq_iff_eq.mp same⟩

/-- A region spans the entries of its target, and asks for the same stack as they do. -/
structure Envelops (table : List TableEntry) (r : Region) : Prop where
  first : ∃ e ∈ table, e.target = r.handler ∧ e.start = r.start
  least : ∀ e ∈ table, e.target = r.handler → r.start ≤ e.start
  last : ∃ e ∈ table, e.target = r.handler ∧ e.stop = r.stop
  greatest : ∀ e ∈ table, e.target = r.handler → e.stop ≤ r.stop
  marks : ∀ e ∈ table, e.target = r.handler → e.depth = r.depth ∧ e.lasti = r.lasti

private theorem Envelops.perm {table' : List TableEntry} {r : Region} (covers : Envelops table r)
    (perm : table'.Perm table) : Envelops table' r := by
  obtain ⟨first, least, last, greatest, marks⟩ := covers
  constructor <;> simpa only [perm.mem_iff]

/-- The regions of a table: one for each target, numbered in the order of the first occurrences. -/
structure Grouped (table : List TableEntry) (regions : List Region) : Prop where
  handlers : regions.map Region.handler = (table.map TableEntry.target).eraseDups
  numbers : ∀ (k : Nat) (r : Region), regions[k]? = some r → r.id = Int64.ofNat (k + 1)
  covers : ∀ r ∈ regions, Envelops table r

private theorem Grouped.nil : Grouped [] [] := ⟨rfl, by simp, by simp⟩

private theorem Grouped.listed (grouped : Grouped done regions) {target : Int64} :
    (∃ r ∈ regions, r.handler = target) ↔ ∃ e ∈ done, e.target = target := by
  have same : target ∈ regions.map Region.handler ↔ target ∈ done.map TableEntry.target := by
    rw [grouped.handlers, List.mem_eraseDups]
  simpa only [List.mem_map] using same

private theorem Envelops.pass {r : Region} (covers : Envelops done r) {e : TableEntry}
    (other : e.target ≠ r.handler) : Envelops (done ++ [e]) r := by
  have own : ∀ e' ∈ done ++ [e], e'.target = r.handler → e' ∈ done := by
    intro e' member same
    rcases List.mem_append.mp member with old | new
    · exact old
    · exact absurd (List.mem_singleton.mp new ▸ same) other
  obtain ⟨first, start, begins⟩ := covers.first
  obtain ⟨last, stop, ends⟩ := covers.last
  exact ⟨⟨first, List.mem_append_left _ start, begins⟩,
    fun e' member same => covers.least e' (own e' member same) same,
    ⟨last, List.mem_append_left _ stop, ends⟩,
    fun e' member same => covers.greatest e' (own e' member same) same,
    fun e' member same => covers.marks e' (own e' member same) same⟩

private theorem Envelops.stretch {r : Region} (covers : Envelops done r) {e : TableEntry}
    (own : e.target = r.handler) (marks : e.depth = r.depth ∧ e.lasti = r.lasti) :
    Envelops (done ++ [e]) (Plan.stretch r e) := by
  obtain ⟨first, start, target, begins⟩ := covers.first
  obtain ⟨last, stop, also, ends⟩ := covers.last
  have added : e ∈ done ++ [e] := by simp
  refine ⟨?_, fun e' member same => ?_, ?_, fun e' member same => ?_, fun e' member same => ?_⟩
  · simp only [Plan.stretch]
    split
    · exact ⟨e, added, own, rfl⟩
    · exact ⟨first, List.mem_append_left _ start, target, begins⟩
  · have before := covers.least e'
    simp only [Plan.stretch, Int64.le_iff_toInt_le, Int64.lt_iff_toInt_lt] at before ⊢
    rcases List.mem_append.mp member with old | new
    · have := before old same
      split <;> omega
    · cases List.mem_singleton.mp new
      split <;> omega
  · simp only [Plan.stretch]
    split
    · exact ⟨e, added, own, rfl⟩
    · exact ⟨last, List.mem_append_left _ stop, also, ends⟩
  · have before := covers.greatest e'
    simp only [Plan.stretch, Int64.le_iff_toInt_le, Int64.lt_iff_toInt_lt] at before ⊢
    rcases List.mem_append.mp member with old | new
    · have := before old same
      split <;> omega
    · cases List.mem_singleton.mp new
      split <;> omega
  · rcases List.mem_append.mp member with old | new
    · exact covers.marks e' old same
    · cases List.mem_singleton.mp new
      exact marks

private theorem Envelops.opened {e : TableEntry} (first : ∀ e' ∈ done, e'.target ≠ e.target)
    (id : Int64) : Envelops (done ++ [e]) (Plan.opened e id) := by
  have own : ∀ e' ∈ done ++ [e], e'.target = e.target → e' = e := by
    intro e' member same
    rcases List.mem_append.mp member with old | new
    · exact absurd same (first e' old)
    · exact List.mem_singleton.mp new
  have added : e ∈ done ++ [e] := by simp
  refine ⟨⟨e, added, rfl, rfl⟩, fun e' member same => ?_, ⟨e, added, rfl, rfl⟩,
    fun e' member same => ?_, fun e' member same => ?_⟩
  · exact own e' member same ▸ Int64.le_refl _
  · exact own e' member same ▸ Int64.le_refl _
  · exact own e' member same ▸ ⟨rfl, rfl⟩

private theorem Grouped.open (grouped : Grouped done regions) {e : TableEntry}
    (first : ∀ r ∈ regions, r.handler ≠ e.target) :
    Grouped (done ++ [e]) (regions ++ [Plan.opened e (Int64.ofNat (regions.length + 1))]) := by
  have fresh : ∀ e' ∈ done, e'.target ≠ e.target := fun e' member same =>
    have ⟨r, present, handler⟩ := grouped.listed.mpr ⟨e', member, same⟩
    first r present handler
  refine ⟨?_, fun k r found => ?_, fun r member => ?_⟩
  · have absent : e.target ∉ done.map TableEntry.target := by
      simpa only [List.mem_map, not_exists, not_and] using fresh
    have kept : [e.target].removeAll (done.map TableEntry.target) = [e.target] := by
      rw [List.removeAll, List.filter_cons_of_pos (by simpa using absent), List.filter_nil]
    rw [List.map_append, List.map_append, List.map_singleton, List.map_singleton,
      List.eraseDups_append, kept, grouped.handlers]
    rfl
  · rw [List.getElem?_append] at found
    split at found
    · exact grouped.numbers k r found
    · next beyond =>
      obtain ⟨position, rfl⟩ := List.getElem?_eq_some_iff.mp found
      have last : k = regions.length := by
        simp only [List.length_cons, List.length_nil] at position
        omega
      subst last
      simp [Plan.opened]
  · rcases List.mem_append.mp member with old | new
    · exact (grouped.covers r old).pass (first r old).symm
    · exact List.mem_singleton.mp new ▸ .opened fresh _

private theorem Grouped.join (grouped : Grouped done regions) {e : TableEntry}
    (known : ∃ r ∈ regions, r.handler = e.target)
    (marks : ∀ r ∈ regions, r.handler = e.target → e.depth = r.depth ∧ e.lasti = r.lasti) :
    Grouped (done ++ [e])
      (regions.map fun r => if r.handler == e.target then Plan.stretch r e else r) := by
  refine ⟨?_, fun k r found => ?_, fun r member => ?_⟩
  · have present : e.target ∈ done.map TableEntry.target := by
      simpa only [List.mem_map] using grouped.listed.mp known
    have same : (Region.handler ∘ fun r => if r.handler == e.target then Plan.stretch r e else r) =
        Region.handler := by
      funext r
      simp only [Function.comp_apply]
      split <;> rfl
    have dropped : [e.target].removeAll (done.map TableEntry.target) = [] := by
      rw [List.removeAll, List.filter_cons_of_neg (by simpa using present), List.filter_nil]
    rw [List.map_map, same, List.map_append, List.map_singleton, List.eraseDups_append, dropped,
      List.eraseDups_nil, List.append_nil, grouped.handlers]
  · rw [List.getElem?_map] at found
    obtain ⟨s, present, rfl⟩ := Option.map_eq_some_iff.mp found
    split <;> exact grouped.numbers k s present
  · obtain ⟨s, present, rfl⟩ := List.mem_map.mp member
    split
    · next own =>
      have own := eq_of_beq own
      exact (grouped.covers s present).stretch own.symm (marks s present own)
    · next other => exact (grouped.covers s present).pass fun same => other (beq_iff_eq.mpr same.symm)

private theorem addEntry_grouped (grouped : Grouped done regions) {e : TableEntry}
    (added : Plan.addEntry fn regions e = .ok more) : Grouped (done ++ [e]) more ∧ Admissible fn e := by
  unfold Plan.addEntry at added
  split at added
  · cases added
  · next valid =>
    simp only [Bool.or_eq_true, decide_eq_true_eq, not_or, Int64.not_le, Int64.not_lt] at valid
    split at added
    · cases added
    · next target =>
      have admissible : Admissible fn e :=
        ⟨valid.1, valid.2, indexOf?_isSome.mp (by simpa [Option.isSome_iff_ne_none] using target)⟩
      split at added
      · next unknown =>
        cases added
        exact ⟨grouped.open (by simpa using List.find?_eq_none.mp unknown), admissible⟩
      · next s found =>
        split at added
        · cases added
        · next agree =>
          cases added
          simp only [ne_eq, Bool.or_eq_true, decide_eq_true_eq, not_or, not_not] at agree
          obtain ⟨present, own⟩ := handler_of_find found
          refine ⟨grouped.join ⟨s, present, own⟩ fun r member same => ?_, admissible⟩
          -- All regions of a target are alike, as the entries of it that were read are.
          obtain ⟨e', before, target, -⟩ := (grouped.covers s present).first
          have left := (grouped.covers s present).marks e' before target
          have right := (grouped.covers r member).marks e' before (target.trans (own.trans same.symm))
          exact ⟨agree.1.symm.trans (left.1.symm.trans right.1),
            agree.2.symm.trans (left.2.symm.trans right.2)⟩

private theorem addEntry_succeeds (grouped : Grouped done regions) {e : TableEntry}
    (admissible : Admissible fn e)
    (agrees : ∀ e' ∈ done, e'.target = e.target → e'.depth = e.depth ∧ e'.lasti = e.lasti) :
    ∃ more, Plan.addEntry fn regions e = .ok more := by
  obtain ⟨order, depth, target⟩ := admissible
  have valid : ¬ (decide (e.stop ≤ e.start) || decide (e.depth < 0)) = true := by
    simpa [Int64.not_le, Int64.not_lt] using And.intro order depth
  have somewhere : (fn.indexOf? e.target).isNone = false := by
    simpa using indexOf?_isSome.mpr target
  unfold Plan.addEntry
  rw [if_neg valid, somewhere, if_neg Bool.false_ne_true]
  split
  · exact ⟨_, rfl⟩
  · next r found =>
    obtain ⟨present, own⟩ := handler_of_find found
    obtain ⟨e', before, same, -⟩ := (grouped.covers r present).first
    have marks := (grouped.covers r present).marks e' before same
    have agree := agrees e' before (same.trans own)
    have alike : r.depth = e.depth ∧ r.lasti = e.lasti :=
      ⟨marks.1.symm.trans agree.1, marks.2.symm.trans agree.2⟩
    rw [if_neg (by simp [alike])]
    exact ⟨_, rfl⟩

private theorem addEntries_grouped (grouped : Grouped done regions)
    (added : Plan.addEntries fn regions rest = .ok more) :
    Grouped (done ++ rest) more ∧ ∀ e ∈ rest, Admissible fn e := by
  induction rest generalizing done regions with
  | nil =>
    cases added
    exact ⟨by simpa using grouped, by simp⟩
  | cons e rest ih =>
    rw [Plan.addEntries] at added
    split at added
    · cases added
    · next first =>
      obtain ⟨joined, admissible⟩ := addEntry_grouped grouped first
      obtain ⟨all, others⟩ := ih joined added
      exact ⟨by simpa using all, List.forall_mem_cons.mpr ⟨admissible, others⟩⟩

private theorem addEntries_succeeds (grouped : Grouped done regions)
    (admissible : ∀ e ∈ rest, Admissible fn e) (agreeing : Concordant (done ++ rest)) :
    ∃ more, Plan.addEntries fn regions rest = .ok more := by
  induction rest generalizing done regions with
  | nil => exact ⟨regions, rfl⟩
  | cons e rest ih =>
    obtain ⟨joined, added⟩ := addEntry_succeeds grouped (admissible e (by simp))
      fun e' before same => agreeing e' (by simp [before]) e (by simp) same
    rw [Plan.addEntries, added]
    exact ih (addEntry_grouped grouped added).1 (fun e' member => admissible e' (by simp [member]))
      (by simpa using agreeing)

private theorem Grouped.agreeing (grouped : Grouped table regions) : Concordant table := by
  intro e member e' also same
  obtain ⟨r, present, own⟩ := grouped.listed.mpr ⟨e, member, rfl⟩
  have left := (grouped.covers r present).marks e member own.symm
  have right := (grouped.covers r present).marks e' also (same.symm.trans own.symm)
  exact ⟨left.1.trans right.1.symm, left.2.trans right.2.symm⟩

private theorem Grouped.find (grouped : Grouped table regions) (small : table.length < 2 ^ 63)
    {e : TableEntry} (member : e ∈ table) : ∃ r ∈ regions, r.handler = e.target ∧
      entryNumber regions e = r.id ∧ Plan.regionIn? regions r.id = some r := by
  obtain ⟨s, listed, same⟩ := grouped.listed.mpr ⟨e, member, rfl⟩
  have some : (regions.find? (·.handler == e.target)).isSome :=
    List.find?_isSome.mpr ⟨s, listed, beq_iff_eq.mpr same⟩
  obtain ⟨r, found⟩ := Option.isSome_iff_exists.mp some
  obtain ⟨present, own⟩ := handler_of_find found
  obtain ⟨k, position⟩ := List.mem_iff_getElem?.mp present
  have count : regions.length ≤ table.length := by
    have erased := congrArg List.length grouped.handlers
    have fewer := eraseDups_length_le (table.map TableEntry.target)
    simp only [List.length_map] at erased fewer
    omega
  have inside := (List.getElem?_eq_some_iff.mp position).1
  refine ⟨r, present, own, by rw [entryNumber, found, Option.map_some, Option.getD_some], ?_⟩
  rw [grouped.numbers k r position, regionIn?_ofNat (by omega), position]

/-- The narrowest entry around an offset, and of equally narrow ones the one that starts first. -/
structure Innermost (table : List TableEntry) (offset : Int64) (e : TableEntry) : Prop where
  member : e ∈ table
  around : e.contains offset = true
  narrowest : ∀ e' ∈ table, e'.contains offset = true → span e ≤ span e'
  first : ∀ e' ∈ table, e'.contains offset = true → span e' = span e → e.start ≤ e'.start

theorem Innermost.perm {table' : List TableEntry} {offset : Int64} {e : TableEntry}
    (innermost : Innermost table offset e) (perm : table'.Perm table) : Innermost table' offset e :=
  ⟨perm.mem_iff.mpr innermost.member, innermost.around,
    fun e' member => innermost.narrowest e' (perm.mem_iff.mp member),
    fun e' member => innermost.first e' (perm.mem_iff.mp member)⟩

private theorem Innermost.range {offset : Int64} {e e' : TableEntry}
    (left : Innermost table offset e) (right : Innermost table offset e') :
    e.start = e'.start ∧ e.stop = e'.stop := by
  have narrow : span e = span e' := Int.le_antisymm (left.narrowest e' right.member right.around)
    (right.narrowest e left.member left.around)
  have start : e.start = e'.start := Int64.le_antisymm
    (left.first e' right.member right.around narrow.symm)
    (right.first e left.member left.around narrow)
  refine ⟨start, Int64.toInt_inj.mp ?_⟩
  have first := congrArg Int64.toInt start
  unfold span at narrow
  omega

private theorem width_toInt {e : TableEntry} (order : e.start < e.stop) (narrow : span e < 2 ^ 63) :
    e.width.toInt = span e := by
  have positive := Int64.lt_iff_toInt_lt.mp order
  unfold span at narrow ⊢
  rw [TableEntry.width, Int64.toInt_sub, Int.bmod_eq_of_le (by omega) (by omega)]

/-- What the search for the narrowest entry around an offset has found among the entries so far. -/
private inductive Narrowed (regions : List Region) (offset : Int64) (done : List TableEntry) :
    Int64 → Int64 → Prop
  | none (outside : ∀ e ∈ done, e.contains offset = false) : Narrowed regions offset done (-1) 0
  | some {e : TableEntry} (innermost : Innermost done offset e) :
    Narrowed regions offset done e.width (entryNumber regions e)

private theorem Innermost.pass {offset : Int64} {e further : TableEntry}
    (innermost : Innermost done offset e) (later : e.start ≤ further.start)
    (wider : further.contains offset = true → span e ≤ span further) :
    Innermost (done ++ [further]) offset e := by
  refine ⟨List.mem_append_left _ innermost.member, innermost.around, fun e' member around => ?_,
    fun e' member around same => ?_⟩
  · rcases List.mem_append.mp member with old | new
    · exact innermost.narrowest e' old around
    · cases List.mem_singleton.mp new
      exact wider around
  · rcases List.mem_append.mp member with old | new
    · exact innermost.first e' old around same
    · cases List.mem_singleton.mp new
      exact later

private theorem Innermost.found {offset : Int64} {further : TableEntry}
    (around : further.contains offset = true)
    (narrower : ∀ e ∈ done, e.contains offset = true → span further < span e) :
    Innermost (done ++ [further]) offset further := by
  refine ⟨by simp, around, fun e' member inside => ?_, fun e' member inside same => ?_⟩
  · rcases List.mem_append.mp member with old | new
    · exact Int.le_of_lt (narrower e' old inside)
    · exact List.mem_singleton.mp new ▸ Int.le_refl _
  · rcases List.mem_append.mp member with old | new
    · exact absurd same.symm (Int.ne_of_lt (narrower e' old inside))
    · exact List.mem_singleton.mp new ▸ Int64.le_refl _

private theorem innermost_narrowed {offset width found : Int64}
    (widths : ∀ e ∈ done ++ rest, e.width.toInt = span e ∧ 0 < span e)
    (sorted : (done ++ rest).Pairwise fun e e' => e.start ≤ e'.start)
    (narrowed : Narrowed regions offset done width found) :
    ∃ least, Narrowed regions offset (done ++ rest) least
      (Plan.innermost regions offset width found rest) := by
  induction rest generalizing done width found with
  | nil => exact ⟨width, by simpa [Plan.innermost] using narrowed⟩
  | cons e rest ih =>
    have whole : done ++ e :: rest = done ++ [e] ++ rest := by simp
    have later : ∀ e' ∈ done, e'.start ≤ e.start := fun e' member =>
      (List.pairwise_append.mp sorted).2.2 e' member e (by simp)
    have own := widths e (by simp)
    rw [Plan.innermost]
    rw [whole] at widths sorted ⊢
    split
    · next taken =>
      simp only [Bool.and_eq_true, Bool.or_eq_true, decide_eq_true_eq, Int64.lt_iff_toInt_lt,
        Int64.toInt_zero] at taken
      refine ih widths sorted (.some (.found taken.1 fun e' member inside => ?_))
      cases narrowed with
      | none outside => cases (outside e' member).symm.trans inside
      | @some best innermost =>
        have width := widths best (by simp [innermost.member])
        have least := innermost.narrowest e' member inside
        omega
    · next kept =>
      simp only [Bool.and_eq_true, Bool.or_eq_true, decide_eq_true_eq, Int64.lt_iff_toInt_lt,
        Int64.toInt_zero, not_and, not_or] at kept
      refine ih widths sorted ?_
      cases narrowed with
      | none outside =>
        refine .none fun e' member => ?_
        rcases List.mem_append.mp member with old | new
        · exact outside e' old
        · cases List.mem_singleton.mp new
          by_contra inside
          exact (kept (by simpa using inside)).1 (by decide)
      | @some best innermost =>
        have width := widths best (by simp [innermost.member])
        refine .some (innermost.pass (later best innermost.member) fun around => ?_)
        have wider := (kept around).2
        omega

/-- The stack that the handler of a region finds: where the handler is, how much it keeps, and whether
it expects the offset. -/
def arrival (plan : Plan) (index : Nat) : Option (Int64 × Int64 × Bool) :=
  (plan.region? (plan.protecting index)).map fun r => (r.handler, r.depth, r.lasti)

/-- What the table of a function says, as its plan has it. -/
structure Loaded (fn : Function) (plan : Plan) : Prop where
  handlers : plan.regions.map Region.handler = (fn.sorted.table.map TableEntry.target).eraseDups
  numbers : ∀ (k : Nat) (r : Region), plan.regions[k]? = some r → r.id = Int64.ofNat (k + 1)
  covers : ∀ r ∈ plan.regions, Envelops fn.table r
  /-- What no entry contains is not protected. -/
  outside : ∀ (i : Nat) (inst : Instruction), fn.instructions[i]? = some inst →
    (plan.protecting i = 0 ↔ ∀ e ∈ fn.table, e.contains inst.offset = false)
  /-- What an entry contains is protected by the region of the narrowest one. -/
  inside : ∀ (i : Nat) (inst : Instruction), fn.instructions[i]? = some inst →
    (∃ e ∈ fn.table, e.contains inst.offset = true) →
    ∃ e r, Innermost fn.table inst.offset e ∧ r.handler = e.target ∧
      plan.region? (plan.protecting i) = some r

private theorem ofFunction_modern (modern : dialectOf? fn.version = some .modern) :
    Plan.ofFunction fn.sorted = Plan.ofModern fn.sorted := by
  have version : dialectOf? fn.sorted.version = some .modern := modern
  unfold Plan.ofFunction
  rw [version]

theorem sorted_perm (fn : Function) : fn.sorted.table.Perm fn.table := List.mergeSort_perm _ _

theorem sorted_pairwise (fn : Function) :
    fn.sorted.table.Pairwise fun e e' => e.start ≤ e'.start := by
  have sorted : fn.sorted.table.Pairwise fun e e' => decide (e.start ≤ e'.start) = true :=
    List.pairwise_mergeSort (fun _ _ _ first second => by
      simp only [decide_eq_true_eq] at first second ⊢
      exact Int64.le_trans first second)
    (fun a b => by simpa using Int64.le_total a.start b.start) fn.table
  exact sorted.imp fun first => of_decide_eq_true first

private theorem sorted_admissible {e : TableEntry} : Admissible fn.sorted e ↔ Admissible fn e :=
  ⟨fun ⟨order, depth, target⟩ => ⟨order, depth, target⟩,
    fun ⟨order, depth, target⟩ => ⟨order, depth, target⟩⟩

private theorem loads_iff (fn : Function) (modern : dialectOf? fn.version = some .modern) :
    (∃ plan, Plan.ofFunction fn.sorted = .ok plan) ↔
      (∀ e ∈ fn.table, Admissible fn e) ∧ Concordant fn.table := by
  have members := fun e => (sorted_perm fn).mem_iff (a := e)
  rw [ofFunction_modern modern]
  constructor
  · rintro ⟨plan, drafted⟩
    obtain ⟨grouped, admissible⟩ := addEntries_grouped .nil (ofModern_spec drafted).2.2.1
    have agreeing := grouped.agreeing
    simp only [List.nil_append, Concordant, members, sorted_admissible] at admissible agreeing
    exact ⟨admissible, agreeing⟩
  · rintro ⟨admissible, agreeing⟩
    have all : ∀ e ∈ fn.sorted.table, Admissible fn.sorted e := by
      simpa only [members, sorted_admissible] using admissible
    have agree : Concordant ([] ++ fn.sorted.table) := by
      simpa only [List.nil_append, Concordant, members] using agreeing
    obtain ⟨regions, added⟩ := addEntries_succeeds .nil all agree
    rw [Plan.ofModern, added]
    exact ⟨_, rfl⟩

private theorem protecting_innermost {plan : Plan} (grouped : Grouped fn.sorted.table plan.regions)
    (small : fn.table.length < 2 ^ 63)
    (widths : ∀ e ∈ fn.sorted.table, e.width.toInt = span e ∧ 0 < span e) (offset : Int64) :
    (Plan.innermost plan.regions offset (-1) 0 fn.sorted.table = 0 ∧
      ∀ e ∈ fn.table, e.contains offset = false) ∨
    ∃ e r, Innermost fn.table offset e ∧ r.handler = e.target ∧
      plan.region? (Plan.innermost plan.regions offset (-1) 0 fn.sorted.table) = some r := by
  obtain ⟨_, narrowed⟩ : ∃ least, Narrowed plan.regions offset ([] ++ fn.sorted.table) least
      (Plan.innermost plan.regions offset (-1) 0 fn.sorted.table) :=
    innermost_narrowed widths (sorted_pairwise fn) (.none (by simp))
  generalize Plan.innermost plan.regions offset (-1) 0 fn.sorted.table = region at narrowed ⊢
  cases narrowed with
  | none outside => exact .inl ⟨rfl, fun e member => outside e ((sorted_perm fn).mem_iff.mpr member)⟩
  | @some e innermost =>
    have length : fn.sorted.table.length < 2 ^ 63 := (sorted_perm fn).length_eq ▸ small
    obtain ⟨r, _, handler, same, found⟩ := grouped.find length innermost.member
    exact .inr ⟨e, r, innermost.perm (sorted_perm fn).symm, handler, same ▸ found⟩

private theorem loads (fn : Function) (modern : dialectOf? fn.version = some .modern)
    (small : fn.table.length < 2 ^ 63) (narrow : ∀ e ∈ fn.table, span e < 2 ^ 63) {plan : Plan}
    (drafted : Plan.ofFunction fn.sorted = .ok plan) : Loaded fn plan := by
  have admissible := ((loads_iff fn modern).mp ⟨plan, drafted⟩).1
  rw [ofFunction_modern modern] at drafted
  obtain ⟨_, _, added, protecting⟩ := ofModern_spec drafted
  have grouped : Grouped fn.sorted.table plan.regions := (addEntries_grouped .nil added).1
  have widths : ∀ e ∈ fn.sorted.table, e.width.toInt = span e ∧ 0 < span e := by
    intro e member
    have member := (sorted_perm fn).mem_iff.mp member
    have order := (admissible e member).order
    have positive := Int64.lt_iff_toInt_lt.mp order
    exact ⟨width_toInt order (narrow e member), by unfold span; omega⟩
  have protected_ : ∀ (i : Nat) (inst : Instruction), fn.instructions[i]? = some inst →
      (plan.protecting i = 0 ∧ ∀ e ∈ fn.table, e.contains inst.offset = false) ∨
      ∃ e r, Innermost fn.table inst.offset e ∧ r.handler = e.target ∧
        plan.region? (plan.protecting i) = some r := by
    intro i inst present
    rw [protecting i, show fn.sorted.instructions[i]? = some inst from present]
    exact protecting_innermost grouped small widths inst.offset
  refine ⟨grouped.handlers, grouped.numbers, fun r present =>
    (grouped.covers r present).perm (sorted_perm fn).symm, fun i inst present => ?_,
    fun i inst present inside => ?_⟩
  · rcases protected_ i inst present with ⟨zero, outside⟩ | ⟨e, r, innermost, _, found⟩
    · exact ⟨fun _ => outside, fun _ => zero⟩
    · refine ⟨fun zero => ?_, fun outside => ?_⟩
      · rw [zero, region?_zero] at found
        cases found
      · cases innermost.around.symm.trans (outside e innermost.member)
  · obtain ⟨e, member, around⟩ := inside
    rcases protected_ i inst present with ⟨_, outside⟩ | found
    · cases around.symm.trans (outside e member)
    · exact found

private theorem Loaded.arrives {plan : Plan} (loaded : Loaded fn plan) {i : Nat} {inst : Instruction}
    (present : fn.instructions[i]? = some inst) {e : TableEntry}
    (innermost : Innermost fn.table inst.offset e) (separate : Discernible fn.table) :
    arrival plan i = some (e.target, e.depth, e.lasti) := by
  obtain ⟨e', r, also, handler, found⟩ :=
    loaded.inside i inst present ⟨e, innermost.member, innermost.around⟩
  have same : e.target = e'.target := by
    by_contra other
    obtain ⟨start, stop⟩ := innermost.range also
    exact (separate e innermost.member e' also.member other).elim (absurd start) (absurd stop)
  have marks := (loaded.covers r (regionIn?_mem found)).marks e innermost.member (same.trans handler.symm)
  rw [arrival, found, Option.map_some, handler, ← same, marks.1, marks.2]

private theorem Loaded.unprotected {plan : Plan} (loaded : Loaded fn plan) {i : Nat} {inst : Instruction}
    (present : fn.instructions[i]? = some inst)
    (outside : ∀ e ∈ fn.table, e.contains inst.offset = false) : arrival plan i = none := by
  rw [arrival, (loaded.outside i inst present).mpr outside, region?_zero]
  rfl

/-- Tables with the same entries are loaded into plans under which the same stack arrives at the same
handler, unless entries of different targets have the same range. -/
private theorem Loaded.alike {table : List TableEntry} {plan plan' : Plan} (perm : table.Perm fn.table)
    (separate : Discernible fn.table) (left : Loaded fn plan)
    (right : Loaded { fn with table } plan') {i : Nat} {inst : Instruction}
    (present : fn.instructions[i]? = some inst) : arrival plan' i = arrival plan i := by
  by_cases inside : ∃ e ∈ fn.table, e.contains inst.offset = true
  · obtain ⟨e, _, innermost, _⟩ := left.inside i inst present inside
    have also : Discernible table := by simpa only [Discernible, perm.mem_iff] using separate
    rw [left.arrives present innermost separate, right.arrives present (innermost.perm perm) also]
  · have outside : ∀ e ∈ fn.table, e.contains inst.offset = false := by
      simpa using inside
    rw [left.unprotected present outside,
      right.unprotected present fun e member => outside e (perm.mem_iff.mp member)]

/-- An exception table is loaded exactly if its entries protect something, keep a depth and lead to
instructions, and those of one target agree. Each target is a region then, and each instruction is protected
by the region of the narrowest entry around it. The order of the entries changes neither whether the table
is loaded nor what the handler of an instruction finds, unless entries of different targets have the same
range. -/
theorem exceptionTable_loads (fn : Function) (modern : dialectOf? fn.version = some .modern)
    (small : fn.table.length < 2 ^ 63) (narrow : ∀ e ∈ fn.table, span e < 2 ^ 63) :
    ((∃ plan, Plan.ofFunction fn.sorted = .ok plan) ↔
      (∀ e ∈ fn.table, Admissible fn e) ∧ Concordant fn.table) ∧
    (∀ plan, Plan.ofFunction fn.sorted = .ok plan → Loaded fn plan) ∧
    ∀ table, table.Perm fn.table → Discernible fn.table →
      ((∃ plan, Plan.ofFunction { fn with table }.sorted = .ok plan) ↔
        ∃ plan, Plan.ofFunction fn.sorted = .ok plan) ∧
      ∀ plan plan', Plan.ofFunction fn.sorted = .ok plan →
        Plan.ofFunction { fn with table }.sorted = .ok plan' →
        ∀ (i : Nat) (inst : Instruction), fn.instructions[i]? = some inst →
          arrival plan' i = arrival plan i := by
  refine ⟨loads_iff fn modern, fun plan => loads fn modern small narrow,
    fun table perm separate => ⟨?_, ?_⟩⟩
  · have admissible : ∀ e, Admissible { fn with table } e ↔ Admissible fn e := fun e =>
      ⟨fun ⟨order, depth, target⟩ => ⟨order, depth, target⟩,
        fun ⟨order, depth, target⟩ => ⟨order, depth, target⟩⟩
    rw [loads_iff fn modern, loads_iff { fn with table } modern]
    simp only [Concordant, perm.mem_iff, admissible]
  · intro plan plan' first second i inst present
    have length : table.length < 2 ^ 63 := perm.length_eq ▸ small
    have spans : ∀ e ∈ table, span e < 2 ^ 63 := fun e member => narrow e (perm.mem_iff.mp member)
    exact (loads fn modern small narrow first).alike perm separate
      (loads { fn with table } modern length spans second) present

/-- Two entries of the same width overlap, and a third one, of the target of the first, lies apart. -/
def overlapping : Function where
  name := "f"
  version := ⟨3, 11⟩
  instructions := #[{ offset := 0, code := Opcode.nop.code }, { offset := 2, code := Opcode.nop.code },
    { offset := 4, code := Opcode.nop.code }, { offset := 6, code := Opcode.nop.code },
    { offset := 8, code := Opcode.nop.code }, { offset := 10, code := Opcode.nop.code }]
  table := [⟨6, 8, 8, 0, false⟩, ⟨2, 6, 10, 1, true⟩, ⟨0, 4, 8, 0, false⟩]

/-- Both entries contain the instruction at offset 2, and the one that starts first protects it, in either
order of the table. -/
theorem overlapping_loads : dialectOf? overlapping.version = some .modern ∧
    overlapping.table.length < 2 ^ 63 ∧ (∀ e ∈ overlapping.table, span e < 2 ^ 63) ∧
    ∃ plan plan', Plan.ofFunction overlapping.sorted = .ok plan ∧ Loaded overlapping plan ∧
      Plan.ofFunction { overlapping with table := overlapping.table.reverse }.sorted = .ok plan' ∧
      plan.regions.map Region.handler = [8, 10] ∧ arrival plan 1 = some (8, 0, false) ∧
      arrival plan' 1 = arrival plan 1 := by
  have admissible : ∀ e ∈ overlapping.table, Admissible overlapping e := by
    have targets : ∀ e ∈ overlapping.table, (overlapping.indexOf? e.target).isSome :=
      List.all_eq_true.mp (by cbv)
    have valid : ∀ e ∈ overlapping.table, e.start < e.stop ∧ 0 ≤ e.depth := by decide
    exact fun e member => ⟨(valid e member).1, (valid e member).2, indexOf?_isSome.mp (targets e member)⟩
  have agreeing : Concordant overlapping.table := by unfold Concordant; decide
  have separate : Discernible overlapping.table := by unfold Discernible; decide
  obtain ⟨accepted, loaded, alike⟩ := exceptionTable_loads overlapping rfl (by decide) (by decide)
  obtain ⟨accepted', same⟩ := alike _ overlapping.table.reverse_perm separate
  obtain ⟨plan, drafted⟩ := accepted.mpr ⟨admissible, agreeing⟩
  obtain ⟨plan', drafted'⟩ := accepted'.mpr ⟨plan, drafted⟩
  have evaluated : (Plan.ofFunction overlapping.sorted).toOption.map (fun plan =>
      (plan.regions.map Region.handler, arrival plan 1)) = some ([8, 10], some (8, 0, false)) := by cbv
  rw [drafted] at evaluated
  obtain ⟨handlers, arrives⟩ := Prod.mk.inj (Option.some.inj evaluated)
  obtain ⟨inst, present⟩ : ∃ inst, overlapping.instructions[1]? = some inst := ⟨_, rfl⟩
  exact ⟨rfl, by decide, by decide, plan, plan', drafted, loaded plan drafted, drafted', handlers, arrives,
    same plan plan' drafted drafted' 1 inst present⟩

end Lowering.Proofs
