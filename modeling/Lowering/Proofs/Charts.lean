import Lowering.Proofs.Expansions
import Lowering.Proofs.Layouts

/-! Charts of a routine. Its code falls into pieces, each of which is followed from the outlines it may
be entered with; where the ways out of all pieces lead into pieces again, an activation of the
routine always is where its outline says. -/

namespace Lowering.Proofs
open Machine Host Shape

/-- A piece of code, the outlines it may be entered with at its start, and the ways out of it. -/
structure Piece where
  start : Nat
  operations : List Operation
  protection : Option Protection
  entry : Outline → Prop
  exits : Exits

/-- An outline with which control can be at an index. -/
def Placed (pieces : Piece → Prop) (ip : Nat) (out : Outline) : Prop :=
  ∃ piece m, pieces piece ∧ m < piece.operations.length ∧ ip = piece.start + m ∧
    (m = 0 → piece.entry out) ∧ Follows piece.exits (piece.operations.drop m) out

/-- Control can be at an index with an outline, or with one that says less. -/
def Lands (pieces : Piece → Prop) (ip : Nat) (out : Outline) : Prop :=
  ∃ wider, OutlineRefines out wider ∧ Placed pieces ip wider

theorem Placed.lands {pieces : Piece → Prop} {ip : Nat} {out : Outline}
    (placed : Placed pieces ip out) : Lands pieces ip out := ⟨out, .refl out, placed⟩

/-- What a handler finds: the stack is cut, and the exception is on top. -/
def Outline.caught (out : Outline) (depth : Int64) : Outline :=
  { out with stack := out.stack.drop (out.stack.length - depth.toInt.toNat) }.push (.ofKind .exception)

/-- The ways out of the pieces of a routine lead to pieces. -/
structure Charted (r : Routine) (pieces : Piece → Prop) : Prop where
  stands : ∀ piece, pieces piece →
    ∃ origin, Stands r piece.start piece.operations origin piece.protection
  through : ∀ piece out, pieces piece → piece.exits.through out →
    Lands pieces (piece.start + piece.operations.length) out
  branch : ∀ piece label out ip, pieces piece → piece.exits.branch label out →
    r.labelIndex? label = some ip → Lands pieces ip out
  raise : ∀ piece out handler depth ip, pieces piece → piece.exits.raise out →
    piece.protection = some ⟨handler, depth⟩ → depth.toInt.toNat ≤ out.stack.length →
    r.labelIndex? handler = some ip → Lands pieces ip (out.caught depth)

variable {r : Routine} {pieces : Piece → Prop}

/-- A frame that is about to execute an operation of a piece. -/
def Going (pieces : Piece → Prop) (f : Frame) : Prop := ∃ out, Fits f out ∧ Placed pieces f.ip out

theorem Lands.going {f : Frame} {out : Outline} (lands : Lands pieces f.ip out) (fits : Fits f out) :
    Going pieces f := by
  obtain ⟨wider, refines, placed⟩ := lands
  exact ⟨wider, fits.weaken refines, placed⟩

/-- A frame whose last operation took its operands and has not given anything back. -/
structure Halting (pieces : Piece → Prop) (o : Operation) (f : Frame) (out : Outline) : Prop where
  started : 0 < f.ip
  operation : f.routine.ops[f.ip - 1]? = some o
  fits : Fits f (out.without o)
  placed : Placed pieces (f.ip - 1) out
  raises : mayRaise o out = true

/-- A frame that waits for the one object that its call gives. -/
def Calling (pieces : Piece → Prop) (f : Frame) : Prop :=
  ∃ o out, Halting pieces o f out ∧ o.terminates = false ∧
    out.after? o = some ((out.without o).push (.ofKind .object))

/-- The operation at which a piece is. -/
theorem Placed.operation (charted : Charted r pieces) {ip : Nat} {out : Outline}
    (placed : Placed pieces ip out) {o : Operation} (issued : r.ops[ip]? = some o) :
    ∃ piece m, pieces piece ∧ ip = piece.start + m ∧ m < piece.operations.length ∧
      Follows piece.exits (o :: piece.operations.drop (m + 1)) out := by
  obtain ⟨piece, m, member, inside, rfl, _, follows⟩ := placed
  obtain ⟨origin, stands⟩ := charted.stands piece member
  obtain ⟨present, _⟩ := stands m _ (List.getElem?_eq_getElem inside)
  rw [issued] at present
  rw [List.drop_eq_getElem_cons inside, ← Option.some.inj present] at follows
  exact ⟨piece, m, member, rfl, inside, follows⟩

private theorem lands_after (charted : Charted r pieces) {piece : Piece} {m : Nat} {out : Outline}
    (member : pieces piece) (inside : m < piece.operations.length)
    (follows : Follows piece.exits (piece.operations.drop (m + 1)) out) :
    Lands pieces (piece.start + m + 1) out := by
  by_cases more : m + 1 < piece.operations.length
  · exact Placed.lands ⟨piece, m + 1, member, more, rfl, nofun, follows⟩
  · have last : piece.operations.length = m + 1 := by omega
    rw [List.drop_eq_nil_of_le (by omega)] at follows
    have lands := charted.through piece out member follows
    rwa [last] at lands

private theorem lands_moved (charted : Charted r pieces) {f : Frame} {o : Operation}
    {out next : Outline} {ip : Nat} (own : f.routine = r) (issued : r.ops[ip]? = some o)
    (after : f.ip = ip + 1) (placed : Placed pieces ip out) (moved : out.after? o = some next)
    {target : Nat} (moves : Moves f o target) : Lands pieces target next := by
  obtain ⟨piece, m, member, rfl, inside, follows⟩ := placed.operation charted issued
  obtain ⟨branches, falls⟩ := follows.2 next moved
  rcases moves with ⟨rfl, continues⟩ | ⟨label, named, found⟩
  · rw [after]
    exact lands_after charted member inside (falls continues)
  · exact charted.branch piece label next target member (branches label named) (own ▸ found)

/-- A frame that catches an exception is on the chart again. -/
theorem Halting.caught (charted : Charted r pieces) {o : Operation} {f g : Frame} {out : Outline}
    {exception : Nat} (halting : Halting pieces o f out) (own : f.routine = r)
    (received : receive exception f = .caught g) : Going pieces g := by
  obtain ⟨region, target, found, defined, _, _, enough, rfl⟩ := receive_caught received
  obtain ⟨piece, m, member, inside, place, _, follows⟩ := halting.placed
  obtain ⟨origin, stands⟩ := charted.stands piece member
  obtain ⟨present, _, protected'⟩ := stands m _ (List.getElem?_eq_getElem inside)
  have operation := halting.operation
  rw [own, place, present] at operation
  rw [List.drop_eq_getElem_cons inside, Option.some.inj operation] at follows
  have raise := follows.1 halting.raises
  rw [own, place] at found
  rw [found] at protected'
  have length := halting.fits.stack.length_eq
  have kept : region.depth.toInt.toNat ≤ (out.without o).stack.length := length ▸ enough
  have lands := charted.raise piece _ region.handler region.depth target member raise
    protected'.symm kept (own ▸ defined)
  refine Lands.going lands ⟨.cons (conforms_ofKind rfl) ?_, halting.fits.locals⟩
  rw [length]
  exact List.forall₂_drop _ halting.fits.stack

/-- What one operation makes of a frame on the chart. -/
theorem Going.executed (charted : Charted r pieces) {setup : Setup} (plain : setup.helpers = [])
    {c : Config} {o : Operation} {st : State} {f : Frame} (going : Going pieces c.frame)
    (own : c.frame.routine = r) (issued : Issued c o st f) (proper : ProperFrame f) :
    match (execute setup st f o).2 with
    | .next g => g.routine = r ∧ Going pieces g
    | .raise g _ => g.routine = r ∧ ∃ out, Halting pieces o g out
    | .enter g _ => g.routine = r ∧ Calling pieces g
    | .finish _ _ => True := by
  obtain ⟨out, fits, placed⟩ := going
  have same : f.routine = r := issued.routine.trans own
  have here : Fits f out := ⟨issued.stack ▸ fits.stack, issued.locals ▸ fits.locals⟩
  have shaped : Shaped f o out (execute setup st f o).2 :=
    execute_shaped plain (proper.storable o out) here
  have within := execute_within setup st f o
  have operation : r.ops[c.frame.ip]? = some o := own ▸ issued.operation
  have halts : mayRaise o out = true →
      Halting pieces o { f with stack := f.stack.drop o.pops.toInt.toNat } out := fun raises =>
    { started := by simp [issued.ip]
      operation := by simpa [issued.ip, same] using operation
      fits := ⟨List.forall₂_drop _ here.stack, here.locals⟩
      placed := by simpa [issued.ip] using placed
      raises := raises }
  split
  next g done =>
    rw [done] at shaped within
    obtain ⟨next, moved, after⟩ := shaped
    obtain ⟨routine, _, _, moves, _⟩ := within
    have lands := lands_moved charted same operation issued.ip placed moved moves
    exact ⟨routine.trans same, lands.going after⟩
  next g exception done =>
    rw [done] at shaped
    obtain ⟨raises, rfl⟩ := shaped
    exact ⟨same, out, halts raises⟩
  next g callee done =>
    rw [done] at shaped within
    obtain ⟨rfl, object, raises⟩ := shaped
    obtain ⟨inv, rfl, _⟩ := within
    exact ⟨same, _, out, halts raises, rfl, object⟩
  next => trivial

/-- A frame that gets the object it waited for is on the chart again. -/
theorem Calling.back (charted : Charted r pieces) {f g : Frame} {st : State} {inv : Invocation}
    {v : Value} (calling : Calling pieces f) (own : f.routine = r)
    (pushed : pushResults st f inv [v] = (st, .next g)) : g.routine = r ∧ Going pieces g := by
  obtain ⟨o, out, halting, continues, object⟩ := calling
  obtain rfl := pushResults_next pushed
  have conforms : Conforms v (.ofKind .object) := conforms_ofKind rfl
  have started := halting.started
  have lands : Lands pieces f.ip ((out.without o).push (.ofKind .object)) :=
    lands_moved charted own (own ▸ halting.operation) (by omega) halting.placed object
      (.inl ⟨rfl, continues⟩)
  exact ⟨own, Lands.going lands (halting.fits.push conforms)⟩

/-- The activation right above some frames: it executes, or waits for a call. -/
def Active (r : Routine) (pieces : Piece → Prop) (below : List Frame) (c : Config) : Prop :=
  (c.waiting = below ∧ c.frame.routine = r ∧ Going pieces c.frame) ∨
  ∃ above f, c.waiting = above ++ f :: below ∧ f.routine = r ∧ Calling pieces f

/-- A run from an activation on that has not left it. -/
inductive Stays (setup : Setup) (c : Config) : Config → Prop
  | refl : Stays setup c c
  | step {d e : Config} (before : Stays setup c d) (goes : Goes setup d e)
      (inside : c.waiting.length ≤ e.waiting.length) : Stays setup c e

theorem Stays.reaches {setup : Setup} {c d : Config} (stays : Stays setup c d) : Reaches setup c d := by
  induction stays with
  | refl => exact .refl
  | step _ goes _ ih => exact .step ih goes

/-- A run from outside stays in the function that was called. -/
theorem Reaches.stays {setup : Setup} {c d : Config} (alone : c.waiting = [])
    (reached : Reaches setup c d) : Stays setup c d := by
  induction reached with
  | refl => exact .refl
  | step _ goes ih => exact .step ih goes (by simp [alone])

theorem receive_routine {exception : Nat} {f g : Frame}
    (caught : receive exception f = .caught g) : g.routine = f.routine := by
  obtain ⟨_, _, _, _, _, _, _, rfl⟩ := receive_caught caught
  rfl

/-- Where an exception goes that is offered while the activation waits. -/
theorem offered_split {exception : Nat} {f g h : Frame} {above below rest : List Frame}
    (offered : Offered exception f (above ++ g :: below) h rest) (inside : below.length ≤ rest.length) :
    (∃ still, rest = still ++ g :: below) ∨ (h = g ∧ rest = below) := by
  induction above generalizing f with
  | nil =>
    cases offered with
    | here => exact .inl ⟨[], rfl⟩
    | passed _ later =>
      cases later with
      | here => exact .inr ⟨rfl, rfl⟩
      | passed _ later =>
        have shorter := later.shorter
        simp only [List.length_cons] at inside shorter
        omega
  | cons caller above ih =>
    cases offered with
    | here => exact .inl ⟨caller :: above, rfl⟩
    | passed _ later => exact ih later

/-- No step that stays in the activation leaves the chart. -/
theorem Active.step (charted : Charted r pieces) {setup : Setup} (plain : setup.helpers = [])
    {below : List Frame} {c d : Config} (active : Active r pieces below c) (proper : ProperConfig c)
    (goes : Goes setup c d) (inside : below.length ≤ d.waiting.length) :
    Active r pieces below d := by
  obtain ⟨o, st, f, issued, move⟩ := goes_cases goes
  rcases active with ⟨same, own, going⟩ | ⟨above, g, waiting, own, calling⟩
  · have executed := going.executed charted plain own issued (proper.issued issued).2
    cases move with
    | next done kept =>
      rw [done] at executed
      exact .inl ⟨kept.trans same, executed⟩
    | enter done below =>
      rw [done] at executed
      exact .inr ⟨[], _, by rw [below, same]; rfl, executed⟩
    | back _ shorter =>
      rw [same] at shorter
      rw [shorter, List.length_cons] at inside
      omega
    | raise done offered caught =>
      rw [done] at executed
      obtain ⟨own, out, halting⟩ := executed
      obtain ⟨rfl, rest⟩ := offered.stays (same ▸ inside)
      exact .inl ⟨rest.trans same, (receive_routine caught).trans own,
        halting.caught charted own caught⟩
  · cases move with
    | next _ kept => exact .inr ⟨above, g, kept.trans waiting, own, calling⟩
    | enter _ more => exact .inr ⟨_ :: above, g, by rw [more, waiting]; rfl, own, calling⟩
    | back _ shorter calls pushed =>
      rw [waiting] at shorter
      cases above with
      | nil =>
        simp only [List.nil_append, List.cons.injEq] at shorter
        obtain ⟨rfl, rfl⟩ := shorter
        exact .inl ⟨rfl, calling.back charted own pushed⟩
      | cons caller above =>
        simp only [List.cons_append, List.cons.injEq] at shorter
        exact .inr ⟨above, g, shorter.2.symm, own, calling⟩
    | raise done offered caught =>
      rw [waiting] at offered
      rcases offered_split offered inside with ⟨still, rest⟩ | ⟨rfl, rest⟩
      · exact .inr ⟨still, g, rest, own, calling⟩
      · obtain ⟨o, out, halting, _⟩ := calling
        exact .inl ⟨rest, (receive_routine caught).trans own, halting.caught charted own caught⟩

theorem Stays.active (charted : Charted r pieces) {setup : Setup} (plain : setup.helpers = [])
    (clean : Clean setup.custom) {c d : Config} (own : c.frame.routine = r) (going : Going pieces c.frame)
    (proper : ProperConfig c) (stays : Stays setup c d) :
    ProperConfig d ∧ Active r pieces c.waiting d := by
  induction stays with
  | refl => exact ⟨proper, .inl ⟨rfl, own, going⟩⟩
  | step _ goes inside ih =>
    exact ⟨ih.1.step plain clean goes, ih.2.step charted plain ih.1 goes inside⟩

/-- Every frame of the routine is on the chart. -/
structure OnChart (r : Routine) (pieces : Piece → Prop) (c : Config) : Prop where
  frame : c.frame.routine = r → Going pieces c.frame
  waiting : ∀ g ∈ c.waiting, g.routine = r → Calling pieces g

theorem OnChart.halting (charted : Charted r pieces) {setup : Setup} (plain : setup.helpers = [])
    {c : Config} (charts : OnChart r pieces c) (proper : ProperConfig c) {o : Operation}
    {st st' : State} {f g h : Frame} {exception : Nat} {rest : List Frame} (issued : Issued c o st f)
    (executed : execute setup st f o = (st', .raise g exception))
    (offered : Offered exception g c.waiting h rest) (own : h.routine = r) :
    ∃ o out, Halting pieces o h out := by
  rcases offered.mem.1 with rfl | member
  · have within := execute_within setup st f o
    rw [executed] at within
    obtain ⟨_, _, _, same⟩ := within
    have routine : c.frame.routine = r := by
      rw [← issued.routine, ← own, same]
    have stopped := (charts.frame routine).executed charted plain routine issued
      (proper.issued issued).2
    rw [executed] at stopped
    exact ⟨o, stopped.2⟩
  · obtain ⟨o, out, halting, _⟩ := charts.waiting h member own
    exact ⟨o, out, halting⟩

/-- Every step keeps the frames of the routine on the chart, when calls enter it there. -/
theorem OnChart.step (charted : Charted r pieces) {setup : Setup} (plain : setup.helpers = [])
    (enters : ∀ heap args depth, Going pieces (Frame.enter heap r args depth).1) {c d : Config}
    (charts : OnChart r pieces c) (proper : ProperConfig c) (goes : Goes setup c d) :
    OnChart r pieces d := by
  obtain ⟨o, st, f, issued, move⟩ := goes_cases goes
  have within := execute_within setup st f o
  have executed : f.routine = r → _ := fun own =>
    (charts.frame (issued.routine ▸ own)).executed charted plain (issued.routine ▸ own) issued
      (proper.issued issued).2
  cases move with
  | next done same =>
    rw [done] at within executed
    exact ⟨fun own => (executed (within.1 ▸ own)).2, same ▸ charts.waiting⟩
  | enter done below =>
    rw [done] at within executed
    obtain ⟨_, _, _, _, rfl, heap, routine, args, depth, callee⟩ := within
    refine ⟨fun own => ?_, fun g member own => ?_⟩
    · rw [callee] at own ⊢
      cases own
      exact enters heap args depth
    · rw [below] at member
      rcases List.mem_cons.mp member with rfl | old
      · exact (executed own).2
      · exact charts.waiting g old own
  | back done below calling pushed =>
    have waiting := charts.waiting
    rw [below] at waiting
    refine ⟨fun own => ?_, fun g member => waiting g (List.mem_cons_of_mem _ member)⟩
    have routine : d.frame.routine = _ := congrArg Frame.routine (pushResults_next pushed)
    have caller : _ = r := routine.symm.trans own
    exact ((waiting _ List.mem_cons_self caller).back charted caller pushed).2
  | raise done offered caught =>
    refine ⟨fun own => ?_, fun g member => charts.waiting g (offered.mem.2 g member)⟩
    have routine := receive_routine caught
    have last : _ = r := routine.symm.trans own
    obtain ⟨o, out, halting⟩ := charts.halting charted plain proper issued done offered last
    exact halting.caught charted last caught

end Lowering.Proofs
