import Lowering.Proofs.Dispatch
import Mathlib.Data.List.TakeWhile

/-! Dispatch by blocks. An exception goes through the cleanups of the handlers that run, the innermost
first, down to the innermost block that was set up. Each cleanup makes the exception that its
handler had saved the handled one again. The handler of the block then finds what was kept of the
stack, with the exception state on top. -/

namespace Lowering.Proofs
open Machine Host Shape Guest Emission

variable {setup : Setup} {plan : Plan} {bound : Array Bound} {analysis : Analysis.State}
  {maxDepth : Int64} {c : Config} {exception : Nat} {h : Frame} {rest : List Frame}

private theorem mayRaise_risks {o : Operation} {out : Outline} (raises : mayRaise o out = true) :
    risks o = true := by
  cases o <;> first | rfl | exact raises

/-- A frame of a lowered routine, whatever it was called with. -/
abbrev Anywhere (plan : Plan) (bound : Array Bound) (analysis : Analysis.State) (maxDepth : Int64) :
    Piece → Prop :=
  PieceOf (fun _ => true) plan bound analysis maxDepth

theorem Setting.onChart (setting : Setting plan bound analysis) (plain : setup.helpers = [])
    (clean : Clean setup.custom) {st : Machine.State} {entered : Routine} {args : List Value} {depth : Nat}
    (proper : ProperConfig (.enter st entered args depth))
    (reaches : Reaches setup (.enter st entered args depth) c) :
    ProperConfig c ∧
      OnChart (routineOf plan bound analysis maxDepth) (Anywhere plan bound analysis maxDepth) c := by
  have enters : ∀ heap args depth, Going (Anywhere plan bound analysis maxDepth)
      (Frame.enter heap (routineOf plan bound analysis maxDepth) args depth).1 := by
    intro heap args depth
    have lands : Lands (Anywhere plan bound analysis maxDepth) 0 _ := setting.enters maxDepth
    exact Lands.going (f := (Frame.enter heap _ args depth).1) lands
      (entry_fits rfl fun _ _ _ _ => rfl)
  have steps : ∀ {before after : Config}, (ProperConfig before ∧ OnChart
      (routineOf plan bound analysis maxDepth) (Anywhere plan bound analysis maxDepth) before) →
      Goes setup before after → ProperConfig after ∧ OnChart
        (routineOf plan bound analysis maxDepth) (Anywhere plan bound analysis maxDepth) after :=
    fun before goes => ⟨before.1.step plain clean goes,
      before.2.step (setting.charted maxDepth) plain enters before.1 goes⟩
  refine reaches.keeps steps ⟨proper, fun own => ?_, nofun⟩
  change entered = _ at own
  subst own
  exact enters _ _ _

/-- What is known of a frame in which an instruction has raised. -/
theorem Setting.raised (setting : Setting plan bound analysis) (plain : setup.helpers = [])
    {absent : Nat → Bool} (proper : ProperConfig c)
    (charts : OnChart (routineOf plan bound analysis maxDepth)
      (PieceOf absent plan bound analysis maxDepth) c)
    (raising : Raising setup c exception h rest) (own : h.routine = routineOf plan bound analysis maxDepth)
    {i : Nat} {o : Bound} {p : Point} (reached : Reached bound analysis i o p)
    (lower : leadStart plan bound analysis i ≤ h.ip - 1)
    (upper : h.ip - 1 < leadStart plan bound analysis (i + 1)) :
    ∃ out, Raised absent plan o p out ∧ Fits h out := by
  obtain ⟨_, _, _, _, _, raises, offered⟩ := raising
  obtain ⟨op, out, halting⟩ := charts.halting (setting.charted maxDepth) plain proper raises.issued
    raises.executed offered own
  obtain ⟨_, _, operations⟩ := setting.code reached maxDepth
  obtain ⟨op', present, member, _⟩ := operations _ lower upper
  have operation := halting.operation
  rw [own, present] at operation
  cases operation
  have risky := mayRaise_risks halting.raises
  rcases member with front | ⟨_, inside⟩
  · rw [lead_quiet front] at risky
    cases risky
  · obtain ⟨m, _, flow, next, place, short, stands, _, _, follows⟩ :=
      setting.owned reached inside upper halting.placed
    have here := (stands m _ (List.getElem?_eq_getElem short)).1
    rw [← place, present] at here
    rw [List.drop_eq_getElem_cons short, ← Option.some.inj here] at follows
    obtain ⟨raises, kept, stack⟩ := follows.1 halting.raises
    exact ⟨_, ⟨raises, kept, stack⟩, halting.fits⟩

/-- A handler that runs has saved a value. -/
theorem Setting.holds (setting : Setting plan bound analysis) {absent : Nat → Bool} {i : Nat}
    {o : Bound} {p : Point} (reached : Reached bound analysis i o p) (legacy : plan.dialect = .legacy)
    {out : Outline} (raised : Raised absent plan o p out) (fits : Fits h out) {b : Block}
    (member : b ∈ p.blocks) (running : b.running = true) {r : Region}
    (region : (contextOf plan analysis).region? b.region = some r) :
    ∃ v, h.locals[r.scratch.toInt.toNat]? = some v ∧ v ≠ .unbound := by
  have saved : mayRaise _ { outlineAt absent plan p with stack := out.stack } = false :=
    setting.saved reached legacy member running out.stack
  rw [← raised.kept, region, Option.getD_some] at saved
  simp only [mayRaise, Bool.or_eq_false_iff, beq_eq_false_iff_ne] at saved
  have bound : h.locals.getD r.scratch.toInt.toNat .unbound ≠ .unbound := by
    rcases fits.locals r.scratch.toInt.toNat with ⟨_, absent⟩ | unbound | ⟨bound, _⟩
    · rw [saved.2] at absent
      cases absent
    · exact absurd unbound saved.1
    · exact bound
  rw [Array.getD_eq_getD_getElem?] at bound
  cases found : h.locals[r.scratch.toInt.toNat]? with
  | none =>
    rw [found] at bound
    exact absurd rfl bound
  | some v =>
    rw [found] at bound
    exact ⟨v, rfl, bound⟩

/-- The fault of a frame that has less on its stack than its region keeps. -/
def undercuts : Machine.Fault → Bool
  | .belowProtected .. => true
  | _ => false

/-- An exception that is offered to a frame goes through the cleanups of some blocks, until it is
offered to the frame again. Every cleanup makes the value that its handler had saved the handled
exception; it cuts the stack to what the block keeps, and raises what it was given. -/
inductive Unwinds (setup : Setup) (context : Context) (exception : Nat) (rest : List Frame) :
    List Block → Config → Frame → Config → Frame → Prop
  | done {c : Config} {h : Frame} (raising : Raising setup c exception h rest) :
      Unwinds setup context exception rest [] c h c h
  | cleanup {b : Block} {blocks : List Block} {r : Region} {label : Label} {c arrived d e : Config}
      {h g last : Frame} (region : context.region? b.region = some r)
      (raising : Raising setup c exception h rest) (goes : Goes setup c arrived)
      (restores : Executes setup [.label label, .loadLocal r.scratch, .setHandled] arrived d)
      (register : h.locals[r.scratch.toInt.toNat]? = some d.state.handled)
      (throws : d.frame.routine.ops[d.frame.ip]? = some .throw) (locals : g.locals = h.locals)
      (stack : g.stack = h.stack.drop (h.stack.length - r.depth.toInt.toNat))
      (later : Unwinds setup context exception rest blocks d g e last) :
      Unwinds setup context exception rest (b :: blocks) c h e last

/-- A frame that is protected catches, unless it has less on its stack than is kept. -/
theorem Raising.delivered (plain : setup.helpers = []) (raising : Raising setup c exception h rest)
    {handler : Label} {depth : Int64} {target : Nat} (protection : protectionOf h = some ⟨handler, depth⟩)
    (defined : h.routine.labelIndex? handler = some target) (positive : 0 ≤ depth)
    (room : h.stack.length ≤ maxStackDepth) (avoids : Avoids undercuts setup c) :
    depth.toInt.toNat ≤ h.stack.length ∧ ∃ d, Goes setup c d ∧
      d.frame = { h with
        ip := target
        stack := .exception exception :: h.stack.drop (h.stack.length - depth.toInt.toNat) } ∧
      d.waiting = rest ∧ d.state.handled = c.state.handled := by
  by_cases short : Int64.ofNat h.stack.length < depth
  · obtain ⟨region, found, same⟩ := Option.map_eq_some_iff.mp protection
    cases same
    obtain ⟨st, ended⟩ := raising.failed (receive_short found defined short exception)
    cases avoids _ _ _ _ .refl ended
  · have enough : depth.toInt.toNat ≤ h.stack.length := by
      simp only [maxStackDepth] at room
      exact toNat_le_of_not_lt (by omega) short
    exact ⟨enough, raising.caught plain
      (receive_protected protection defined positive (Int64.not_lt.mp short) room exception)⟩

/-- An exception on top of the stack is raised. -/
theorem Avoids.throws (undisturbed : Avoids disturbs setup c)
    (operation : c.frame.routine.ops[c.frame.ip]? = some .throw) {stack : List Value}
    (top : c.frame.stack = .exception exception :: stack) (small : stack.length < 2 ^ 61) :
    ∃ g, Raising setup c exception g c.waiting ∧ g.routine = c.frame.routine ∧
      g.ip = c.frame.ip + 1 ∧ g.stack = stack ∧ g.locals = c.frame.locals := by
  obtain ⟨st, f, issued, stepped⟩ := undisturbed.issues operation
  have top : f.stack = .exception exception :: stack := issued.stack.trans top
  have executed : execute setup st f .throw = (st, .raise { f with stack } exception) ∨
      ∃ index, execute setup st f .throw = abort st f (.overflow index) := by
    have enough : ¬ Int64.ofNat f.stack.length < Operation.pops .throw :=
      ofNat_not_lt (by rw [top, List.length_cons]; omega) (by
        change (1 : Int) ≤ f.stack.length
        rw [top, List.length_cons]
        omega)
    unfold execute
    dsimp only
    rw [if_neg enough]
    split
    · exact .inr ⟨_, rfl⟩
    · refine .inl ?_
      unfold perform
      rw [top]
      rfl
  rcases executed with raises | ⟨index, full⟩
  · rw [raises] at stepped
    exact ⟨_, ⟨_, _, _, _, _, ⟨issued, raises, stepped⟩, .here _ _⟩, issued.routine, issued.ip, rfl,
      issued.locals⟩
  · rw [full] at stepped
    cases undisturbed c _ _ _ .refl stepped

private theorem Guards.setUp {context : Context} {cleanups : Array Cleanup} {b : Block}
    {below : List Block} {protection : Option Protection}
    (guards : Guards context cleanups (b :: below) protection) (idle : b.running = false) {r : Region}
    (region : context.region? b.region = some r) {label : Label}
    (labelled : context.catch? b.region = some label) : protection = some ⟨label, r.depth⟩ := by
  cases guards with
  | caught found =>
    cases found.symm.trans labelled
    rw [depthOf, region, Option.map_some, Option.getD_some]
  | uncaught missing => cases missing.symm.trans labelled
  | unwound _ running => cases idle.symm.trans running

private theorem Setting.cleans (setting : Setting plan bound analysis) (plain : setup.helpers = [])
    {cleanup : Cleanup} (member : cleanup ∈ cleanupsOf plan bound analysis) {r : Region}
    (region : (contextOf plan analysis).region? cleanup.block.region = some r)
    (positive : 0 ≤ r.depth) (place : 0 ≤ r.scratch) {v : Value}
    (saved : h.locals[r.scratch.toInt.toNat]? = some v) (value : v ≠ .unbound)
    (raising : Raising setup c exception h rest) (own : h.routine = routineOf plan bound analysis maxDepth)
    (protects : protectionOf h =
      some ⟨cleanup.label, depthOf (contextOf plan analysis) cleanup.block.region⟩)
    (room : h.stack.length ≤ maxStackDepth) (undisturbed : Avoids disturbs setup c)
    (avoids : Avoids undercuts setup c) :
    ∃ arrived d g, Goes setup c arrived ∧
      Executes setup [.label cleanup.label, .loadLocal r.scratch, .setHandled] arrived d ∧
      d.state.handled = v ∧ d.frame.routine.ops[d.frame.ip]? = some .throw ∧
      Raising setup d exception g rest ∧ g.routine = h.routine ∧ g.locals = h.locals ∧
      g.stack = h.stack.drop (h.stack.length - r.depth.toInt.toNat) ∧
      Guards (contextOf plan analysis) (cleanupsOf plan bound analysis) cleanup.below
        (protectionOf g) := by
  obtain ⟨start, origin, protection, _, guards, stands, defined⟩ := setting.cleanup member maxDepth
  rw [restore, region, Option.getD_some] at stands
  have depth : depthOf (contextOf plan analysis) cleanup.block.region = r.depth := by
    rw [depthOf, region, Option.map_some, Option.getD_some]
  rw [depth] at protects
  obtain ⟨_, arrived, goes, frame, waiting, _⟩ :=
    raising.delivered plain protects (own ▸ defined) positive room avoids
  have stored : View.run? ⟨h.routine, start,
      .exception exception :: h.stack.drop (h.stack.length - r.depth.toInt.toNat), h.locals, rest,
      arrived.state.heap, arrived.state.handled⟩
        [.label cleanup.label, .loadLocal r.scratch, .setHandled] = some ⟨h.routine, start + 3,
      .exception exception :: h.stack.drop (h.stack.length - r.depth.toInt.toNat), h.locals, rest,
      arrived.state.heap, v⟩ := by
    change (View.after? _ (.loadLocal r.scratch)).bind (fun w => w.run? [.setHandled]) = _
    rw [View.after?_loadLocal place saved value]
    rfl
  have size : (h.stack.drop (h.stack.length - r.depth.toInt.toNat)).length ≤ maxStackDepth := by
    rw [List.length_drop]
    omega
  simp only [maxStackDepth] at size
  obtain ⟨d, executes, still, leaves⟩ := (undisturbed.after goes).executes plain
    (by simp only [Config.view, frame, waiting]) stored
    (by simp [Operation.terminates]) (by simp only [List.length_cons, List.length_nil]; omega)
    fun m op found => by
      have before : ([Operation.label cleanup.label, .loadLocal r.scratch, .setHandled] ++
          [Operation.throw])[m]? = some op := by
        rw [List.getElem?_append_left (List.getElem?_eq_some_iff.mp found).1]
        exact found
      rw [own]
      exact (stands m op before).1
  simp only [Config.view, View.mk.injEq] at leaves
  obtain ⟨routine, ip, stack, locals, waits, _, handled⟩ := leaves
  obtain ⟨operation, _, protected_⟩ := stands 3 .throw rfl
  have throws : d.frame.routine.ops[d.frame.ip]? = some .throw := by
    rw [routine, own, ip]
    exact operation
  obtain ⟨g, again, same, next, left, kept⟩ := still.throws throws stack (by omega)
  refine ⟨arrived, d, g, goes, executes, handled, throws, waits ▸ again, same.trans routine,
    kept.trans locals, left, ?_⟩
  rw [protectionOf, same, next, routine, ip, own, Nat.add_sub_cancel, protected_]
  exact guards

theorem Unwinds.raising {context : Context} {blocks : List Block} {d : Config} {g : Frame}
    (unwinds : Unwinds setup context exception rest blocks c h d g) :
    Raising setup d exception g rest := by
  induction unwinds with
  | done raising => exact raising
  | cleanup _ _ _ _ _ _ _ _ _ ih => exact ih

theorem Unwinds.reaches {context : Context} {blocks : List Block} {d : Config} {g : Frame}
    (unwinds : Unwinds setup context exception rest blocks c h d g) : Reaches setup c d := by
  induction unwinds with
  | done => exact .refl
  | cleanup _ _ goes restores _ _ _ _ _ ih =>
    exact (restores.reaches (.step .refl goes)).trans ih

/-- Cleanups leave the locals alone, and cut the stack. -/
theorem Unwinds.keeps {context : Context} {blocks : List Block} {d : Config} {g : Frame}
    (unwinds : Unwinds setup context exception rest blocks c h d g) :
    g.locals = h.locals ∧ g.stack <:+ h.stack := by
  induction unwinds with
  | done => exact ⟨rfl, List.suffix_rfl⟩
  | cleanup _ _ _ _ _ _ locals stack _ ih =>
    refine ⟨ih.1.trans locals, ih.2.trans ?_⟩
    rw [stack]
    exact List.drop_suffix _ _

private theorem Setting.unwinds (setting : Setting plan bound analysis) (plain : setup.helpers = [])
    (legacy : plan.dialect = .legacy) {i : Nat} {o : Bound} {p : Point}
    (reached : Reached bound analysis i o p) {running below : List Block}
    (all : ∀ b ∈ running, b.running = true) (part : ∀ b ∈ running, b ∈ p.blocks)
    (saved : ∀ b ∈ running, ∀ r, (contextOf plan analysis).region? b.region = some r →
      ∃ v, h.locals[r.scratch.toInt.toNat]? = some v ∧ v ≠ .unbound)
    (raising : Raising setup c exception h rest) (own : h.routine = routineOf plan bound analysis maxDepth)
    (guards : Guards (contextOf plan analysis) (cleanupsOf plan bound analysis) (running ++ below)
      (protectionOf h))
    (room : h.stack.length ≤ maxStackDepth) (undisturbed : Avoids disturbs setup c)
    (avoids : Avoids undercuts setup c) :
    ∃ d g, Unwinds setup (contextOf plan analysis) exception rest running c h d g ∧
      g.routine = h.routine ∧
      Guards (contextOf plan analysis) (cleanupsOf plan bound analysis) below (protectionOf g) := by
  induction running generalizing c h with
  | nil => exact ⟨c, h, .done raising, rfl, guards⟩
  | cons b running ih =>
    have runs := all b List.mem_cons_self
    obtain ⟨r, known, _, positive, region⟩ := setting.block reached (part b List.mem_cons_self)
    obtain ⟨v, held, value⟩ := saved b List.mem_cons_self r region
    have place := ((setting.stable.placing setting.planned known).room legacy).1
    obtain ⟨cleanup, member, rfl, under, protects⟩ := guards.cleanup runs
    obtain ⟨arrived, d, g, goes, executes, handled, throws, again, routine, locals, stack, guards⟩ :=
      setting.cleans plain member region positive place held value raising own protects room
        undisturbed avoids
    rw [under] at guards
    have further := executes.reaches (.step .refl goes)
    obtain ⟨e, last, unwinds, final, guarded⟩ := ih (fun b inside => all b (.tail _ inside))
      (fun b inside => part b (.tail _ inside))
      (fun b inside => locals ▸ saved b (.tail _ inside)) again (routine.trans own) guards
      (by rw [stack, List.length_drop]; omega) (undisturbed.at further) (avoids.at further)
    exact ⟨e, last, .cleanup region raising goes executes (handled ▸ held) throws locals stack unwinds,
      final.trans routine, guarded⟩

/-- The exception state that a handler finds, the traceback on top. -/
def caughtState (heap : Heap) (exception : Nat) : List Value :=
  [.tuple ((heap.exception exception).traceback.toList.map Value.int), .exception exception,
    .cls (heap.exception exception).cls]

private theorem prologue_saves {r : Region} (legacy : r.dialect = .legacy) {v : View}
    {kept : List Value} (stack : v.stack = .exception exception :: kept) (place : 0 ≤ r.scratch)
    (inside : r.scratch.toInt.toNat < v.locals.size) :
    v.run? r.prologue = some { v with
      ip := v.ip + r.prologue.length
      stack := caughtState v.heap exception ++ kept
      locals := v.locals.setIfInBounds r.scratch.toInt.toNat v.handled
      handled := .exception exception } := by
  obtain ⟨routine, ip, _, locals, waiting, heap, handled⟩ := v
  dsimp only at stack inside
  subst stack
  unfold Region.prologue
  rw [legacy]
  change (View.after? _ (.storeLocal r.scratch)).bind (fun w => w.run? [.dup, .setHandled, .dup,
    .invoke { helper := .exceptionType, args := 1, results := 1 }, .swap 1, .dup,
    .invoke { helper := .exceptionTraceback, args := 1, results := 1 }]) = _
  rw [View.after?_storeLocal rfl place inside]
  rfl

private theorem bottom_of_suffix {α : Type} {lower stack : List α} (part : lower <:+ stack) {n : Nat}
    (within : n ≤ lower.length) :
    lower.drop (lower.length - n) = stack.drop (stack.length - n) := by
  obtain ⟨top, rfl⟩ := part
  have split : (top ++ lower).length - n = top.length + (lower.length - n) := by
    rw [List.length_append]
    omega
  rw [split, List.drop_append]
  simp

/-- Blocks are unwound. An exception of an instruction goes through one cleanup for every handler that
runs inside the innermost block that was set up, the innermost first; each makes the value that
its handler had saved the handled exception. Then it enters the handler of the block, with what
the block keeps of the stack and the exception state above it; the exception is the handled one,
and the handler has saved the one that was handled before. Without such a block, it leaves the
frame. -/
theorem block_dispatch {fn : Function} {l : Lowered} {events : List Lowering.Event}
    (lowered : lower fn = (.ok l, events)) (offsets : OwnOffsets fn)
    (prepared : prepare fn = .ok (plan, bound, analysis)) (legacy : plan.dialect = .legacy)
    {i first last : Nat} (code : codeOf fn i = some (first, last)) {p : Point}
    (point : analysis.point? i = some p) (plain : setup.helpers = []) (clean : Clean setup.custom)
    {st : Machine.State}
    {entered : Routine} {args : List Value} {depth : Nat}
    (proper : ProperConfig (.enter st entered args depth))
    (undisturbed : Avoids disturbs setup (.enter st entered args depth))
    (avoids : Avoids undercuts setup (.enter st entered args depth))
    (reaches : Reaches setup (.enter st entered args depth) c)
    (raising : Raising setup c exception h rest) (own : h.routine = l.routine)
    (lower : first ≤ h.ip - 1) (upper : h.ip - 1 < last) :
    ∃ d g, Unwinds setup (contextOf plan analysis) exception rest (p.blocks.takeWhile Block.running)
        c h d g ∧
      match setupBlocks p.blocks with
      | [] => Leaves setup d exception g rest
      | b :: _ => ∃ r label e, Plan.regionIn? analysis.regions b.region = some r ∧
          (contextOf plan analysis).catch? r.id = some label ∧ Enters setup fn label r d e ∧
          e.waiting = rest ∧ e.frame.routine = l.routine ∧ r.depth.toInt.toNat ≤ h.stack.length ∧
          e.frame.stack = caughtState e.state.heap exception ++
            h.stack.drop (h.stack.length - r.depth.toInt.toNat) ∧
          e.state.handled = .exception exception ∧ r.scratch.toInt.toNat < h.locals.size ∧
          e.frame.locals = h.locals.setIfInBounds r.scratch.toInt.toNat d.state.handled := by
  obtain ⟨_, _, _, lowers⟩ := lower_lowers lowered
  have same := lowers.prepared.symm.trans prepared
  cases same
  have setting := lowers.setting offsets
  have routine : l.routine = routineOf plan bound analysis l.routine.maxDepth := lowers.routine
  obtain ⟨o, q, reached, rfl, rfl⟩ := codeOf_some code prepared
  have same := reached.point.symm.trans point
  cases same
  obtain ⟨valid, charts⟩ := setting.onChart plain clean proper reaches
  obtain ⟨out, raised, fits⟩ :=
    setting.raised plain valid charts raising (own.trans routine) reached lower upper
  obtain ⟨protection, guarded, operations⟩ := setting.code reached l.routine.maxDepth
  obtain ⟨op, operation, _, protects⟩ := operations _ lower upper
  rw [← routine] at operation protects
  have room := lowers.room reaches raising own operation
  have guards : Guards (contextOf plan analysis) (cleanupsOf plan bound analysis)
      (p.blocks.takeWhile Block.running ++ setupBlocks p.blocks) (protectionOf h) := by
    rw [setupBlocks, List.takeWhile_append_dropWhile, protectionOf, own, protects]
    simp only [Guarded, show (contextOf plan analysis).plan.dialect = .legacy from legacy] at guarded
    exact guarded
  have runs : ∀ b ∈ p.blocks.takeWhile Block.running, b.running = true :=
    fun _ inside => List.mem_takeWhile_imp inside
  have part : ∀ b ∈ p.blocks.takeWhile Block.running, b ∈ p.blocks :=
    fun _ inside => (List.takeWhile_sublist _).subset inside
  obtain ⟨d, g, unwinds, kept, guards⟩ := setting.unwinds plain legacy reached runs part
    (fun b inside r region =>
      setting.holds reached legacy raised fits (part b inside) (runs b inside) region)
    raising (own.trans routine) guards room (undisturbed.at reaches) (avoids.at reaches)
  refine ⟨d, g, unwinds, ?_⟩
  obtain ⟨locals, stack⟩ := unwinds.keeps
  have further := reaches.trans unwinds.reaches
  split
  · next none =>
    rw [none] at guards
    generalize free : protectionOf g = protection at guards
    cases guards
    exact unwinds.raising.leaves (receive_unprotected free exception)
  · next b below found =>
    obtain ⟨r, known, id, positive, region⟩ := setting.block reached
      ((List.dropWhile_sublist _).subset (found ▸ List.mem_cons_self : b ∈ setupBlocks p.blocks))
    have region : Plan.regionIn? analysis.regions b.region = some r := region
    have protecting : Analysis.protecting? plan analysis i p = some r := by
      simp only [Analysis.protecting?, legacy, found]
      exact region
    obtain ⟨_, _, dialect, _, _, _, _, label, _, target, start, labelled⟩ :=
      setting.handler reached protecting raised.raises
    have again := kept.trans (own.trans routine)
    have idle : b.running = false := by
      have found : p.blocks.dropWhile Block.running = b :: below := found
      have first := List.dropWhile_get_zero_not Block.running p.blocks
        (by rw [found]; exact Nat.zero_lt_succ _)
      simpa [found] using first
    have protects : protectionOf g = some ⟨label, r.depth⟩ := by
      rw [found] at guards
      exact guards.setUp idle region (id ▸ labelled)
    have placing := setting.stable.placing setting.planned known
    obtain ⟨place, inside⟩ := placing.room legacy
    have size : h.locals.size = plan.hostLocals := by
      obtain ⟨_, _, _, _, _, raises, offered⟩ := raising
      have sized : Sized c := reaches.keeps Sized.step fun f entering => by
        rcases entering with rfl | waiting
        · exact enter_sized _ _ _ _
        · cases waiting
      rw [sized.offered raises.issued raises.executed offered, own, lowers.localCount]
    obtain ⟨_, _, _, defined⟩ := setting.prologue known labelled target start l.routine.maxDepth
    rw [← again] at defined
    have room := stack.length_le.trans room
    obtain ⟨enough, _⟩ :=
      unwinds.raising.delivered plain protects defined positive room (avoids.at further)
    obtain ⟨ip, heap, enters⟩ := setting.delivers plain reached protecting raised.raises labelled again
      protects enough room (undisturbed.at further) unwinds.raising prepared
    obtain ⟨e, entry, leaves⟩ := enters _ (prologue_saves (dialect.trans legacy) rfl place
      (by rw [locals, size]; exact inside))
    simp only [Config.view, View.mk.injEq] at leaves
    obtain ⟨routine, _, found, stored, waits, same, register⟩ := leaves
    refine ⟨r, label, e, region, labelled, entry, waits, routine.trans (kept.trans own), ?_, ?_, register,
      by rw [size]; exact inside, by rw [stored, locals]⟩
    · exact enough.trans stack.length_le
    · rw [found, same, bottom_of_suffix stack enough]

/-- A function that raises in a handler inside a block. -/
def rescued : Function where
  name := "f"
  version := ⟨3, 9⟩
  constants := #[.int 1]
  instructions := #[{ offset := 0, code := Opcode.setupFinally.code, arg := 12 },
    { offset := 2, code := Opcode.setupFinally.code, arg := 8 },
    { offset := 4, code := Opcode.loadConst.code },
    { offset := 6, code := Opcode.raiseVarargs.code, arg := 1 },
    { offset := 8, code := Opcode.loadConst.code },
    { offset := 10, code := Opcode.raiseVarargs.code, arg := 1 },
    { offset := 12, code := Opcode.popTop.code },
    { offset := 14, code := Opcode.returnValue.code }]

/-- Its routine: two prologues, and the cleanups of two handlers. -/
def rescuedRoutine : Routine where
  name := "f"
  localCount := 2
  maxDepth := 4
  ops := #[.const (.int 1), .invoke { helper := .makeException, args := 1, results := 1 }, .throw,
    .label (-2), .getHandled, .storeLocal 1, .dup, .setHandled, .dup,
    .invoke { helper := .exceptionType, args := 1, results := 1 }, .swap 1, .dup,
    .invoke { helper := .exceptionTraceback, args := 1, results := 1 },
    .label 8, .const (.int 1), .invoke { helper := .makeException, args := 1, results := 1 }, .throw,
    .label (-1), .getHandled, .storeLocal 0, .dup, .setHandled, .dup,
    .invoke { helper := .exceptionType, args := 1, results := 1 }, .swap 1, .dup,
    .invoke { helper := .exceptionTraceback, args := 1, results := 1 },
    .label 12, .pop, .ret,
    .label (-3), .loadLocal 1, .setHandled, .throw, .label (-4), .loadLocal 0, .setHandled, .throw]
  regions := [⟨0, 3, -2, 0⟩, ⟨3, 17, -3, 0⟩, ⟨17, 30, -4, 0⟩, ⟨30, 34, -1, 0⟩]
  origins := #[4, 6, 6, 8, 8, 8, 8, 8, 8, 8, 8, 8, 8, 8, 8, 10, 10, 12, 12, 12, 12, 12, 12, 12, 12, 12,
    12, 12, 12, 14, 8, 8, 8, 8, 12, 12, 12, 12]

/-- The operations of the instruction that raises in the handler and of the first one of the other handler,
and the blocks where it raises. -/
theorem rescued_lowered : ∃ plan bound analysis l events,
    prepare rescued = .ok (plan, bound, analysis) ∧ lower rescued = (.ok l, events) ∧
    l.routine = rescuedRoutine ∧ plan.dialect = .legacy ∧ codeOf rescued 5 = some (15, 17) ∧
    spanOf rescued 6 = some (27, 29) ∧ ∃ p inner outer, analysis.point? 5 = some p ∧
      p.blocks = [⟨2, true⟩, ⟨1, false⟩] ∧ Plan.regionIn? analysis.regions 2 = some inner ∧
      Plan.regionIn? analysis.regions 1 = some outer ∧ inner.scratch = 1 ∧ outer.depth = 0 := by
  have checked : lowersTo rescued (fun plan bound analysis l => alikeRoutine l.routine rescuedRoutine &&
      plan.dialect == .legacy && codeOf rescued 5 == some (15, 17) && spanOf rescued 6 == some (27, 29) &&
      (analysis.point? 5).any (·.blocks == [⟨2, true⟩, ⟨1, false⟩]) &&
      (Plan.regionIn? analysis.regions 2).any (·.scratch == 1) &&
      (Plan.regionIn? analysis.regions 1).any (·.depth == 0)) = true := by decide +kernel
  obtain ⟨plan, bound, analysis, l, events, prepared, finished, holds⟩ := lowersTo_spec checked
  simp only [Bool.and_eq_true, beq_iff_eq, Option.any_eq_true] at holds
  obtain ⟨⟨⟨⟨⟨⟨routine, legacy⟩, code⟩, span⟩, p, point, blocks⟩, inner, first, scratch⟩, outer, second,
    depth⟩ := holds
  exact ⟨plan, bound, analysis, l, events, prepared, lower_of_finish prepared finished,
    alikeRoutine_eq routine, legacy, code, span, p, inner, outer, point, blocks, first, second, scratch, depth⟩

theorem rescued_offsets : OwnOffsets rescued := ⟨by decide, by decide⟩

private theorem rescuedRoutine_proper : ProperRoutine rescuedRoutine := by
  intro v member
  simp only [rescuedRoutine, List.mem_toArray, List.mem_cons, Operation.const.injEq, reduceCtorEq,
    false_or, or_false, List.not_mem_nil] at member
  rcases member with rfl | rfl <;> rfl

/-- The machine before the handler raises. -/
def rescuing (handled : Value) : Config :=
  (Config.enter { bareState with handled } rescuedRoutine [] 1).later {} 16

theorem rescuing_seen (handled : Value) : (rescuing handled).frame =
      { routine := rescuedRoutine, ip := 16, stack := [.exception 1, .tuple [.int 6], .exception 0, .cls 10],
        locals := #[.unbound, handled], depth := 1 } ∧
    (rescuing handled).waiting = [] := by
  cbv

theorem rescuing_raises {handled : Value} (undisturbed : Avoids disturbs {} (rescuing handled)) :
    ∃ h, Raising {} (rescuing handled) 1 h [] ∧ h.routine = rescuedRoutine ∧ h.ip = 17 ∧
      h.locals = #[.unbound, handled] := by
  obtain ⟨frame, waiting⟩ := rescuing_seen handled
  obtain ⟨h, raising, own, ip, _, locals⟩ :=
    undisturbed.throws (by rw [frame]; rfl) (by rw [frame]) (by decide)
  rw [frame] at own ip locals
  exact ⟨h, waiting ▸ raising, own, ip, locals⟩

theorem rescued_dispatched : ∃ plan bound analysis, prepare rescued = .ok (plan, bound, analysis) ∧
    ∃ h d g r label e, Unwinds {} (contextOf plan analysis) 1 [] [⟨2, true⟩] (rescuing .none) h d g ∧
      d.state.handled = .none ∧ Enters {} rescued label r d e ∧
      e.frame.stack = caughtState e.state.heap 1 ∧ e.state.handled = .exception 1 := by
  obtain ⟨plan, bound, analysis, l, events, prepared, lowered, routine, legacy, code, _, p, inner, outer,
    point, blocks, first, second, scratch, depth⟩ := rescued_lowered
  obtain ⟨undisturbed, avoids⟩ :=
    (always_avoids (n := 40) (by decide +kernel) : Avoids (fun fault => disturbs fault || undercuts fault) {}
      (.enter bareState rescuedRoutine [] 1)).both
  have reaches : Reaches {} (.enter bareState rescuedRoutine [] 1) (rescuing .none) :=
    reaches_later {} _ 16
  obtain ⟨h, raising, own, ip, locals⟩ := rescuing_raises (undisturbed.at reaches)
  have proper : ProperConfig (.enter bareState rescuedRoutine [] 1) := by
    have bare : ProperHeap bareState.heap := .empty
    have none : allProper [] = true := rfl
    obtain ⟨frame, heap⟩ := enter_proper bare rescuedRoutine_proper none 1
    exact ⟨⟨heap, by rintro _ ⟨⟩, rfl⟩, frame, by rintro _ ⟨⟩⟩
  obtain ⟨d, g, unwinds, enters⟩ := block_dispatch lowered rescued_offsets prepared legacy
    code point rfl clean_none proper undisturbed avoids reaches raising
    (own.trans routine.symm) (by rw [ip]; decide) (by rw [ip]; decide)
  rw [blocks] at unwinds enters
  obtain ⟨r, label, e, region, _, enters, _, _, _, stack, register, _⟩ := enters
  cases region.symm.trans second
  refine ⟨plan, bound, analysis, prepared, h, d, g, outer, label, e, unwinds, ?_, enters, ?_, register⟩
  · cases unwinds with
    | cleanup region _ _ _ restored _ _ _ later =>
      cases later
      cases region.symm.trans first
      rw [locals, scratch] at restored
      exact (Option.some.inj restored).symm
  · rw [stack, depth]
    simp

def isException (ref : Nat) : Value → Bool
  | .exception r => r == ref
  | _ => false

/-- A routine that makes what a built-in function gives the handled exception, and calls the function. -/
def spoiling : Routine where
  name := "g"
  maxDepth := 1
  ops := #[.loadGlobal "b", .invoke { helper := .call, args := 1, results := 1 }, .setHandled,
    .loadGlobal "f", .invoke { helper := .call, args := 1, results := 1 }, .ret]

def spoilingState : Machine.State where
  heap := { builtins := #[⟨"b", .custom 0⟩], functions := #[0], routines := #[rescuedRoutine] }
  globals := [("b", .builtin 0), ("f", .function 0)]

/-- The machine before the handler raises, where a built-in function gave the sentinel. -/
def spoiled : Config := (Config.enter spoilingState spoiling [] 1).later straying 21

private theorem spoiling_proper : ProperConfig (.enter spoilingState spoiling [] 1) := by
  have constants : ProperRoutine spoiling := by
    intro v member
    simp [spoiling] at member
  have state : ProperState spoilingState := by
    refine ⟨{ ProperHeap.empty with routines := fun r member => ?_ }, by decide, rfl⟩
    cases List.mem_singleton.mp (Array.mem_def.mp member)
    exact rescuedRoutine_proper
  have none : allProper [] = true := rfl
  obtain ⟨frame, heap⟩ := enter_proper state.heap constants none 1
  exact ⟨state.withHeap heap, frame, by rintro _ ⟨⟩⟩

private theorem spoiled_raises : ∃ h rest, Raising straying spoiled 1 h rest ∧
    h.routine = rescuedRoutine ∧ h.ip = 17 := by
  have undisturbed : Avoids disturbs straying spoiled := always_avoids (n := 40) (by decide +kernel)
  have frame : spoiled.frame =
      { routine := rescuedRoutine, ip := 16, stack := [.exception 1, .tuple [.int 6], .exception 0, .cls 10],
        locals := #[.unbound, .unbound], depth := 2 } := by cbv
  obtain ⟨h, raising, own, ip, _⟩ := undisturbed.throws (by rw [frame]; rfl) (by rw [frame]) (by decide)
  rw [frame] at own ip
  exact ⟨h, _, raising, own, ip⟩

/-- With the sentinel in the register, the cleanup raises an exception of its own, and the one that it
was given never reaches the handler. Where a built-in function gives the sentinel, it gets there too. -/
theorem rescued_replaced : ∃ l events, lower rescued = (.ok l, events) ∧
    codeOf rescued 5 = some (15, 17) ∧ spanOf rescued 6 = some (27, 29) ∧
    (Reaches {} (.enter { bareState with handled := .unbound } l.routine [] 1) (rescuing .unbound) ∧
      (∃ h, Raising {} (rescuing .unbound) 1 h [] ∧ h.routine = l.routine ∧ h.ip = 17) ∧
      ∀ d, Reaches {} (rescuing .unbound) d → d.frame.ip = 27 →
        ∀ kept, d.frame.stack ≠ caughtState d.state.heap 1 ++ kept) ∧
    ProperConfig (.enter spoilingState spoiling [] 1) ∧
      Reaches straying (.enter spoilingState spoiling [] 1) spoiled ∧
      (∃ h rest, Raising straying spoiled 1 h rest ∧ h.routine = l.routine ∧ h.ip = 17) ∧
      ∀ d, Reaches straying spoiled d → d.frame.ip = 27 →
        ∀ kept, d.frame.stack ≠ caughtState d.state.heap 1 ++ kept := by
  obtain ⟨_, _, _, l, events, _, lowered, routine, _, code, span, _⟩ := rescued_lowered
  have replaced : ∀ {setup c}, always setup (fun d => d.frame.ip != 27 ||
      d.frame.stack[1]?.any (isException 2)) 40 c = true → ∀ d, Reaches setup c d → d.frame.ip = 27 →
      ∀ kept, d.frame.stack ≠ caughtState d.state.heap 1 ++ kept := by
    intro setup c test d reached place kept stack
    have second := always_reaches test reached
    simp [place, stack, caughtState, isException] at second
  refine ⟨l, events, lowered, code, span, ⟨routine ▸ reaches_later {} _ 16, ?_, replaced (by decide +kernel)⟩,
    spoiling_proper, reaches_later straying _ 21, routine ▸ spoiled_raises, replaced (by decide +kernel)⟩
  have undisturbed : Avoids disturbs {} (rescuing .unbound) := always_avoids (n := 40) (by decide +kernel)
  obtain ⟨h, raising, own, ip, _⟩ := rescuing_raises undisturbed
  exact ⟨h, raising, own.trans routine.symm, ip⟩

end Lowering.Proofs
