import Mathlib
import Jvm.Proofs.Execution.Attained
import Jvm.Proofs.Execution.Frames

/-! # Where frames stand

A frame of verified code without `ret` stands at an instruction, and one below another frame stands at a call,
behind which there is an instruction to go on with. A call that succeeds leaves the frames as they were, one that
fails may leave frames on top of them (`Regime.level`), and an instruction that does not leave its frame changes
values of this frame only, or enters a frame above it (`Regime.atop`). So a step takes frames that stand at
instructions to such frames (`takes_step`), and so does the search for a handler (`takes_handle`). By induction on
the budget this holds of everything that a host begins, wherever the thread stands still. -/

namespace Jvm

namespace Bytecode

/-- Whether an operation returns from a subroutine. -/
def Operation.isRet : Operation → Bool
  | .ret _ => true
  | _ => false

/-- Whether no instruction of a body returns from a subroutine. -/
def Body.Straight (b : Body) : Prop := ∀ insn ∈ b.instructions, insn.operation.isRet = false

instance (b : Body) : Decidable b.Straight :=
  inferInstanceAs (Decidable (∀ insn ∈ b.instructions, insn.operation.isRet = false))

theorem Body.Straight.ne_ret {b : Body} (hb : b.Straight) (i : Nat) (index : UInt16) :
    b.operation? i ≠ some (.ret index) := by
  intro hop
  obtain ⟨insn, hinsn, hret⟩ := Option.map_eq_some_iff.1 hop
  have hstraight := hb insn (Array.mem_of_getElem? hinsn)
  rw [hret] at hstraight
  cases hstraight

end Bytecode

/-- Whether verified code has no instruction but returns from which control could leave it. -/
structure Linking.Code.Tight (c : Linking.Code) : Prop where
  wellFormed : ∃ pool type receiver, c.WellFormed pool type receiver
  straight : c.body.Straight

namespace Execution

open Linking ClassFile Bytecode

/-! ## Frames of code that control cannot leave -/

namespace Frame

/-- Whether a frame stands at an instruction, if control cannot leave its code. -/
def Due (f : Frame) : Prop := f.code.Tight → f.pc < f.code.body.size

/-- Whether there is an instruction behind the one at which a frame stands. -/
def Waits (f : Frame) : Prop := Due { f with pc := f.pc + 1 }

/-- Whether a frame fits its code and stands at an instruction. -/
structure Placed (f : Frame) : Prop where
  due : f.Due
  fits : f.Fits

variable {f g : Frame} {op : Operation}

theorem Due.of_same (h : f.Due) (hsame : f.Same g) : g.Due := by
  unfold Due at *
  rwa [hsame.code, hsame.pc]

theorem Waits.of_same (h : f.Waits) (hsame : f.Same g) : g.Waits := by
  unfold Waits Due at *
  rwa [hsame.code, hsame.pc]

theorem Waits.due (h : f.Waits) : Due { f with pc := f.pc + 1 } := h

/-- An instruction that does not end its block has another one behind it. -/
theorem waits_of_operation? (hop : f.operation? = some op) (hgoes : op.endsBlock = false) : f.Waits := by
  intro htight
  obtain ⟨pool, type, receiver, hc⟩ := htight.wellFormed
  exact hc.closed f.pc _ (.next hop hgoes)

theorem placed_enter (method : Method) (code : Code) (args : List Value) (monitor : Option Ref) :
    (Frame.enter method code args monitor).Placed where
  due htight := by
    obtain ⟨pool, type, receiver, hc⟩ := htight.wellFormed
    exact hc.starts
  fits := fits_enter method code args monitor

/-- A calculation leads to an instruction. -/
theorem due_of_calculate {x : OnFrame Target} (hop : f.operation? = some op) (hx : calculate? op = some x)
    (hsame : f.Same g) {h : Frame} {target : Target} (hrun : x g = .ok target h) :
    Due { h with pc := target.getD (h.pc + 1) } := by
  intro htight
  have hsame' : f.Same h := hsame.trans ((safe_calculate hx).same hrun).1
  change h.code.Tight at htight
  change target.getD (h.pc + 1) < h.code.body.size
  rw [hsame'.code] at htight ⊢
  rw [hsame'.pc]
  obtain ⟨pool, type, receiver, hc⟩ := htight.wellFormed
  have htables : ∀ n, op.table? = some n → (g.code.body.tables[n]?).isSome = true := fun n hn =>
    hsame.code ▸ hc.table f.pc op n hop hn
  refine hc.closed f.pc _ ?_
  have hleads := leads_of_calculate hx htables hrun
  rw [hsame.code] at hleads
  cases hleads with
  | next hgoes => exact .next hop hgoes
  | jump htarget => exact .jump hop htarget
  | switch htable ht key => exact .switch hop htable ht key
  | ret hop' => exact absurd (hop' ▸ hop) (htight.straight.ne_ret _ _)

/-- So does a handler. -/
theorem due_of_handler {row : Handler} (hrow : row ∈ f.code.handlers) (stack : Stack Value) :
    Due { f with stack, pc := row.handler } := by
  intro htight
  obtain ⟨pool, type, receiver, hc⟩ := htight.wellFormed
  exact (hc.handlers row hrow).2.2

end Frame

/-! ## Frames on top of others -/

/-- Whether frames on top of others stand at instructions, all but the topmost with one behind it. -/
def Standing (below : List Frame) (s : Stack Frame) : Prop :=
  ∃ above, s.list = above ++ below ∧ (∀ f ∈ above, f.Placed) ∧ ∀ f ∈ above.tail, f.Waits

/-- Whether frames on top of others stand at instructions. -/
def Piled (below : List Frame) (s : Stack Frame) : Prop :=
  ∃ above, s.list = above ++ below ∧ ∀ f ∈ above, f.Placed

/-- Whether there is a frame on top of others that can go on. -/
def Active (below : List Frame) (s : Stack Frame) : Prop :=
  ∃ f lower, s.list = f :: (lower ++ below) ∧ f.Placed ∧ ∀ g ∈ lower, g.Placed ∧ g.Waits

/-- Whether the topmost frame is a given one but for values. -/
def Topped (f : Frame) (lower : List Frame) (s : Stack Frame) : Prop :=
  ∃ g, s.list = g :: lower ∧ f.Same g ∧ g.Fits

/-- Whether a frame has been entered above one that is a given one but for values. -/
def Entered (f : Frame) (lower : List Frame) (s : Stack Frame) : Prop :=
  ∃ h g, s.list = h :: g :: lower ∧ h.Placed ∧ f.Same g ∧ g.Fits

section

variable {above below lower : List Frame} {s : Stack Frame} {f : Frame}

theorem standing_self (h : s.list = below) : Standing below s := ⟨[], h, by simp, by simp⟩

theorem standing_of_append (h : s.list = above ++ below) (habove : ∀ f ∈ above, f.Placed ∧ f.Waits) :
    Standing below s :=
  ⟨above, h, fun f hf => (habove f hf).1, fun f hf => (habove f (List.mem_of_mem_tail hf)).2⟩

theorem Standing.piled (h : Standing below s) : Piled below s := by
  obtain ⟨above, hs, hplaced, -⟩ := h
  exact ⟨above, hs, hplaced⟩

theorem Active.standing (h : Active below s) : Standing below s := by
  obtain ⟨f, lower, hs, hf, hlower⟩ := h
  exact ⟨f :: lower, hs, List.forall_mem_cons.2 ⟨hf, fun g hg => (hlower g hg).1⟩, fun g hg => (hlower g hg).2⟩

/-- Frames on top of frames that can go on. -/
theorem Standing.onto (h : Standing (above ++ below) s) (habove : ∀ f ∈ above, f.Placed ∧ f.Waits) :
    Standing below s := by
  obtain ⟨more, hs, hmore, htail⟩ := h
  refine ⟨more ++ above, by rw [hs, List.append_assoc], fun f hf => ?_, fun f hf => ?_⟩
  · exact (List.mem_append.1 hf).elim (hmore f) fun hf => (habove f hf).1
  · cases more with
    | nil => exact (habove f (List.mem_of_mem_tail hf)).2
    | cons g more => exact (List.mem_append.1 hf).elim (htail f) fun hf => (habove f hf).2

theorem Piled.onto (h : Piled (above ++ below) s) (habove : ∀ f ∈ above, f.Placed) : Piled below s := by
  obtain ⟨more, hs, hmore⟩ := h
  exact ⟨more ++ above, by rw [hs, List.append_assoc], fun f hf => (List.mem_append.1 hf).elim (hmore f) (habove f)⟩

theorem Topped.standing (h : Topped f (lower ++ below) s) (hf : f.Due) (hlower : ∀ g ∈ lower, g.Placed ∧ g.Waits) :
    Standing below s := by
  obtain ⟨g, hs, hsame, hfits⟩ := h
  exact Active.standing ⟨g, lower, hs, ⟨hf.of_same hsame, hfits⟩, hlower⟩

theorem Topped.fits_top (h : Topped f lower s) {g : Frame} (hg : s.top? = some g) : g.Fits := by
  obtain ⟨g', hs, -, hfits⟩ := h
  rw [Stack.top?, hs] at hg
  cases hg
  exact hfits

theorem Topped.setTop (h : Topped f lower s) {g g' : Frame} (hg : s.top? = some g) (hsame : g.Same g')
    (hfits : g'.Fits) : Topped f lower (s.setTop g') := by
  obtain ⟨k, hs, hsame', -⟩ := h
  rw [Stack.top?, hs] at hg
  cases hg
  exact ⟨g', VM.list_setTop hs, hsame'.trans hsame, hfits⟩

end

namespace Regime

/-- What a call does to the frames that it is made on. -/
def level (below : List Frame) : Regime where
  runs s := s.list = below
  failed := Standing below
  stuck := Piled below
  fails _ := standing_self
  stalls _ := Standing.piled

/-- What an instruction does to the frames below and its own frame, which it does not leave. -/
def atop (f : Frame) (lower : List Frame) : Regime where
  runs := Topped f lower
  failed s := ∃ g, f.Same g ∧ g.Fits ∧ Standing (g :: lower) s
  stuck s := ∃ g, f.Same g ∧ g.Fits ∧ Piled (g :: lower) s
  fails := fun _ ⟨g, hs, hsame, hfits⟩ => ⟨g, hsame, hfits, standing_self hs⟩
  stalls := fun _ ⟨g, hsame, hfits, hstanding⟩ => ⟨g, hsame, hfits, hstanding.piled⟩

variable {f : Frame} {lower below : List Frame} {e : Abrupt} {s : Stack Frame}

theorem blind_topped : (steady (Topped f lower)).Blind :=
  ⟨fun _ _ hs h => hs.fits_top h, fun _ _ _ hs h hsame hfits => hs.setTop h hsame hfits⟩

theorem blind_atop : (atop f lower).Blind :=
  ⟨fun _ _ hs h => hs.fits_top h, fun _ _ _ hs h hsame hfits => hs.setTop h hsame hfits⟩

theorem leads_of_standing {M : Stack Frame → Prop} (h : Standing below s) (e : Abrupt) :
    (level below).leads M (.error e) s :=
  ended_of_failed h

theorem pushes_level (n : Nat) : (level below).Pushes n (Active below) :=
  fun _ method code args monitor hs _ =>
    ⟨.enter method code args monitor, [], congrArg (List.cons _) hs, Frame.placed_enter .., by simp⟩

theorem pushes_atop (n : Nat) : (atop f lower).Pushes n (Entered f lower) := by
  rintro s method code args monitor ⟨g, hs, hsame, hfits⟩ -
  exact ⟨.enter method code args monitor, g, congrArg (List.cons _) hs, Frame.placed_enter .., hsame, hfits⟩

/-- What has ended on top of a frame that can go on has ended on top of the frames below. -/
theorem ended_level_of_atop (hf : f.Placed) (hwaits : f.Waits) (hlower : ∀ g ∈ lower, g.Placed ∧ g.Waits)
    (h : (atop f (lower ++ below)).ended e s) : (level below).ended e s := by
  have habove {g : Frame} (hsame : f.Same g) (hfits : g.Fits) : ∀ k ∈ g :: lower, k.Placed ∧ k.Waits :=
    List.forall_mem_cons.2 ⟨⟨⟨hf.due.of_same hsame, hfits⟩, hwaits.of_same hsame⟩, hlower⟩
  cases e with
  | stuck =>
    obtain ⟨g, hsame, hfits, hpiled⟩ := h
    have hpiled : Piled ((g :: lower) ++ below) s := hpiled
    exact hpiled.onto fun k hk => (habove hsame hfits k hk).1
  | thrown | raised | fault =>
    obtain ⟨g, hsame, hfits, hstanding⟩ := h
    have hstanding : Standing ((g :: lower) ++ below) s := hstanding
    exact hstanding.onto (habove hsame hfits)

end Regime

/-- Whether calls leave the frames as they are, and runs leave those that they are made on. -/
structure Context.Places (c : Context) : Prop where
  call : ∀ below, c.Serves (.level below)
  run : ∀ below, VM.Takes (Active below) (fun c m => c.run below.length m) ((Regime.level below).after fun _ => True) c

namespace VM

variable {α : Type} {d : Regime} {f : Frame} {lower below : List Frame} {op : Operation} {c : Context}

theorem serves_atop (hc : ∀ below, c.Serves (.level below)) : c.Serves (.atop f lower) := by
  intro method args m hm
  obtain ⟨g, hs, hsame, hfits⟩ := hm.frames
  have hbegin : m.Proper (Regime.level (g :: lower)).runs := ⟨hs, hm.heap, hm.registry⟩
  rcases h : call method args c m with ⟨a, m'⟩ | ⟨e, m'⟩
  · exact ⟨((hc _ method args).of_eq_ok hbegin h).1.mono fun s hs => ⟨g, hs, hsame, hfits⟩, trivial⟩
  · refine ((hc _ method args).of_eq_error hbegin h).mono fun s hs => ?_
    cases e with
    | stuck => exact ⟨g, hsame, hfits, hs⟩
    | thrown | raised | fault => exact ⟨g, hsame, hfits, hs⟩

theorem serves_piled (hc : ∀ below, c.Serves (.level below)) : c.Serves (.steady (Piled below)) := by
  intro method args m hm
  obtain ⟨above, hs, hplaced⟩ := hm.frames
  have hbegin : m.Proper (Regime.level (above ++ below)).runs := ⟨hs, hm.heap, hm.registry⟩
  rcases h : call method args c m with ⟨a, m'⟩ | ⟨e, m'⟩
  · exact ⟨((hc _ method args).of_eq_ok hbegin h).1.mono fun s hs => ⟨above, hs, hplaced⟩, trivial⟩
  · refine ((hc _ method args).of_eq_error hbegin h).mono fun s hs => ?_
    rw [Regime.ended_steady]
    exact Piled.onto (Regime.stuck_of_ended hs) hplaced

/-- A computation that asks for the number of frames, where it is known. -/
theorem takes_depth_bind {P : Stack Frame → Prop} {g : Nat → VM α} {T : Except Abrupt α → Stack Frame → Prop} (n : Nat)
    (hn : ∀ s, P s → s.list.length = n) (h : Takes P (g n) T c) : Takes P (depth >>= g) T c := by
  intro m hm
  have hdepth : depth c m = .ok n m := by
    rw [← hn _ hm.frames, ← m.frames.size_eq]
    rfl
  rw [bind_of_ok hdepth]
  exact h m hm

/-- A computation on the topmost frame, where all frames are known. -/
theorem takes_onFrame {x : OnFrame α} {g : Frame} {rest : List Frame} {T : Except Abrupt α → Stack Frame → Prop}
    (hok : ∀ a h, x g = .ok a h → ∀ s, s.list = h :: rest → T (.ok a) s)
    (herror : ∀ e h, x g = .error e h → ∀ s, s.list = h :: rest → T (.error e) s) :
    Takes (fun s => s.list = g :: rest) (onFrame x) T c := by
  intro m hm
  have hlist : m.frames.list = g :: rest := hm.frames
  unfold onFrame
  rw [Stack.top?, hlist]
  dsimp only [List.head?_cons]
  rcases h : x g with ⟨a, g'⟩ | ⟨e, g'⟩
  · exact ⟨hok a g' h _ (list_setTop hlist), hm.heap, hm.registry⟩
  · exact ⟨herror e g' h _ (list_setTop hlist), hm.heap, hm.registry⟩

/-- A computation that looks at the machine first. -/
theorem takes_reading {P : Stack Frame → Prop} {g : Machine → VM α} {T : Except Abrupt α → Stack Frame → Prop}
    (h : ∀ m : Machine, P m.frames → Takes P (g m) T c) : Takes P (getThe Machine >>= g) T c :=
  fun m hm => h m hm.frames m hm

/-- The instruction at which the topmost frame stands. -/
theorem takes_fetch {g : Frame} {rest : List Frame} : Takes (fun s => s.list = g :: rest) (onFrame fetch)
    (fun o s => s.list = g :: rest ∧ ∀ op, o = .ok op → g.operation? = some op) c := by
  rcases hop : g.operation? with _ | op
  · have hfetch := fetch_eq_error hop
    refine takes_onFrame (fun op h hrun => by cases hfetch.symm.trans hrun) fun e h hrun s hs => ⟨?_, nofun⟩
    cases hfetch.symm.trans hrun
    exact hs
  · have hfetch := fetch_eq_ok hop
    refine takes_onFrame (fun op' h hrun s hs => ?_) fun e h hrun => by cases hfetch.symm.trans hrun
    cases hfetch.symm.trans hrun
    exact ⟨hs, fun _ h => by cases h; rfl⟩

theorem takes_popFrame {g : Frame} {rest : List Frame} :
    Takes (fun s => s.list = g :: rest) (modifyThe Machine fun m => { m with frames := m.frames.pop })
      (fun _ s => s.list = rest) c := by
  intro m hm
  have hlist : m.frames.list = g :: rest := hm.frames
  exact ⟨congrArg List.tail hlist, hm.heap, hm.registry⟩

/-! ### Instructions -/

/-- What frames are like when the instruction of a frame has been run. -/
def Ran (f : Frame) (lower below : List Frame) : Except Abrupt Flow → Stack Frame → Prop
  | .ok .next => fun s => f.Waits ∧ Topped f (lower ++ below) s
  | .ok .moved => Active below
  | .ok (.done _) => fun s => s.list = below
  | .error e => (Regime.level below).ended e

/-- What frames are like after a step. -/
def Stepped (below : List Frame) : Except Abrupt (Option (Option Value)) → Stack Frame → Prop
  | .ok none => Active below
  | .ok (some _) => fun s => s.list = below
  | .error e => (Regime.level below).ended e

section

variable (hlower : ∀ g ∈ lower, g.Placed ∧ g.Waits)

include hlower

theorem ended_of_topped (hf : f.Due) {s : Stack Frame} (h : Topped f (lower ++ below) s) (e : Abrupt) :
    (Regime.level below).ended e s :=
  Regime.ended_of_failed (h.standing hf hlower)

/-- A frame goes on where a computation on it leads. -/
theorem takes_advance {x : OnFrame Target} {Q : Target → Prop} (hx : x.Fitting fun _ => True)
    (hsafe : x.Safe (fun _ => True) Q) (hf : f.Due)
    (hdue : ∀ g h target, f.Same g → x g = .ok target h → Frame.Due { h with pc := target.getD (h.pc + 1) }) :
    Takes (Topped f (lower ++ below)) (onFrame (Frame.advance x)) ((Regime.level below).leads (Active below)) c := by
  refine takes_of_each fun s ⟨g, hlist, hsame, hfits⟩ => ?_
  refine Takes.mono (P := fun s => s.list = g :: (lower ++ below)) (takes_onFrame ?_ ?_) (fun t ht => ht ▸ hlist)
    fun _ _ => id
  · rintro ⟨⟩ h hrun t ht
    have hplaced := (fitting_advance hx).fits hfits hrun
    obtain ⟨target, k, hk, rfl⟩ := Frame.advance_eq_ok hrun
    exact ⟨_, lower, ht, ⟨hdue g k target hsame hk, hplaced⟩, hlower⟩
  · intro e h hrun t ht
    have hrun := Frame.advance_eq_error hrun
    exact ended_of_topped hlower hf ⟨h, ht, hsame.trans (hsafe.same_of_error hrun), hx.fits_of_error hfits hrun⟩ e

/-- The frame below goes on behind its call. -/
theorem takes_resume {result : Option Value} (hresult : ∀ v ∈ result, v.Proper) {g : Frame} (hg : g.Placed ∧ g.Waits) :
    Takes (fun s => s.list = g :: (lower ++ below)) (onFrame do
      modify fun f : Frame => { f with pc := f.pc + 1 }
      if let some v := result then Frame.push v) ((Regime.level below).leads (Active below)) c := by
  cases result with
  | none =>
    refine takes_onFrame (fun _ h hrun s hs => ?_) fun e h hrun => by cases hrun
    cases hrun
    exact ⟨_, lower, hs, ⟨hg.2, hg.1.fits.setPc _⟩, hlower⟩
  | some v =>
    have hfits := hg.1.fits.setPc (g.pc + 1)
    have hfitting := Frame.fitting_push (hresult v rfl)
    have hsafe : (Frame.push v).Safe (fun _ => True) fun _ => True := Frame.safe_push fun _ _ => trivial
    -- pushing is all that can fail
    refine takes_onFrame (fun _ h hrun s hs => ?_) fun e h hrun s hs => ?_
    · have hrun : Frame.push v { g with pc := g.pc + 1 } = .ok () h := hrun
      exact ⟨h, lower, hs, ⟨hg.2.due.of_same (hsafe.same hrun).1, hfitting.fits hfits hrun⟩, hlower⟩
    · have hrun : Frame.push v { g with pc := g.pc + 1 } = .error e h := hrun
      exact ended_of_topped hlower hg.2 ⟨h, hs, hsafe.same_of_error hrun, hfitting.fits_of_error hfits hrun⟩ e

/-- The frame below gets the result, unless the last frame above has been left. -/
theorem takes_returnFrom {result : Option Value} (hresult : ∀ v ∈ result, v.Proper) :
    Takes (Topped f (lower ++ below)) (returnFrom below.length result) (Ran f lower below) c := by
  refine takes_of_each fun s ⟨g, hlist, _⟩ => ?_
  refine Takes.mono (P := fun s => s.list = g :: (lower ++ below)) ?_ (fun t ht => ht ▸ hlist) fun _ _ => id
  refine takes_reading fun m hm => ?_
  rw [Stack.top?, hm]
  dsimp -zeta only [List.head?_cons]
  have hended {s : Stack Frame} (hs : s.list = lower ++ below) (e : Abrupt) : (Regime.level below).ended e s :=
    Regime.ended_of_failed (standing_of_append hs hlower)
  refine takes_popFrame.bind (fun _ => ?_) fun e t ht => hended ht e
  extract_lets finish
  have hfinish : Takes (fun s => s.list = lower ++ below) (finish ()) (Ran f lower below) c := by
    refine takes_depth_bind (lower ++ below).length (fun s hs => congrArg List.length hs) ?_
    cases lower with
    | nil =>
      rw [if_pos (by simp)]
      exact takes_pure fun s hs => hs
    | cons k lower =>
      have habove : ¬((k :: lower ++ below).length == below.length) = true := by
        simp only [List.length_append, List.length_cons, beq_iff_eq]
        omega
      rw [if_neg habove]
      exact (takes_resume (fun g hg => hlower g (.tail k hg)) hresult (hlower k List.mem_cons_self)).bind
        (fun _ => takes_pure fun _ => id) fun _ _ => id
  split
  · next r _ =>
    have hmonitor : Stays (.steady fun s => s.list = lower ++ below) (leaveCallMonitor r) c :=
      keeps_leaveCallMonitor r
    exact hmonitor.thenTakes (fun _ _ => hfinish) fun e t ht => hended (by simpa using ht) e
  · exact hfinish

omit hlower in
/-- What ends a block and is no calculation either leaves its frame or throws. -/
theorem leave_or_throw (hnone : calculate? op = none) (hends : op.endsBlock ≠ false) :
    (∃ kind, op = .leave kind) ∨ op = .throw_ := by
  cases op with
  | leave kind => exact .inl ⟨kind, rfl⟩
  | throw_ => exact .inr rfl
  | jump | ret | tableSwitch | lookupSwitch => cases hnone
  | _ => exact absurd rfl hends

/-- So an instruction leads from a frame that stands at it to frames that can go on. -/
theorem takes_execute_placed (hc : ∀ below, c.Serves (.level below)) (hf : f.Placed)
    (hop : f.operation? = some op) (hnone : calculate? op = none) :
    Takes (Topped f (lower ++ below)) (execute below.length op) (Ran f lower below) c := by
  have hended {s : Stack Frame} (h : Topped f (lower ++ below) s) (e : Abrupt) : Ran f lower below (.error e) s :=
    ended_of_topped hlower hf.due h e
  by_cases hgoes : op.endsBlock = false
  · have hwaits := Frame.waits_of_operation? hop hgoes
    have hleave : ∀ kind, op ≠ .leave kind := by rintro kind rfl; cases hgoes
    refine (takes_execute (d := .atop f (lower ++ below)) Regime.blind_atop (serves_atop hc)
      (Regime.pushes_atop _) below.length hleave).mono (fun _ => id) ?_
    rintro (e | _ | _ | _) s hs
    · exact Regime.ended_level_of_atop hf hwaits hlower hs
    · exact ⟨hwaits, hs⟩
    · obtain ⟨h, g, hlist, hh, hsame, hfits⟩ := hs
      have hg : g.Placed ∧ g.Waits := ⟨⟨hf.due.of_same hsame, hfits⟩, hwaits.of_same hsame⟩
      exact ⟨h, g :: lower, hlist, hh, List.forall_mem_cons.2 ⟨hg, hlower⟩⟩
    · exact hs.elim
  -- an instruction that ends its block has nothing behind it to go on with
  have hblind : (Regime.steady (Topped f (lower ++ below))).Blind := Regime.blind_topped
  rcases leave_or_throw hnone hgoes with ⟨kind, rfl⟩ | rfl
  · refine (keeps_onFrame hblind (Calculation.fitting_popResult kind) (Calculation.safe_popResult kind)).thenTakes
      (fun result hresult => takes_returnFrom hlower hresult) fun e s hs => hended (by simpa using hs) e
  · exact (keeps_popObject hblind).thenTakes (fun r _ => takes_throw fun s hs => hended hs _) fun e s hs =>
      hended (by simpa using hs) e

/-- **A step** of a frame that stands at an instruction leads to frames that can go on. -/
theorem takes_step_placed (hc : ∀ below, c.Serves (.level below)) (hf : f.Placed) :
    Takes (fun s => s.list = f :: (lower ++ below)) (step below.length) (Stepped below) c := by
  have htopped {s : Stack Frame} (hs : s.list = f :: (lower ++ below)) : Topped f (lower ++ below) s :=
    ⟨f, hs, .refl f, hf.fits⟩
  have hended {s : Stack Frame} (h : Topped f (lower ++ below) s) (e : Abrupt) : (Regime.level below).ended e s :=
    ended_of_topped hlower hf.due h e
  have htick : Stays (.steady fun s => s.list = f :: (lower ++ below)) tick c := keeps_tick
  refine htick.thenTakes (fun _ _ => ?_) fun e s hs => hended (htopped (by simpa using hs)) e
  refine takes_fetch.bind (fun op => takes_of_each fun s hs => ?_) fun e s hs => hended (htopped hs.1) e
  have hop := hs.2 op rfl
  refine Takes.mono (P := Topped f (lower ++ below)) ?_ (fun t ht => ht ▸ htopped hs.1) fun _ _ => id
  split
  · next x hx =>
    exact (takes_advance hlower (fitting_calculate hx) (safe_calculate hx) hf.due fun _ _ _ hsame hrun =>
      Frame.due_of_calculate hop hx hsame hrun).bind (fun _ => takes_pure fun _ => id) fun _ _ => id
  · next hnone =>
    refine (takes_execute_placed hlower hc hf hop hnone).bind (fun flow => ?_) fun _ _ => id
    cases flow with
    | moved => exact takes_pure fun _ => id
    | done result => exact takes_pure fun _ => id
    | next =>
      refine takes_of_each fun t ⟨hwaits, ht⟩ => ?_
      have hadvance : Takes (Topped f (lower ++ below)) (onFrame (Frame.advance (pure none)))
          ((Regime.level below).leads (Active below)) c := by
        refine takes_advance hlower (OnFrame.fitting_pure trivial) (OnFrame.safe_pure (Q := fun _ => True) trivial)
          hf.due ?_
        rintro g h target hsame hrun
        cases hrun
        exact hwaits.of_same hsame
      exact (hadvance.mono (fun u (hu : u = t) => hu ▸ ht) fun _ _ => id).bind (fun _ => takes_pure fun _ => id)
        fun _ _ => id

end

/-! ### Handlers -/

theorem proper_leaveMonitors {heap : Heap ClassId} (hheap : heap.Proper) (thread : Nat) (frames : List Frame) :
    (leaveMonitors thread frames heap).Proper := by
  unfold leaveMonitors
  induction frames.filterMap (·.monitor) generalizing heap with
  | nil => exact hheap
  | cons r rest ih =>
    refine ih ?_
    unfold leaveOnce
    split
    · exact hheap.setMonitor r _
    · exact hheap

/-- Leaving a frame does not fail. -/
theorem takes_leaveFrame {g : Frame} {rest : List Frame} : Takes (fun s => s.list = g :: rest) leaveFrame
    (fun o s => o = .ok () ∧ s.list = rest) c := by
  intro m hm
  have hlist : m.frames.list = g :: rest := hm.frames
  obtain ⟨notes, h⟩ := leaveFrame_eq c hlist
  rw [h]
  exact ⟨⟨rfl, congrArg List.tail hlist⟩, proper_leaveMonitors hm.heap _ _, hm.registry⟩

theorem takes_leaveFrames (above : List Frame) (l : List Nat) (hl : l.length = above.length) :
    Takes (fun s => s.list = above ++ below) (forIn l PUnit.unit fun _ _ => leaveFrame >>= fun _ => pure (.yield .unit))
      (fun o s => o = .ok .unit ∧ s.list = below) c := by
  induction l generalizing above with
  | nil =>
    obtain rfl := List.length_eq_zero_iff.1 hl.symm
    exact takes_pure fun s hs => ⟨rfl, hs⟩
  | cons _ l ih =>
    rw [List.forIn_cons]
    obtain ⟨g, rest, rfl⟩ := List.exists_cons_of_length_eq_add_one hl.symm
    have hleave : Takes (fun s => s.list = g :: (rest ++ below))
        (leaveFrame >>= fun _ => pure (ForInStep.yield PUnit.unit))
        (fun o s => o = .ok (.yield .unit) ∧ s.list = rest ++ below) c :=
      takes_leaveFrame.bind_sure (takes_pure fun s hs => ⟨rfl, hs⟩)
    exact hleave.bind_sure (ih rest (by simpa using hl))

theorem takes_unwindTo (above : List Frame) : Takes (fun s => s.list = above ++ below) (unwindTo below.length)
    (fun o s => o = .ok () ∧ s.list = below) c := by
  refine takes_depth_bind (above.length + below.length) (fun s hs => by rw [hs, List.length_append]) ?_
  rw [Nat.add_sub_cancel]
  exact (takes_leaveFrames above _ List.length_range).bind_sure (takes_pure fun s hs => ⟨rfl, hs⟩)

/-- A handler that is found stands in the table of the topmost frame. -/
theorem takes_findHandler (r : Ref) (n : Note) {g : Frame} {rest : List Frame} :
    Takes (fun s => s.list = g :: rest) (notingFailure n (findHandler r))
      (fun o s => s.list = g :: rest ∧ ∀ target, o = .ok (some target) → ∃ row ∈ g.code.handlers, row.handler = target)
      c := by
  have hkeeps : Keeps (.steady fun s => s.list = g :: rest)
      (notingFailure n (do firstHandler g.cls (← classOf r) g.pc g.code.handlers))
      (fun o => ∀ target ∈ o, ∃ row ∈ g.code.handlers, row.handler = target) c :=
    ((keeps_classOf r).bind fun _ _ => keeps_firstHandler _ _ _ _).notingFailure n
  have hsearch : Takes (fun s => s.list = g :: rest) _
      (fun o s => s.list = g :: rest ∧ ∀ target, o = .ok (some target) → ∃ row ∈ g.code.handlers, row.handler = target)
      c :=
    hkeeps.takes (fun o s hs ho => ⟨hs, fun target h => ho target (by cases h; rfl)⟩)
      fun e s hs => ⟨by simpa using hs, nofun⟩
  intro m hm
  have hframe : currentFrame c m = .ok g m := by
    rw [currentFrame, bind_of_ok (getMachine c m), Stack.top?, hm.frames]
    rfl
  have hfind : notingFailure n (findHandler r) c m =
      notingFailure n (do firstHandler g.cls (← classOf r) g.pc g.code.handlers) c m := by
    unfold notingFailure findHandler
    rw [bind_of_ok hframe]
  rw [hfind]
  exact hsearch m hm

/-- A frame goes on in its handler, unless it has no room for the exception. -/
theorem takes_beginHandler (r : Ref) {g : Frame} {row : Handler} (hrow : row ∈ g.code.handlers)
    (hg : g.Placed) (hlower : ∀ k ∈ lower, k.Placed ∧ k.Waits) :
    Takes (fun s => s.list = g :: (lower ++ below)) (onFrame (Frame.beginHandler r row.handler))
      ((Regime.level below).leads (Active below)) c := by
  have hfitting := Frame.fitting_beginHandler r row.handler
  refine takes_onFrame (fun _ h hrun s hs => ?_) fun e h hrun s hs => ?_
  · have hfits := hfitting.fits hg.fits hrun
    cases Frame.beginHandler_eq_ok hrun
    exact ⟨_, lower, hs, ⟨Frame.due_of_handler hrow _, hfits⟩, hlower⟩
  · have hfits := hfitting.fits_of_error hg.fits hrun
    exact ended_of_topped hlower hg.due ⟨h, hs, Frame.same_of_beginHandler hrun, hfits⟩ e

theorem Takes.notingFailure {P : Stack Frame → Prop} {x : VM α} {T : Except Abrupt α → Stack Frame → Prop} (n : Note)
    (hx : Takes P x T c) : Takes P (notingFailure n x) T c := by
  intro m hm
  unfold VM.notingFailure
  rcases h : x c m with ⟨a, m'⟩ | ⟨e, m'⟩
  · exact hx.of_eq_ok hm h
  · have hm' := hx.of_eq_error hm h
    exact ⟨hm'.frames, hm'.heap, hm'.registry⟩

/-- An exception leads to a handler, or to the frames below. -/
theorem takes_dispatch (r : Ref) (count : Nat) (above : List Frame) (hplaced : ∀ g ∈ above, g.Placed)
    (hwaits : ∀ g ∈ above.tail, g.Waits) : Takes (fun s => s.list = above ++ below) (dispatch r below.length count)
      ((Regime.level below).leads (Active below)) c := by
  induction count generalizing above with
  | zero => exact takes_throw fun s hs => Regime.leads_of_standing ⟨above, hs, hplaced, hwaits⟩ _
  | succ count ih =>
    have hended {s : Stack Frame} (hs : s.list = above ++ below) (e : Abrupt) :
        (Regime.level below).leads (Active below) (.error e) s :=
      Regime.leads_of_standing ⟨above, hs, hplaced, hwaits⟩ e
    rw [dispatch]
    refine takes_depth_bind (above ++ below).length (fun s hs => congrArg List.length hs) ?_
    cases above with
    | nil =>
      rw [if_pos (by simp)]
      exact takes_throw_bind fun s hs => hended hs _
    | cons g lower =>
      have habove : ¬(g :: lower ++ below).length ≤ below.length := by
        simp only [List.cons_append, List.length_cons, List.length_append]
        omega
      have hlower : ∀ k ∈ lower, k.Placed ∧ k.Waits := fun k hk => ⟨hplaced k (.tail g hk), hwaits k hk⟩
      rw [if_neg habove]
      refine (takes_findHandler r _).bind (fun o => takes_of_each fun s hs => ?_) fun e s hs => hended hs.1 e
      refine Takes.mono (P := fun s => s.list = g :: lower ++ below) ?_ (fun t ht => ht ▸ hs.1) fun _ _ => id
      split
      · next target =>
        obtain ⟨row, hrow, rfl⟩ := hs.2 target rfl
        exact (takes_beginHandler r hrow (hplaced g List.mem_cons_self) hlower).notingFailure _
      · refine takes_leaveFrame.bind_sure ?_
        exact ih lower (fun k hk => (hlower k hk).1) fun k hk => (hlower k (List.mem_of_mem_tail hk)).2

/-- So does a step of any frames that can go on. -/
theorem takes_step (hc : ∀ below, c.Serves (.level below)) :
    Takes (Active below) (step below.length) (Stepped below) c :=
  takes_of_each fun _ ⟨_, _, hs, hf, hlower⟩ =>
    (takes_step_placed hlower hc hf).mono (fun _ ht => ht ▸ hs) fun _ _ => id

/-- **What has gone wrong** leads to a handler, or to the frames below, with which creating an exception may leave
others. -/
theorem takes_handle (hc : ∀ below, c.Serves (.level below)) (e : Abrupt) :
    Takes (Standing below) (handle e below.length) ((Regime.level below).leads (Active below)) c := by
  refine takes_of_each fun s ⟨above, hs, hplaced, hwaits⟩ => ?_
  refine Takes.mono (P := (Regime.level (above ++ below)).runs) ?_ (fun t ht => ht ▸ hs) fun _ _ => id
  refine (keeps_materialize (hc _) e).takes_after.attempt_bind (fun o ho => ?_) fun t ht => Piled.onto ht hplaced
  rcases o with fatal | r
  · have hpiled : Takes (Piled (above ++ below)) (unwindTo below.length) (fun o s => o = .ok () ∧ s.list = below) c :=
      takes_of_each fun t ⟨more, ht, _⟩ =>
        (takes_unwindTo (more ++ above)).mono (fun u hu => by rw [hu, ht, List.append_assoc]) fun _ _ => id
    refine Takes.bind_sure (hpiled.mono (fun t => Regime.stuck_of_ended) fun _ _ => id) ?_
    exact takes_throw fun t ht => Regime.ended_of_failed (standing_self ht)
  · refine takes_depth_bind (above ++ below).length (fun t ht => congrArg List.length ht.1) ?_
    exact (takes_dispatch r _ above hplaced hwaits).mono (fun t => And.left) fun _ _ => id

end VM

end Execution

end Jvm
