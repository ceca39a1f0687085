import Mathlib
import MiniJvm.Proofs.Machine.FailedCall
import MiniJvm.Proofs.Machine.LastDefinition

/-!
# Where faults are raised

A fault tells its place: the frame that is on top when a run stops belongs to the method that the
fault names and stands right behind the instruction that it names, or right behind the call that
led to what it names (`execute_fault_located`). This holds for a caller that was suspended long
before as well, because nothing changes a frame below the top.
-/

namespace MiniJvm

variable {α β : Type}

namespace Frame

/-! ## Instructions that fail -/

/-- The frame is at the same place in the same code. -/
structure SamePlace (f g : Frame) : Prop where
  method : g.method = f.method
  pool : g.pool = f.pool
  pc : g.pc = f.pc
  current : g.current = f.current

theorem SamePlace.refl (f : Frame) : SamePlace f f := ⟨rfl, rfl, rfl, rfl⟩

theorem SamePlace.trans {f g h : Frame} (hg : SamePlace f g) (hh : SamePlace g h) :
    SamePlace f h :=
  ⟨hh.method.trans hg.method, hh.pool.trans hg.pool, hh.pc.trans hg.pc,
    hh.current.trans hg.current⟩

theorem SamePlace.faultAt {f g : Frame} (h : SamePlace f g) (cause : FaultCause) :
    g.faultAt cause = f.faultAt cause := by
  rw [Frame.faultAt, Frame.faultAt, h.method, h.current]

/-- Where the operation fails, it breaks a rule at the current instruction and leaves the frame at
its place. -/
def FailsInPlace (x : FrameM α) : Prop :=
  ∀ f why g, x f = (.error why, g) → SamePlace f g ∧ ∃ cause, why = f.faultAt cause

/-- The operation leaves the frame at its place also where it does not fail. -/
structure InPlace (x : FrameM α) : Prop where
  ok : ∀ {f a g}, x f = (.ok a, g) → SamePlace f g
  fails : FailsInPlace x

theorem failsInPlace_pure (a : α) : FailsInPlace (pure a : FrameM α) := fun _ _ _ => nofun

theorem failsInPlace_raise (cause : FaultCause) : FailsInPlace (raise cause : FrameM α) := by
  intro f why g h
  cases h
  exact ⟨.refl f, cause, rfl⟩

theorem InPlace.bind {x : FrameM α} {k : α → FrameM β} (h : InPlace x)
    (hk : ∀ a, FailsInPlace (k a)) : FailsInPlace (x >>= k) := by
  intro f why g hfail
  rw [bind_apply] at hfail
  rcases hx : x f with ⟨_ | a, f'⟩ <;> rw [hx] at hfail
  · cases hfail
    exact h.fails f why g hx
  · have hplace := h.ok hx
    obtain ⟨hplace', cause, rfl⟩ := hk a f' why g hfail
    exact ⟨hplace.trans hplace', cause, hplace.faultAt cause⟩

/-- What comes after the operation cannot fail. A jump may have left the place then. -/
theorem FailsInPlace.andPure {x : FrameM α} (h : FailsInPlace x) (b : β) :
    FailsInPlace (x >>= fun _ => pure b) := by
  intro f why g hfail
  rw [bind_apply] at hfail
  rcases hx : x f with ⟨_ | a, f'⟩ <;> rw [hx] at hfail <;> cases hfail
  exact h f why g hx

theorem inPlace_push (v : Int32) : InPlace (push v) := by
  constructor <;> intro f _ g h <;> rw [push_apply] at h <;> split at h <;> cases h
  · exact ⟨rfl, rfl, rfl, rfl⟩
  · exact ⟨.refl f, _, rfl⟩

theorem inPlace_pop : InPlace pop := by
  constructor <;> intro f _ g h <;> rw [pop_apply] at h <;> split at h <;> cases h
  · exact ⟨rfl, rfl, rfl, rfl⟩
  · exact ⟨.refl f, _, rfl⟩

theorem inPlace_load (slot : Int) : InPlace (load slot) := by
  constructor <;> intro f _ g h <;> rw [load_apply] at h <;> split at h
  · cases h
  · split at h <;> cases h
    exact .refl f
  · cases h
    exact ⟨.refl f, _, rfl⟩
  · split at h <;> cases h
    exact ⟨.refl f, _, rfl⟩

theorem inPlace_store (slot : Int) (v : Int32) : InPlace (store slot v) := by
  constructor <;> intro f _ g h <;> rw [store_apply] at h <;> split at h <;> cases h
  · exact ⟨rfl, rfl, rfl, rfl⟩
  · exact ⟨.refl f, _, rfl⟩

theorem failsInPlace_jump (target : Int32) : FailsInPlace (jump target) := by
  intro f why g h
  rw [jump_apply] at h
  split at h <;> cases h
  exact ⟨.refl f, _, rfl⟩

theorem failsInPlace_execute {i : Instruction} (h : i.op.isInvoke = false) :
    FailsInPlace (execute i) := by
  have hgoOn : FailsInPlace (pure none : FrameM (Option Signal)) := failsInPlace_pure none
  unfold execute
  cases hm : i.op.mnemonic? with
  | none => exact failsInPlace_raise _
  | some m =>
    rw [Opcode.isInvoke, hm] at h
    cases m <;> dsimp only
    case iconstM1 | iconst0 | iconst1 | iconst2 | iconst3 | iconst4 | iconst5 | bipush | sipush =>
      exact (inPlace_push _).bind fun _ => hgoOn
    case iload | iload0 | iload1 | iload2 | iload3 | aload0 =>
      exact (inPlace_load _).bind fun v => (inPlace_push v).bind fun _ => hgoOn
    case istore | istore0 | istore1 | istore2 | istore3 =>
      exact inPlace_pop.bind fun v => (inPlace_store _ v).bind fun _ => hgoOn
    case iinc => exact (inPlace_load _).bind fun v => (inPlace_store _ _).bind fun _ => hgoOn
    case iadd =>
      exact inPlace_pop.bind fun _ => inPlace_pop.bind fun _ =>
        (inPlace_push _).bind fun _ => hgoOn
    case goto => exact (failsInPlace_jump _).andPure none
    case ifIcmplt =>
      refine inPlace_pop.bind fun right => inPlace_pop.bind fun left => ?_
      by_cases hlt : left < right
      · simp only [if_pos hlt]
        exact (failsInPlace_jump _).andPure none
      · simp only [if_neg hlt]
        exact hgoOn
    case returnVoid => exact failsInPlace_pure _
    case ireturn => exact inPlace_pop.bind fun v => failsInPlace_pure _
    case invokestatic | invokespecial => cases h

/-- A step that fails stands right behind its instruction, which broke a rule or is a call of a
constant without a text. -/
theorem step_error {f g : Frame} {why : Stop} {pool : Pool} (hpool : f.pool = some pool)
    (h : step f = (.error why, g)) :
    ∃ i, f.next? = some i ∧ SamePlace f.advance g ∧ ((∃ cause, why = f.advance.faultAt cause) ∨
      i.op.isInvoke = true ∧ ∃ e, pool.resolve i.poolIndex = .error e ∧
        why = .fault (.constant f.method.signature f.pc i.op e)) := by
  rw [step_apply] at h
  cases hi : f.next? with
  | none => rw [hi] at h; cases h
  | some i =>
    rw [hi] at h
    change execute i f.advance = (.error why, g) at h
    refine ⟨i, rfl, ?_⟩
    cases hcall : i.op.isInvoke with
    | false =>
      obtain ⟨hplace, hcause⟩ := failsInPlace_execute hcall f.advance why g h
      exact ⟨hplace, .inl hcause⟩
    | true =>
      have hpool' : f.advance.pool = some pool := hpool
      rw [execute_invoke hcall, callee_apply, hpool'] at h
      dsimp only at h
      cases hr : pool.resolve i.poolIndex with
      | ok signature => rw [hr] at h; cases h
      | error e =>
        rw [hr] at h
        cases h
        exact ⟨.refl _, .inr ⟨rfl, e, rfl, rfl⟩⟩

end Frame

/-! ## Places -/

def LookupError.name : LookupError → Bytes
  | .classNotFound name => name
  | .methodNotFound signature => signature

namespace Fault

/-- The fault was raised by the frame: by the instruction that the frame has just passed, or by
what that instruction calls. -/
def RaisedAt (top : Frame) : Fault → Prop
  | .constant signature pc op e => top.method.signature = signature ∧ top.pc = pc + 1 ∧
      ∃ i pool, top.Behind i pool ∧ i.op = op ∧ pool.resolve i.poolIndex = .error e
  | .lookup e => ∃ i pool, top.Behind i pool ∧ pool.resolve i.poolIndex = .ok e.name
  | .frame x =>
    match x.pc with
    | some pc => top.method.signature = x.signature ∧ top.pc = pc + 1 ∧
        ∃ i, top.method.code[pc]? = some i ∧ i.op = x.op
    | none => ∃ i pool, top.Behind i pool ∧ pool.resolve i.poolIndex = .ok x.signature

/-- The fault was raised for the entry, before there was a frame. -/
def RaisedFor (entry : Bytes) : Fault → Prop
  | .constant .. => False
  | .lookup e => e.name = entry
  | .frame x => x.pc = none ∧ x.signature = entry

theorem raisedAt_faultAt {f top : Frame} {cause : FaultCause} {x : Fault} {i : Instruction}
    (hmethod : top.method = f.method) (hpc : top.pc = f.current + 1)
    (hi : f.method.code[f.current]? = some i) (h : f.faultAt cause = .fault x) :
    x.RaisedAt top := by
  cases h
  refine ⟨congrArg Method.signature hmethod, hpc, i, hmethod ▸ hi, ?_⟩
  rw [hi]
  rfl

end Fault

namespace CallStack

variable {r : Registry} {c d : CallStack} {base frames : Array Frame} {f left : Frame}
  {s t : Stats} {n k : Nat} {x : Fault}

/-! ## Frames below the top -/

/-- A turn leaves the frames below the top as they are, but for the one that it suspends. -/
theorem Turn.below (ht : Turn r base f s frames t) (hk : k + 1 < frames.size) :
    (k < base.size ∧ frames[k]? = base[k]?) ∨
      (k = base.size ∧ ∃ stack, frames[k]? = some { f.advance with stack }) := by
  cases ht with
  | @stays g _ =>
    rw [Array.size_push] at hk
    exact .inl ⟨by omega, by rw [Array.getElem?_push, if_neg (by omega)]⟩
  | leaves => exact .inl ⟨by omega, rfl⟩
  | @delivers rest caller back heq _ =>
    subst heq
    rw [Array.size_push] at hk
    refine .inl ⟨by rw [Array.size_push]; omega, ?_⟩
    rw [Array.getElem?_push, if_neg (by omega), Array.getElem?_push, if_neg (by omega)]
  | @calls i pool signature special callee left _ _ _ _ hcall =>
    rw [Array.size_push, Array.size_push] at hk
    have hpush : ((base.push left).push callee)[k]? = (base.push left)[k]? := by
      rw [Array.getElem?_push, if_neg (by rw [Array.size_push]; omega)]
    rw [hpush, Array.getElem?_push]
    by_cases hlast : k = base.size
    · cases hcall with
      | @mk m cls below args _ hm hcls hs hn hf =>
        exact .inr ⟨hlast, below.toArray, by rw [if_pos hlast]⟩
    · exact .inl ⟨by omega, by rw [if_neg hlast]⟩

/-- Each frame below the top stands right behind the instruction that it executed last. -/
def Passed (frames : Array Frame) : Prop :=
  ∀ {k f}, frames[k]? = some f → k + 1 < frames.size → f.current + 1 = f.pc

theorem Turn.passed (ht : Turn r base f s frames t) (h : Passed (base.push f)) :
    Passed frames := by
  intro k g hg hk
  rcases ht.below hk with ⟨hlt, hsame⟩ | ⟨-, stack, hnew⟩
  · refine h (k := k) ?_ (by rw [Array.size_push]; omega)
    rw [Array.getElem?_push, if_neg (by omega), ← hsame, hg]
  · cases hg.symm.trans hnew
    rfl

theorem after_passed (h : Passed c.frames) (n : Nat) : Passed (c.after n).frames := by
  induction n with
  | zero => exact h
  | succ n ih =>
    rcases (after_succ (c := c) (n := n) rfl).2 with hsame | ⟨base, f, hframes, hturn⟩
    · rwa [hsame]
    · exact hturn.passed (hframes ▸ ih)

/-- Frame `k` was on top, a step before the `n`-th suspended it, and since then it has been below
the top, as it is now. -/
def SuspendedSince (c : CallStack) (n k : Nat) : Prop :=
  ∃ j < n, (c.after j).depth = k + 1 ∧ ∀ i, j < i → i ≤ n →
    k + 1 < (c.after i).depth ∧ (c.after i).frames[k]? = (c.after n).frames[k]?

theorem SuspendedSince.succ (h : SuspendedSince c n k) (hk : k + 1 < (c.after (n + 1)).depth)
    (hsame : (c.after (n + 1)).frames[k]? = (c.after n).frames[k]?) :
    SuspendedSince c (n + 1) k := by
  obtain ⟨j, hj, htop, hsince⟩ := h
  refine ⟨j, Nat.lt_succ_of_lt hj, htop, fun i hji hi => ?_⟩
  rcases Nat.le_or_eq_of_le_succ hi with hi | rfl
  · obtain ⟨hdepth, heq⟩ := hsince i hji hi
    exact ⟨hdepth, heq.trans hsame.symm⟩
  · exact ⟨hk, rfl⟩

/-- Nothing changes a frame below the top. The induction is on the steps: a step adds at most one
frame to those below the top, the one that it suspends. -/
theorem suspendedSince_after (hc : c.depth ≤ 1) (n : Nat) {k : Nat}
    (hk : k + 1 < (c.after n).depth) : SuspendedSince c n k := by
  induction n generalizing k with
  | zero =>
    have hzero : c.after 0 = c := rfl
    rw [hzero] at hk
    omega
  | succ n ih =>
    rcases (after_succ (c := c) (n := n) rfl).2 with hsame | ⟨base, f, hframes, hturn⟩
    · exact (ih (hsame ▸ hk)).succ hk (by rw [hsame])
    have hdepth : (c.after n).depth = base.size + 1 := by rw [depth, hframes, Array.size_push]
    rcases hturn.below hk with ⟨hlt, hbelow⟩ | ⟨rfl, -⟩
    · refine (ih (by omega)).succ hk ?_
      rw [hbelow, hframes, Array.getElem?_push, if_neg (by omega)]
    · refine ⟨n, Nat.lt_succ_self n, hdepth, fun i hji hi => ?_⟩
      obtain rfl : i = n + 1 := by omega
      exact ⟨hk, rfl⟩

/-! ## The step that stops -/

/-- Every method stands under its own signature, and its class is loaded and has constants. -/
structure Furnished (r : Registry) : Prop where
  keyed : ∀ {key m}, r.methods.get? key = some m → m.signature = key
  constants : ∀ {key m}, r.methods.get? key = some m →
    ∃ cls pool, r.classes.get? m.owner = some cls ∧ cls.pool = some pool

theorem furnished_load {defs : List ClassDef} (h : Registry.load defs = .ok r) : Furnished r where
  keyed := (Registry.load_owned h).keyed
  constants hm := by
    obtain ⟨cls, d, hcls, -, -, hpool, -⟩ := Registry.owner_of_load h hm
    exact ⟨cls, _, hcls, hpool⟩

theorem Furnished.pool (hr : Furnished r) (h : Framed r f) : ∃ pool, f.pool = some pool := by
  obtain ⟨cls, pool, hcls, hpool⟩ := hr.constants (Registry.lookupMethod_ok_iff.1 h.registered)
  obtain ⟨cls', hcls', hf⟩ := h.constants
  cases (Registry.lookupClass_ok_iff.1 hcls').symm.trans hcls
  exact ⟨pool, hf.trans hpool⟩

/-- A call that fails does so right behind its caller's instruction. -/
theorem raisedAt_callFrame (hr : Furnished r) {i : Instruction} {pool : Pool} {signature : Bytes}
    {special : Bool} (hi : f.next? = some i) (hcall : i.op.isInvoke = true)
    (hpool : f.pool = some pool) (hresolve : pool.resolve i.poolIndex = .ok signature)
    (h : callFrame r f.advance signature special = (.error (.fault x), left)) :
    x.RaisedAt left := by
  obtain ⟨hfails, hleft⟩ := callFrame_error h
  obtain ⟨stack, rfl⟩ : ∃ stack, left = { f.advance with stack } := by
    rcases hleft with rfl | ⟨-, -, below, -, -, -, -, -, -, rfl⟩
    · exact ⟨f.stack, rfl⟩
    · exact ⟨below.toArray, rfl⟩
  have hbehind : Frame.Behind { f.advance with stack } i pool :=
    ⟨Nat.le_add_left 1 f.pc, hi, hcall, hpool⟩
  generalize hwhy : Stop.fault x = why at hfails
  cases hfails with
  | noMethod _ =>
    cases hwhy
    exact ⟨i, pool, hbehind, hresolve⟩
  | noClass hm hnone =>
    obtain ⟨cls, -, hcls, -⟩ := hr.constants hm
    cases hcls.symm.trans hnone
  | negative => cases hwhy
  | missing => exact Fault.raisedAt_faultAt rfl rfl hi hwhy.symm
  | refused hm _ _ _ hf =>
    subst hwhy
    obtain ⟨-, rfl⟩ := hf.fault
    refine ⟨i, pool, hbehind, ?_⟩
    rw [hr.keyed hm]
    exact hresolve

/-- Where a returned value finds no room, the caller stands right behind its call. -/
theorem raisedAt_receive {caller : Frame} {m : Method} {v : Int32} (hframes : c.frames = base)
    (hback : base.back? = some caller) (hwaits : WaitsFor r caller m)
    (hpassed : caller.current + 1 = caller.pc) (h : c.receive v = .stopped (.fault x) d) :
    d.frames = base ∧ x.RaisedAt caller := by
  obtain ⟨rest, rfl⟩ := Array.back?_eq_some_iff.1 hback
  obtain ⟨i, -, -, hi, -⟩ := hwaits.call
  rw [← hpassed, Nat.add_sub_cancel] at hi
  rw [receive, hframes, hback] at h
  by_cases hfull : caller.method.maxStack.toInt ≤ caller.stack.size
  · simp only [Frame.push_apply, if_pos hfull, Progress.stopped.injEq] at h
    obtain ⟨hwhy, rfl⟩ := h
    refine ⟨?_, Fault.raisedAt_faultAt rfl hpassed.symm hi hwhy⟩
    change c.frames.pop.push caller = rest.push caller
    rw [hframes, Array.pop_push]
  · simp only [Frame.push_apply, if_neg hfull, reduceCtorEq] at h

/-- The machine stops with a fault that the frame on top has raised. -/
theorem raisedAt_step (hr : Furnished r) (hreg : c.registry = r) (hstacked : WellStacked r c.frames)
    (hpassed : Passed c.frames) (h : c.step = .stopped (.fault x) d) :
    ∃ (base : Array Frame) (top : Frame), d.frames = base.push top ∧ x.RaisedAt top := by
  cases hback : c.frames.back? with
  | none =>
    rw [step, hback] at h
    cases h
  | some f =>
    obtain ⟨base, hframes⟩ := Array.back?_eq_some_iff.1 hback
    rw [hframes] at hstacked hpassed
    obtain ⟨-, hframed, hwaits⟩ := wellStacked_push_iff.1 hstacked
    obtain ⟨pool, hpool⟩ := hr.pool hframed
    obtain ⟨e, he, hrun⟩ := Shows.step (c := c) ⟨hreg, hframes, rfl, rfl⟩
    rw [hrun] at h
    have hstepped := Frame.stepped f
    rcases hstep : Frame.step f with ⟨why | _ | _ | v | ⟨signature, special⟩, g⟩ <;>
      rw [hstep] at h hstepped <;> dsimp only at h
    · cases h
      refine ⟨base, g, (he.restore g).frames, ?_⟩
      obtain ⟨i, hi, hplace, ⟨cause, hcause⟩ | ⟨hcall, err, hresolve, hcause⟩⟩ :=
        Frame.step_error hpool hstep
      · exact Fault.raisedAt_faultAt hplace.method hplace.pc hi hcause.symm
      · cases hcause
        have hbehind : g.Behind i pool :=
          ⟨hplace.pc ▸ Nat.le_add_left 1 f.pc, by rw [hplace.pc, hplace.method]; exact hi, hcall,
            hplace.pool.trans hpool⟩
        exact ⟨congrArg Method.signature hplace.method, hplace.pc, i, pool, hbehind, rfl, hresolve⟩
    · cases h
    · cases h
    · have hreport := he.report (.returned g.method.signature v)
      cases hcaller : base.back? with
      | none =>
        rw [handle, receive, hreport.frames, hcaller] at h
        cases h
      | some caller =>
        obtain ⟨rest, hbase⟩ := Array.back?_eq_some_iff.1 hcaller
        have hbelow : caller.current + 1 = caller.pc := by
          refine hpassed (k := rest.size) ?_ ?_
          · rw [hbase, Array.getElem?_push, if_neg (by rw [Array.size_push]; omega),
              Array.getElem?_push, if_pos rfl]
          · rw [hbase, Array.size_push, Array.size_push]
            omega
        obtain ⟨hd, hx⟩ := raisedAt_receive hreport.frames hcaller (hwaits caller hcaller) hbelow h
        exact ⟨rest, caller, hd.trans hbase, hx⟩
    · cases hstepped with
      | goes _ hno => exact absurd rfl (hno _ _)
      | @calls i pool' _ hi hcall hpool' hresolve =>
        rw [handle, he.registry] at h
        rcases hframe : callFrame r f.advance signature
            (decide (i.op = Mnemonic.invokespecial.opcode)) with ⟨why | ⟨callee, args⟩, left⟩ <;>
          rw [hframe] at h <;> cases h
        exact ⟨base, left, (he.restore left).frames,
          raisedAt_callFrame hr hi hcall hpool' hresolve hframe⟩

/-- Wherever a run is stopped by a fault, the frame on top has raised it. -/
theorem raisedAt_run (hr : Furnished r) (hreg : c.registry = r) (hstacked : WellStacked r c.frames)
    (hpassed : Passed c.frames) (n : Nat) (h : c.run n = .stopped (.fault x) d) :
    ∃ (base : Array Frame) (top : Frame), d.frames = base.push top ∧ x.RaisedAt top := by
  induction n with
  | zero => cases h
  | succ n ih =>
    rw [run_add] at h
    cases hn : c.run n with
    | finished e => rw [hn] at h; cases h
    | stopped why e =>
      rw [hn] at h
      exact ih (hn.trans h)
    | running e =>
      have he : c.after n = e := by rw [after, hn]; rfl
      rw [hn, resume, run_one] at h
      refine raisedAt_step hr ?_ ?_ ?_ h
      · exact he ▸ after_registry hreg n
      · exact he ▸ after_wellStacked hr.keyed hreg hstacked n
      · exact he ▸ after_passed hpassed n

end CallStack

namespace Registry

open CallStack

variable {defs : List ClassDef} {r : Registry} {entry : Bytes} {args : List Int32} {trace : Bool}
  {x : Fault}

theorem raisedFor_start (hr : Furnished r) (h : r.start entry args trace = .error (.fault x)) :
    x.RaisedFor entry := by
  cases hm : r.methods.get? entry with
  | none =>
    rw [start, find_noMethod hm] at h
    cases h
    rfl
  | some m =>
    obtain ⟨cls, pool, hcls, -⟩ := hr.constants hm
    rw [start_eq hm hcls] at h
    rcases hf : Frame.create m cls.pool args with why | f <;> rw [hf] at h <;> cases h
    obtain ⟨-, rfl⟩ := (Frame.create_error_iff.1 hf).fault
    exact ⟨rfl, hr.keyed hm⟩

/-- A run that a fault ends tells where. If there was no frame yet, the fault is about the entry.
Otherwise the frame on top raised it, at the instruction that the fault names or by the call right
before its place, and every frame below is as it was when it was suspended. -/
theorem execute_fault_located (hload : load defs = .ok r) {fuel : Nat} {status : ExitStatus}
    (h : (r.execute fuel entry args trace).outcome = .ended status)
    (hfault : status.fault = some x) :
    (r.start entry args trace = .error (.fault x) ∧ x.RaisedFor entry) ∨
      ∃ (c d : CallStack) (base : Array Frame) (top : Frame),
        r.start entry args trace = .ok c ∧ c.run fuel = .stopped (.fault x) d ∧
        d.frames = base.push top ∧ r.lookupMethod top.method.signature = .ok top.method ∧
        x.RaisedAt top ∧ ∀ k < base.size, c.SuspendedSince fuel k := by
  have hr := furnished_load hload
  cases hstart : r.start entry args trace with
  | error why =>
    rw [execute_start_error hstart] at h
    cases why with
    | crash y => cases h
    | fault y =>
      cases h
      cases hfault
      exact .inl ⟨rfl, raisedFor_start hr hstart⟩
  | ok c =>
    rw [execute_start_ok hstart] at h
    have hstacked := wellStacked_after hload hstart
    obtain ⟨m, cls, f, -, -, -, rfl⟩ := start_ok hstart
    cases hrun : ((CallStack.create r trace).push f).run fuel with
    | running d => rw [hrun] at h; cases h
    | finished d =>
      rw [hrun] at h
      cases h
      cases hfault
    | stopped why d =>
      rw [hrun] at h
      rcases why with y | y <;> cases h
      cases hfault
      have hd : ((CallStack.create r trace).push f).after fuel = d := by rw [after, hrun]; rfl
      have hone : Passed ((CallStack.create r trace).push f).frames := by
        intro k g _ hk
        have hsize : ((CallStack.create r trace).push f).frames.size = 1 := rfl
        omega
      obtain ⟨base, top, hframes, hx⟩ := raisedAt_run hr rfl (hstacked 0) hone fuel hrun
      have htop := hd ▸ hstacked fuel
      rw [hframes] at htop
      refine .inr ⟨_, d, base, top, rfl, hrun, hframes,
        (wellStacked_push_iff.1 htop).2.1.registered, hx, fun k hk => ?_⟩
      refine suspendedSince_after (c := (CallStack.create r trace).push f) (Nat.le_refl 1) fuel ?_
      rw [hd, depth, hframes, Array.size_push]
      omega

/-- `main` calls `full`, which has no room for what it gets from `one`. -/
def brimful : ClassDef :=
  { name := "A"
    pool := some
      [.placeholder, .methodRef 2 3, .classRef 4, .nameAndType 5 6, .utf8 "A", .utf8 "one",
        .utf8 "()I", .methodRef 2 8, .nameAndType 9 10, .utf8 "full", .utf8 "()V"]
    methods := some
      [⟨"one", "()I", 1, 0, some [.plain .iconst1, .plain .ireturn]⟩,
        ⟨"full", "()V", 1, 0, some [.plain .iconst0, .invokestatic 1, .plain .returnVoid]⟩,
        ⟨"main", "()V", 1, 0, some [.plain .iconst2, .invokestatic 7, .plain .returnVoid]⟩] }

theorem execute_fault_located_brimful :
    ∃ (r : Registry) (status : ExitStatus) (x : FrameFault) (c d : CallStack)
      (base : Array Frame) (top : Frame), load [brimful] = .ok r ∧
      (r.execute 6 "A.main:()V" [] false).outcome = .ended status ∧
      status.fault = some (.frame x) ∧ x.cause = .fullStack 1 ∧
      r.start "A.main:()V" [] false = .ok c ∧ c.run 6 = .stopped (.fault (.frame x)) d ∧
      d.frames = base.push top ∧ base.size = 1 ∧ top.method.signature = ("A.full:()V" : Bytes) ∧
      top.pc = 2 ∧ x.pc = some 1 ∧ Fault.RaisedAt top (.frame x) ∧ c.SuspendedSince 6 0 := by
  have hchecked : ∃ r ∈ (load [brimful]).toOption,
      ∃ c ∈ (r.start "A.main:()V" [] false).toOption, (c.after 6).depth = 2 ∧
        (r.execute 6 "A.main:()V" [] false).outcome = .ended
          { fault := some (.frame ⟨.fullStack 1, "A.full:()V", some 1, ⟨184⟩⟩), result := none,
            stats := ⟨6, 2, 3⟩ } := by
    decide +kernel
  obtain ⟨r, hload, c, hstart, hdepth, hrun⟩ := hchecked
  have hload := eq_ok_of_mem_toOption hload
  have hstart := eq_ok_of_mem_toOption hstart
  rcases execute_fault_located hload hrun rfl with ⟨hnone, -⟩ |
    ⟨c', d, base, top, hstart', hstop, hframes, -, hx, hbelow⟩
  · cases hstart.symm.trans hnone
  · cases hstart.symm.trans hstart'
    have hd : c.after 6 = d := by rw [CallStack.after, hstop]; rfl
    rw [hd, depth, hframes, Array.size_push] at hdepth
    exact ⟨r, _, _, c, d, base, top, hload, hrun, rfl, rfl, hstart, hstop, hframes, by omega,
      hx.1, hx.2.1, rfl, hx, hbelow 0 (by omega)⟩

end Registry

end MiniJvm
