import Mathlib
import MiniJvm.Proofs.Machine.Evaluation
import MiniJvm.Proofs.Machine.Load
import MiniJvm.Proofs.Machine.Step

/-!
# What holds of every call stack

`WellStacked r frames` is the invariant of a run: each frame keeps the bounds of its method, which
is the registered one and has the constants of its class, and each frame below the top waits right
after a call that leads to the method above it. It is kept by every `Turn`, which lists what a step
of the machine does to the frames and to the counts; the same list shows that the greatest depth is
reached by calls alone.
-/

namespace MiniJvm

/-- The call stack behind a progress, also the one that a fault leaves. -/
def Progress.callStack : Progress → CallStack
  | .running c | .finished c | .stopped _ c => c

/-- The frame keeps the bounds of its method, which is the one that its signature stands for, and
it has the constants of the class of that method. -/
structure Framed (r : Registry) (f : Frame) : Prop where
  locals : f.locals.size = f.method.maxLocals.toInt
  stack : f.stack.size ≤ f.method.maxStack.toInt
  pc : f.pc ≤ f.method.code.size
  registered : r.lookupMethod f.method.signature = .ok f.method
  constants : ∃ c, r.lookupClass f.method.owner = .ok c ∧ f.pool = c.pool

/-- The frame stands right after a call that leads to `m`. -/
structure WaitsFor (r : Registry) (f : Frame) (m : Method) : Prop where
  called : 1 ≤ f.pc
  call : ∃ i pool signature, f.method.code[f.pc - 1]? = some i ∧ i.op.isInvoke = true ∧
    f.pool = some pool ∧ pool.resolve i.poolIndex = .ok signature ∧
    r.lookupMethod signature = .ok m

/-- All frames are in order, and each waits for the one above it. -/
structure WellStacked (r : Registry) (frames : Array Frame) : Prop where
  framed : ∀ f ∈ frames, Framed r f
  waits : ∀ {k below above}, frames[k]? = some below → frames[k + 1]? = some above →
    WaitsFor r below above.method

variable {r : Registry} {base : Array Frame} {f : Frame}

theorem Framed.later {g : Frame} (h : Framed r f) (hg : f.Later g) : Framed r g where
  locals := by rw [hg.locals, hg.method, h.locals]
  stack := hg.method ▸ hg.stack h.stack
  pc := hg.method ▸ hg.pc h.pc
  registered := hg.method ▸ h.registered
  constants := by
    rw [hg.method, hg.pool]
    exact h.constants

theorem wellStacked_empty (r : Registry) : WellStacked r #[] :=
  ⟨fun _ h => (Array.not_mem_empty _ h).elim, nofun⟩

/-- Only the frame right below the new one has to wait for it. -/
theorem wellStacked_push_iff : WellStacked r (base.push f) ↔
    WellStacked r base ∧ Framed r f ∧
      ∀ below, base.back? = some below → WaitsFor r below f.method := by
  have hback : base.back? = base[base.size - 1]? := Array.back?_eq_getElem?
  constructor
  · intro h
    refine ⟨⟨fun g hg => h.framed g (Array.mem_push_of_mem f hg), fun {k below above} hk hk' => ?_⟩,
      h.framed f Array.mem_push_self, fun below hbelow => ?_⟩
    · have hlt := (Array.getElem?_eq_some_iff.1 hk').1
      refine h.waits (k := k) ?_ ?_
      · rwa [Array.getElem?_push, if_neg (by omega)]
      · rwa [Array.getElem?_push, if_neg (by omega)]
    · rw [hback] at hbelow
      have hlt := (Array.getElem?_eq_some_iff.1 hbelow).1
      refine h.waits (k := base.size - 1) ?_ ?_
      · rwa [Array.getElem?_push, if_neg (by omega)]
      · rw [Array.getElem?_push, if_pos (by omega)]
  · rintro ⟨h, hf, hlast⟩
    refine ⟨fun g hg => ?_, fun {k below above} hk hk' => ?_⟩
    · rcases Array.mem_push.1 hg with hg | rfl
      · exact h.framed g hg
      · exact hf
    · rw [Array.getElem?_push] at hk hk'
      have hlt : k + 1 ≤ base.size := by
        split at hk'
        · omega
        · exact (Array.getElem?_eq_some_iff.1 hk').1.le
      rw [if_neg (by omega)] at hk
      split at hk'
      · rename_i hlast'
        cases hk'
        refine hlast below ?_
        rwa [hback, ← hlast', Nat.add_sub_cancel]
      · exact h.waits hk hk'

theorem WellStacked.later {g : Frame} (h : WellStacked r (base.push f)) (hg : f.Later g) :
    WellStacked r (base.push g) := by
  obtain ⟨hbase, hf, hlast⟩ := wellStacked_push_iff.1 h
  exact wellStacked_push_iff.2 ⟨hbase, hf.later hg, fun below hb => hg.method ▸ hlast below hb⟩

/-! ## Steps of the machine -/

namespace CallStack

/-- What a step does to the frames `base.push f` of a machine with the counts `s`. -/
inductive Turn (r : Registry) (base : Array Frame) (f : Frame) (s : Stats) :
    Array Frame → Stats → Prop where
  | stays {g : Frame} : f.Later g → Turn r base f s (base.push g) (ticked s f)
  | leaves : Turn r base f s base (ticked s f)
  | delivers {rest : Array Frame} {caller back : Frame} : base = rest.push caller →
      caller.Later back → Turn r base f s (rest.push back) (ticked s f)
  | calls {i : Instruction} {pool : Pool} {signature : Bytes} {special : Bool}
      {callee left : Frame} : f.next? = some i → i.op.isInvoke = true → f.pool = some pool →
      pool.resolve i.poolIndex = .ok signature →
      Calls r f.advance signature special callee left →
      Turn r base f s ((base.push left).push callee) (entered (ticked s f) base.size)

variable {c : CallStack} {s : Stats} {result : Option Int32}

theorem callFrame_later (r : Registry) (caller : Frame) (signature : Bytes) (special : Bool) :
    caller.Later (callFrame r caller signature special).2 := by
  unfold callFrame
  split
  · exact .refl caller
  · rename_i m pool _
    dsimp only
    have hpop := (Frame.gives_popArgs (if special then m.argSlots + 1 else m.argSlots) caller).1
    split
    · rename_i hp
      rwa [hp] at hpop
    · rename_i hp
      rw [hp] at hpop
      split <;> exact hpop

/-- The value goes to the frame below, or becomes the result. -/
theorem Shows.receive (h : Shows c r base (ticked s f) result) (v : Int32) :
    (c.receive v).callStack.registry = r ∧
      Turn r base f s (c.receive v).callStack.frames (c.receive v).callStack.stats := by
  unfold CallStack.receive
  rw [h.frames]
  cases hback : base.back? with
  | none =>
    refine ⟨h.registry, ?_⟩
    change Turn r base f s base c.stats
    rw [h.stats]
    exact .leaves
  | some caller =>
    obtain ⟨rest, rfl⟩ := Array.back?_eq_some_iff.1 hback
    have hlater := (Frame.gives_push v caller).1
    dsimp only
    rcases hp : Frame.push v caller with ⟨why | u, back⟩ <;> rw [hp] at hlater <;>
      have hrest := h.drop.restore back <;>
      refine ⟨hrest.registry, ?_⟩ <;>
      dsimp only [Progress.callStack] <;>
      rw [hrest.frames, hrest.stats] <;>
      exact .delivers rfl hlater

/-- A step of a machine with frames is a turn. -/
theorem Shows.turn (h : Shows c r (base.push f) s result) :
    c.step.callStack.registry = r ∧
      Turn r base f s c.step.callStack.frames c.step.callStack.stats := by
  obtain ⟨d, hd, hrun⟩ := h.step
  rw [hrun]
  have hstay : ∀ {g}, f.Later g → (d.restore g).registry = r ∧
      Turn r base f s (d.restore g).frames (d.restore g).stats := by
    intro g hg
    have hrest := hd.restore g
    rw [hrest.frames, hrest.stats]
    exact ⟨hrest.registry, .stays hg⟩
  have hstepped := Frame.stepped f
  rcases hstep : Frame.step f with ⟨why | _ | _ | v | ⟨signature, special⟩, g⟩ <;>
    rw [hstep] at hstepped <;> dsimp only
  · cases hstepped with
    | stops hg => exact hstay hg
  · cases hstepped with
    | goes hg _ => exact hstay hg
  · have hreport := hd.report (.ended g.method.signature)
    refine ⟨hreport.registry, ?_⟩
    dsimp only [handle, Progress.callStack]
    rw [hreport.frames, hreport.stats]
    exact .leaves
  · exact (hd.report (.returned g.method.signature v)).receive v
  · cases hstepped with
    | goes _ hno => exact absurd rfl (hno _ _)
    | @calls i pool _ hi hinvoke hpool hresolve =>
      rcases calls_or_fails r f.advance signature
          (decide (i.op = Mnemonic.invokespecial.opcode)) with ⟨callee, left, hc⟩ | ⟨why, hfail⟩
      · obtain ⟨e, he, hhandle⟩ := hd.handleCall hc
        rw [hhandle]
        dsimp only [Progress.callStack]
        rw [he.frames, he.stats]
        exact ⟨he.registry, .calls hi hinvoke hpool hresolve hc⟩
      · obtain ⟨left, hleft⟩ := callFrame_of_callFails hfail
        have hlater := callFrame_later r f.advance signature
          (decide (i.op = Mnemonic.invokespecial.opcode))
        rw [hleft] at hlater
        have hhandle : d.handle f.advance (.invoke signature
            (decide (i.op = Mnemonic.invokespecial.opcode))) = .stopped why (d.restore left) := by
          rw [handle, hd.registry, hleft]
        rw [hhandle]
        exact hstay ((Frame.later_advance hi).trans hlater)

/-! ## The invariant -/

theorem framed_starts {m : Method} {c : Class} {signature : Bytes} {args : List Int32}
    (hkeyed : ∀ {key m}, r.methods.get? key = some m → m.signature = key)
    (hm : r.methods.get? signature = some m) (hc : r.classes.get? m.owner = some c)
    (h : Frame.Starts m c.pool args f) : f.method = m ∧ Framed r f := by
  obtain rfl := h.method
  refine ⟨rfl, h.size_locals, ?_, ?_, ?_, c, ?_, h.pool⟩
  · rw [h.stack]
    exact h.stackSpace.1
  · rw [h.pc]
    exact Nat.zero_le _
  · rw [Registry.lookupMethod, hkeyed hm, hm]
  · rw [Registry.lookupClass, hc]

theorem Turn.wellStacked (hkeyed : ∀ {key m}, r.methods.get? key = some m → m.signature = key)
    {frames : Array Frame} {t : Stats} (ht : Turn r base f s frames t)
    (h : WellStacked r (base.push f)) : WellStacked r frames := by
  have hbase := (wellStacked_push_iff.1 h).1
  cases ht with
  | stays hg => exact h.later hg
  | leaves => exact hbase
  | delivers heq hlater =>
    subst heq
    exact hbase.later hlater
  | @calls i pool signature special callee left hi hinvoke hpool hresolve hcall =>
    cases hcall with
    | @mk m cls below args _ hm hcls hs hn hf =>
      obtain ⟨rfl, hcallee⟩ := framed_starts hkeyed hm hcls hf
      have hlater : f.Later { f.advance with stack := below.toArray } := by
        refine (Frame.later_advance hi).trans ⟨rfl, rfl, rfl, fun hroom => ?_, id⟩
        have hlen := congrArg List.length hs
        rw [Array.length_toList, List.length_append] at hlen
        dsimp only
        rw [List.size_toArray]
        omega
      refine wellStacked_push_iff.2 ⟨h.later hlater, hcallee, fun below' hbelow => ?_⟩
      rw [Array.back?_push, Option.some.injEq] at hbelow
      subst hbelow
      refine ⟨Nat.le_add_left 1 f.pc, i, pool, signature, ?_, hinvoke, hpool, hresolve, ?_⟩
      · exact hi
      · rw [Registry.lookupMethod, hm]

/-- A deeper stack comes from a call, and the greatest depth follows it. -/
theorem Turn.depth {frames : Array Frame} {t : Stats} (ht : Turn r base f s frames t) :
    (frames.size ≤ base.size + 1 ∧ t.maxDepth = s.maxDepth ∧ t.invocations = s.invocations) ∨
      (frames.size = base.size + 2 ∧ t.maxDepth = max s.maxDepth (base.size + 2) ∧
        t.invocations = s.invocations + 1) := by
  cases ht with
  | stays => exact .inl ⟨by rw [Array.size_push], rfl, rfl⟩
  | leaves => exact .inl ⟨Nat.le_succ _, rfl, rfl⟩
  | delivers heq =>
    subst heq
    refine .inl ⟨?_, rfl, rfl⟩
    simp only [Array.size_push]
    omega
  | calls => exact .inr ⟨by simp only [Array.size_push], rfl, rfl⟩

/-- A turn executes at most one instruction, and without one it does not call. -/
theorem Turn.counts {frames : Array Frame} {t : Stats} (ht : Turn r base f s frames t) :
    t.instructions ≤ s.instructions + 1 ∧
      t.invocations + s.instructions ≤ s.invocations + t.instructions := by
  have hone : (Stats.single f).instructions ≤ 1 := by
    simp only [Stats.single]
    split <;> omega
  cases ht with
  | stays | leaves | delivers => exact ⟨Nat.add_le_add_left hone _, by dsimp only [ticked]; omega⟩
  | calls hi =>
    have hnext : (Stats.single f).instructions = 1 := by
      rw [Stats.single, hi]
      rfl
    dsimp only [entered, ticked]
    omega

/-! ## Runs -/

/-- The machine after `n` steps. -/
def after (c : CallStack) (n : Nat) : CallStack := (c.run n).callStack

/-- One step more is a turn, unless nothing is left to do. -/
theorem after_succ (hr : (c.after n).registry = r) :
    (c.after (n + 1)).registry = r ∧ (c.after (n + 1) = c.after n ∨
      ∃ base f, (c.after n).frames = base.push f ∧
        Turn r base f (c.after n).stats (c.after (n + 1)).frames (c.after (n + 1)).stats) := by
  have hrun : c.after (n + 1) = (resume 1 (c.run n)).callStack := by rw [after, run_add]
  cases hp : c.run n with
  | finished d =>
    have hd : c.after n = d := by rw [after, hp]; rfl
    rw [hrun, hp, hd]
    exact ⟨hd ▸ hr, .inl rfl⟩
  | stopped why d =>
    have hd : c.after n = d := by rw [after, hp]; rfl
    rw [hrun, hp, hd]
    exact ⟨hd ▸ hr, .inl rfl⟩
  | running d =>
    have hd : c.after n = d := by rw [after, hp]; rfl
    have hstep : c.after (n + 1) = d.step.callStack := by rw [hrun, hp, resume, run_one]
    rw [hstep, hd]
    rw [hd] at hr
    cases hback : d.frames.back? with
    | none =>
      have hend : d.step = .finished d := by rw [step, hback]
      rw [hend]
      exact ⟨hr, .inl rfl⟩
    | some f =>
      obtain ⟨base, hframes⟩ := Array.back?_eq_some_iff.1 hback
      obtain ⟨hreg, hturn⟩ := Shows.turn (c := d) ⟨hr, hframes, rfl, rfl⟩
      exact ⟨hreg, .inr ⟨base, f, hframes, hturn⟩⟩

theorem after_registry (hr : c.registry = r) (n : Nat) : (c.after n).registry = r := by
  induction n with
  | zero => exact hr
  | succ n ih => exact (after_succ ih).1

theorem after_wellStacked (hkeyed : ∀ {key m}, r.methods.get? key = some m → m.signature = key)
    (hr : c.registry = r) (h : WellStacked r c.frames) (n : Nat) :
    WellStacked r (c.after n).frames := by
  induction n with
  | zero => exact h
  | succ n ih =>
    rcases (after_succ (after_registry hr n)).2 with hsame | ⟨base, f, hframes, hturn⟩
    · rwa [hsame]
    · rw [hframes] at ih
      exact hturn.wellStacked hkeyed ih

/-- The greatest depth that is counted after `n` steps is that of the deepest stack so far, and
only a call makes it greater. -/
structure Deepest (c : CallStack) (n : Nat) : Prop where
  bounds : ∀ k ≤ n, (c.after k).depth ≤ (c.after n).stats.maxDepth
  reached : ∃ k ≤ n, (c.after k).depth = (c.after n).stats.maxDepth
  calls : (c.after n).stats.maxDepth ≤ (c.after n).stats.invocations + 1

theorem Deepest.succ {n : Nat} (h : Deepest c n) : Deepest c (n + 1) := by
  obtain ⟨k, hk, hreached⟩ := h.reached
  have hlast := h.bounds n (Nat.le_refl n)
  have hcalls := h.calls
  have hbounds : ∀ {depth}, (c.after n).stats.maxDepth ≤ depth → (c.after (n + 1)).depth ≤ depth →
      ∀ k ≤ n + 1, (c.after k).depth ≤ depth := by
    intro depth hmax hnew k hk
    rcases Nat.le_or_eq_of_le_succ hk with hk | rfl
    · exact (h.bounds k hk).trans hmax
    · exact hnew
  rcases (after_succ (c := c) (n := n) rfl).2 with hsame | ⟨base, f, hframes, hturn⟩
  · rw [← hsame] at hlast hcalls hreached hbounds
    exact ⟨hbounds (Nat.le_refl _) hlast, ⟨k, Nat.le_succ_of_le hk, hreached⟩, hcalls⟩
  · have hdepth : (c.after n).depth = base.size + 1 := by rw [depth, hframes, Array.size_push]
    rcases hturn.depth with ⟨hsize, hmax, hinv⟩ | ⟨hsize, hmax, hinv⟩
    · rw [← hmax] at hlast hcalls hreached hbounds
      rw [← hinv] at hcalls
      refine ⟨hbounds (Nat.le_refl _) ?_, ⟨k, Nat.le_succ_of_le hk, hreached⟩, hcalls⟩
      exact hsize.trans (hdepth ▸ hlast)
    · rw [hdepth] at hlast
      have hnew : (c.after (n + 1)).depth = base.size + 2 := hsize
      refine ⟨hbounds (by omega) (by omega), ?_, by omega⟩
      by_cases hdeeper : (c.after n).stats.maxDepth ≤ base.size + 2
      · exact ⟨n + 1, Nat.le_refl _, by omega⟩
      · exact ⟨k, Nat.le_succ_of_le hk, by omega⟩

theorem after_deepest (hdepth : c.depth = 1) (hstats : c.stats = { maxDepth := 1 }) (n : Nat) :
    Deepest c n := by
  induction n with
  | zero =>
    have hzero : c.after 0 = c := rfl
    refine ⟨fun k hk => ?_, ⟨0, Nat.le_refl 0, ?_⟩, ?_⟩
    · rw [Nat.le_zero.1 hk, hzero, hdepth, hstats]
    · rw [hzero, hdepth, hstats]
    · rw [hzero, hstats]
  | succ n ih => exact ih.succ

theorem after_counts (hstats : c.stats = { maxDepth := 1 }) (n : Nat) :
    (c.after n).stats.instructions ≤ n ∧
      (c.after n).stats.invocations ≤ (c.after n).stats.instructions := by
  induction n with
  | zero =>
    have hzero : c.after 0 = c := rfl
    rw [hzero, hstats]
    exact ⟨Nat.le_refl 0, Nat.le_refl 0⟩
  | succ n ih =>
    rcases (after_succ (c := c) (n := n) rfl).2 with hsame | ⟨base, f, -, hturn⟩
    · rw [hsame]
      exact ⟨Nat.le_succ_of_le ih.1, ih.2⟩
    · have hcounts := hturn.counts
      omega

end CallStack

namespace Registry

theorem start_ok {entry : Bytes} {args : List Int32} {trace : Bool} {c : CallStack}
    (h : r.start entry args trace = .ok c) :
    ∃ m cls f, r.methods.get? entry = some m ∧ r.classes.get? m.owner = some cls ∧
      Frame.Starts m cls.pool args f ∧ c = (CallStack.create r trace).push f := by
  cases hm : r.methods.get? entry with
  | none => rw [start, CallStack.find_noMethod hm] at h; cases h
  | some m =>
    cases hcls : r.classes.get? m.owner with
    | none => rw [start, CallStack.find_noClass hm hcls] at h; cases h
    | some cls =>
      rw [start_eq hm hcls] at h
      cases hf : Frame.create m cls.pool args with
      | error why => rw [hf] at h; cases h
      | ok f =>
        rw [hf] at h
        exact ⟨m, cls, f, rfl, hcls, Frame.create_ok_iff.1 hf, (Except.ok.inj h).symm⟩

theorem Owned.keyed {defs : List ClassDef} (h : Owned defs r) {key : Bytes} {m : Method}
    (hm : r.methods.get? key = some m) : m.signature = key := by
  obtain ⟨c, hc, hcm⟩ := h.methods hm
  obtain ⟨d, -, hd⟩ := h.classes hc
  exact (hd.methods hcm).1

theorem wellStacked_after {defs : List ClassDef} (hload : load defs = .ok r) {entry : Bytes}
    {args : List Int32} {trace : Bool} {c : CallStack} (hstart : r.start entry args trace = .ok c)
    (n : Nat) : WellStacked r (c.after n).frames := by
  obtain ⟨m, cls, f, hm, hcls, hf, rfl⟩ := start_ok hstart
  have hkeyed : ∀ {key m}, r.methods.get? key = some m → m.signature = key :=
    (load_owned hload).keyed
  have hstacked : WellStacked r (#[].push f) :=
    wellStacked_push_iff.2
      ⟨wellStacked_empty r, (CallStack.framed_starts hkeyed hm hcls hf).2, nofun⟩
  exact CallStack.after_wellStacked hkeyed rfl hstacked n

/-- After any number of steps of a run over loaded classes, and also where a fault stopped it, all
frames are in order and wait for each other's calls, and the counts tell the greatest depth. -/
theorem run_wellStacked {defs : List ClassDef} (hload : load defs = .ok r) {entry : Bytes}
    {args : List Int32} {trace : Bool} {c : CallStack} (hstart : r.start entry args trace = .ok c)
    (n : Nat) : WellStacked r (c.after n).frames ∧ c.Deepest n := by
  refine ⟨wellStacked_after hload hstart n, ?_⟩
  obtain ⟨m, cls, f, hm, hcls, hf, rfl⟩ := start_ok hstart
  exact CallStack.after_deepest rfl rfl n

/-- A run of `fuel` steps counts at most as many instructions, no more calls than instructions, and
no depth that its calls do not explain. -/
theorem execute_counts {fuel : Nat} {entry : Bytes} {args : List Int32} {trace : Bool}
    {status : ExitStatus} (h : (r.execute fuel entry args trace).outcome = .ended status) :
    status.stats.instructions ≤ fuel ∧ status.stats.invocations ≤ status.stats.instructions ∧
      status.stats.maxDepth ≤ status.stats.invocations + 1 := by
  cases hstart : r.start entry args trace with
  | error why =>
    rw [execute_start_error hstart] at h
    cases why with
    | crash => cases h
    | fault =>
      cases h
      exact ⟨Nat.zero_le _, Nat.zero_le _, Nat.zero_le _⟩
  | ok c =>
    have hstats : status.stats = (c.after fuel).stats := by
      rw [execute_start_ok hstart] at h
      rw [CallStack.after]
      cases hp : c.run fuel with
      | running d => rw [hp] at h; cases h
      | finished d => rw [hp] at h; cases h; rfl
      | stopped why d =>
        rw [hp] at h
        cases why with
        | crash => cases h
        | fault => cases h; rfl
    obtain ⟨m, cls, f, -, -, -, rfl⟩ := start_ok hstart
    have hcounts := CallStack.after_counts (c := (CallStack.create r trace).push f) rfl fuel
    have hdeepest := CallStack.after_deepest (c := (CallStack.create r trace).push f) rfl rfl fuel
    rw [hstats]
    exact ⟨hcounts.1, hcounts.2, hdeepest.calls⟩

/-- A method that has no room for what the method it calls returns. -/
def crowded : ClassDef :=
  { name := "A"
    pool := some
      [.placeholder, .methodRef 2 3, .classRef 4, .nameAndType 5 6, .utf8 "A", .utf8 "one",
        .utf8 "()I"]
    methods := some
      [⟨"one", "()I", 1, 0, some [.plain .iconst1, .plain .ireturn]⟩,
        ⟨"main", "()V", 1, 2, some [.plain .iconst0, .invokestatic 1, .plain .returnVoid]⟩] }

theorem run_wellStacked_crowded :
    ∃ r c, load [crowded] = .ok r ∧ r.start "A.main:()V" [7] false = .ok c ∧
      (c.after 2).depth = 2 ∧ (c.after 5).depth = 1 ∧ (c.after 5).stats.maxDepth = 2 ∧
      ∀ n, WellStacked r (c.after n).frames ∧ c.Deepest n := by
  have hchecked : ∃ r ∈ (load [crowded]).toOption,
      ∃ c ∈ (r.start "A.main:()V" [7] false).toOption, (c.after 2).depth = 2 ∧
        (c.after 5).depth = 1 ∧ (c.after 5).stats.maxDepth = 2 := by decide +kernel
  obtain ⟨r, hload, c, hstart, hdepth⟩ := hchecked
  have hload := eq_ok_of_mem_toOption hload
  have hstart := eq_ok_of_mem_toOption hstart
  exact ⟨r, c, hload, hstart, hdepth.1, hdepth.2.1, hdepth.2.2,
    fun n => run_wellStacked hload hstart n⟩

end Registry

end MiniJvm
