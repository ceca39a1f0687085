import Mathlib
import MiniJvm.Proofs.Assembly.StackDepth
import MiniJvm.Proofs.Machine.Evaluation
import MiniJvm.Proofs.Machine.Safety

/-!
# Sound registries

In a sound registry every method has depths that fit together, and what a call takes and leaves is
what the called method wants and returns. No frame of a run breaks a rule then: the running frame
has as many values as the depth before its next instruction says, and each frame below it lacks
just the value that the frame above it will return (`execute_sound`).
-/

namespace MiniJvm

open Assembly

/-- The values that a method returns. -/
def Method.pushes (m : Method) : Nat := if m.void then 0 else 1

/-- A call with effect `e` takes what `m` wants and leaves what it returns. -/
structure CallFits (m : Method) (special : Bool) (e : Effect) : Prop where
  pops : (m.callSlots special).toInt = e.pops
  locals : e.pops ≤ m.maxLocals.toInt
  pushes : e.pushes = m.pushes

/-- The code of a method keeps the rules with these depths. -/
structure Verified (r : Registry) (m : Method) (pool : Pool) (depth : Nat → Option Nat) :
    Prop where
  stackSize : 0 ≤ m.maxStack.toInt
  balanced : Balanced pool m.code m.maxStack.toInt.toNat depth
  known : ∀ i ∈ m.code, i.op.known = true
  slots : ∀ i ∈ m.code, ∀ slot, i.slot? = some slot → 0 ≤ slot ∧ slot < m.maxLocals.toInt
  noValue : m.void = true → ∀ i ∈ m.code, i.op ≠ Mnemonic.ireturn.opcode
  value : m.void = false → ∀ pc, Reachable m.code pc →
    ∃ i, m.code[pc]? = some i ∧ i.op ≠ Mnemonic.returnVoid.opcode
  calls : ∀ {pc i e signature callee}, i ∈ m.code → i.op.isInvoke = true →
    stackEffect pool pc i = .ok e → pool.resolve i.poolIndex = .ok signature →
    r.methods.get? signature = some callee →
    CallFits callee (decide (i.op = Mnemonic.invokespecial.opcode)) e

/-- Every registered method keeps the rules with the constants of its class. -/
def Registry.Sound (r : Registry) : Prop :=
  ∀ ⦃signature m⦄, r.methods.get? signature = some m → ∃ c pool depth,
    r.classes.get? m.owner = some c ∧ c.pool = some pool ∧ Verified r m pool depth

/-- The frame is at a reachable instruction, and has the values that are expected there but for the
`gap` that is still to come. -/
structure Fits (r : Registry) (f : Frame) (pool : Pool) (depth : Nat → Option Nat) (gap : Nat) :
    Prop where
  constants : f.pool = some pool
  verified : Verified r f.method pool depth
  locals : f.locals.size = f.method.maxLocals.toInt
  reachable : Reachable f.method.code f.pc
  arrives : Arrives f.method.code.size depth (f.stack.size + gap) f.pc
  room : (f.stack.size + gap : Nat) ≤ f.method.maxStack.toInt

namespace Fits

variable {r : Registry} {f : Frame} {pool : Pool} {depth : Nat → Option Nat}

theorem allowed (h : Fits r f pool depth 0) {i : Instruction} (hi : f.next? = some i) :
    ∃ e, Frame.Allowed pool f i e ∧ (f.stack.size - e.pops + e.pushes : Nat) ≤
        f.method.maxStack.toInt ∧
      ∀ t ∈ successors f.pc i, Arrives f.method.code.size depth
        (f.stack.size - e.pops + e.pushes) t := by
  have hmem : i ∈ f.method.code := Array.mem_of_getElem? hi
  obtain ⟨hlt, -⟩ := Array.getElem?_eq_some_iff.1 hi
  obtain ⟨k, hk, -, hdepth⟩ := h.arrives
  cases Int.ofNat.inj hk
  obtain ⟨e, he, hpops, hroom, htargets⟩ := h.verified.balanced.respects f.pc (hdepth hlt) hi
  have hroom' : (f.stack.size - e.pops + e.pushes : Nat) ≤ f.method.maxStack.toInt := by
    have := h.verified.stackSize
    rw [Nat.add_zero] at hroom
    omega
  refine ⟨e, ⟨h.constants, h.verified.known i hmem, he, hpops, hroom', fun slot hs => ?_,
    fun t ht => ?_⟩, hroom', htargets⟩
  · rw [h.locals]
    exact h.verified.slots i hmem slot hs
  · obtain ⟨n, rfl, hn, -⟩ := htargets t ht
    omega

/-- Where the instruction goes on, the frame fits with what it has then. -/
theorem goOn (h : Fits r f pool depth 0) {i : Instruction} (hi : f.next? = some i) {e : Effect}
    (hroom : (f.stack.size - e.pops + e.pushes : Nat) ≤ f.method.maxStack.toInt)
    (harrive : ∀ t ∈ successors f.pc i,
      Arrives f.method.code.size depth (f.stack.size - e.pops + e.pushes) t)
    {g : Frame} {n gap : Nat} {t : Int} (ht : t ∈ successors f.pc i) (hg : f.Moved g n t)
    (hn : n + gap = f.stack.size - e.pops + e.pushes) : Fits r g pool depth gap where
  constants := hg.pool.trans h.constants
  verified := hg.method ▸ h.verified
  locals := by rw [hg.locals, hg.method, h.locals]
  reachable := by
    rw [hg.method]
    exact h.reachable.step hi (mem_successors_iff.1 (hg.pc ▸ ht))
  arrives := by
    rw [hg.stack, hn, hg.method, hg.pc]
    exact harrive t ht
  room := by
    rw [hg.stack, hn, hg.method]
    exact hroom

end Fits

/-- What a frame that fits does next. -/
inductive Behaves (r : Registry) (f : Frame) (pool : Pool) (depth : Nat → Option Nat) :
    Option Signal → Frame → Prop where
  | next {g : Frame} : Fits r g pool depth 0 → g.method = f.method →
      Behaves r f pool depth none g
  | ended {g : Frame} : f.method.void = true → Behaves r f pool depth (some .ended) g
  | returned {v : Int32} {g : Frame} : f.method.void = false →
      Behaves r f pool depth (some (.returned v)) g
  | invoked {signature : Bytes} {special : Bool} {g : Frame} : g.method = f.method →
      (∀ callee, r.methods.get? signature = some callee →
        ∃ e, CallFits callee special e ∧ e.pops ≤ g.stack.size ∧
          ∀ stack : Array Int32, stack.size + e.pops = g.stack.size →
            Fits r { g with stack } pool depth callee.pushes) →
      Behaves r f pool depth (some (.invoke signature special)) g

theorem next_mem_successors {pc : Nat} {i : Instruction} (h : i.op.isInvoke = true) :
    (pc : Int) + 1 ∈ successors pc i := by
  obtain ⟨m, hop⟩ : ∃ m : Mnemonic, i.op = m.opcode := by
    refine Code.known_iff.1 ?_
    rw [Opcode.isInvoke] at h
    rw [Opcode.known]
    cases hm : i.op.mnemonic? with
    | none => rw [hm] at h; cases h
    | some m => rfl
  rw [hop, Opcode.isInvoke, Mnemonic.mnemonic?_opcode] at h
  rw [Frame.successors_eq pc hop]
  cases m <;> simp [Mnemonic.isInvoke] at h ⊢

theorem Fits.step {r : Registry} {f : Frame} {pool : Pool} {depth : Nat → Option Nat}
    (h : Fits r f pool depth 0) : Frame.Safe (Behaves r f pool depth) (Frame.step f) := by
  rw [Frame.step_apply]
  cases hi : f.next? with
  | none =>
    refine Behaves.ended ?_
    by_contra hvoid
    obtain ⟨i, hi', -⟩ := h.verified.value (by simpa using hvoid) f.pc h.reachable
    cases hi.symm.trans hi'
  | some i =>
    have hmem : i ∈ f.method.code := Array.mem_of_getElem? hi
    obtain ⟨e, hallowed, hroom, harrive⟩ := h.allowed hi
    refine hallowed.execute.mono fun o g hg => ?_
    cases hg with
    | next ht hmoved => exact .next (h.goOn hi hroom harrive ht hmoved rfl) hmoved.method
    | ended hop =>
      refine .ended ?_
      by_contra hvoid
      obtain ⟨j, hj, hne⟩ := h.verified.value (by simpa using hvoid) f.pc h.reachable
      cases hi.symm.trans hj
      exact hne hop
    | returned hop =>
      refine .returned ?_
      by_contra hvoid
      exact h.verified.noValue (by simpa using hvoid) i hmem hop
    | invoked hinvoke hr =>
      refine .invoked rfl fun callee hcallee => ?_
      have hfits := h.verified.calls hmem hinvoke hallowed.effect hr hcallee
      refine ⟨e, hfits, hallowed.pops, fun stack hstack => ?_⟩
      have hstack' : stack.size + e.pops = f.stack.size := hstack
      refine h.goOn hi hroom harrive (next_mem_successors hinvoke) (n := stack.size)
        ⟨rfl, rfl, rfl, rfl, rfl⟩ ?_
      rw [← hfits.pushes]
      omega

/-! ## Frames of calls -/

theorem foreign_refuses {m : Method} {args : List Int32} {why : Stop}
    (hargs : args.length ≤ m.maxLocals.toInt) (h : Frame.Refuses m args why) : why.Foreign := by
  cases h with
  | excess hlt => omega
  | localSpace | stackSpace => exact nofun

/-- The frame of a new activation fits. -/
theorem fits_starts {r : Registry} {m : Method} {pool : Pool} {depth : Nat → Option Nat}
    (hm : Verified r m pool depth) {args : List Int32} {f : Frame}
    (h : Frame.Starts m (some pool) args f) : Fits r f pool depth 0 := by
  obtain rfl := h.method
  refine ⟨h.pool, hm, h.size_locals, h.pc ▸ .start, ?_, ?_⟩
  · rw [h.stack, h.pc]
    exact ⟨0, rfl, Nat.zero_le _, hm.balanced.start⟩
  · rw [h.stack]
    exact hm.stackSize

/-- The frames below a running frame of `m`: each waits for what the one above it returns. -/
inductive Suspended (r : Registry) : Method → Array Frame → Prop where
  | bottom (m : Method) : Suspended r m #[]
  | waiting {m : Method} {f : Frame} {base : Array Frame} {pool : Pool} {depth : Nat → Option Nat} :
      Fits r f pool depth m.pushes → Suspended r f.method base → Suspended r m (base.push f)

/-- The frames of a run: none, or a running one that fits on top of suspended ones. -/
inductive Healthy (r : Registry) : Array Frame → Prop where
  | empty : Healthy r #[]
  | running {f : Frame} {base : Array Frame} {pool : Pool} {depth : Nat → Option Nat} :
      Fits r f pool depth 0 → Suspended r f.method base → Healthy r (base.push f)

/-- Without a returned value the frame below goes on as it is. -/
theorem Suspended.healthy {r : Registry} {m : Method} {base : Array Frame}
    (h : Suspended r m base) (hm : m.pushes = 0) : Healthy r base := by
  cases h with
  | bottom => exact .empty
  | waiting hf hbase => exact .running (hm ▸ hf) hbase

theorem Fits.deliver {r : Registry} {f : Frame} {pool : Pool} {depth : Nat → Option Nat}
    (h : Fits r f pool depth 1) (v : Int32) :
    ∃ g, f.deliver (some v) = .ok g ∧ Fits r g pool depth 0 ∧ g.method = f.method := by
  have hroom := h.room
  refine ⟨{ f with stack := f.stack.push v }, ?_, ⟨h.constants, h.verified, h.locals, h.reachable,
    ?_, ?_⟩, rfl⟩
  · rw [Frame.deliver, if_neg (by omega)]
  · have harrive := h.arrives
    rwa [← Array.size_push v] at harrive
  · have hsize : (f.stack.push v).size = f.stack.size + 1 := Array.size_push v
    rw [hsize]
    exact hroom

namespace CallStack

variable {r : Registry} {c : CallStack}

/-- What a step of a healthy machine may lead to. -/
def Keeps (r : Registry) : Progress → Prop
  | .running d | .finished d => d.registry = r ∧ Healthy r d.frames
  | .stopped why _ => why.Foreign

theorem receive_keeps {m : Method} {base : Array Frame} (hm : m.pushes = 1)
    (hr : c.registry = r) (hc : c.frames = base) (h : Suspended r m base) (v : Int32) :
    Keeps r (c.receive v) := by
  have hshows : Shows c r base c.stats c.result := ⟨hr, hc, rfl, rfl⟩
  cases h with
  | bottom =>
    rw [receive, hc]
    exact ⟨hr, .empty⟩
  | waiting hf hbase =>
    rw [hm] at hf
    obtain ⟨g, hdel, hg, hmethod⟩ := hf.deliver v
    obtain ⟨d, hd, hrun⟩ := hshows.settle_ok hdel
    have hrun' : c.receive v = .running d := hrun
    rw [hrun']
    refine ⟨hd.registry, ?_⟩
    rw [hd.frames]
    exact .running hg (hmethod ▸ hbase)

/-- A call from a frame that fits with what the call takes and leaves. -/
theorem handle_keeps (hsound : r.Sound) {base : Array Frame} {g : Frame} {pool : Pool}
    {depth : Nat → Option Nat} {signature : Bytes} {special : Bool} (hr : c.registry = r)
    (hc : c.frames = base) (hbase : Suspended r g.method base)
    (hcall : ∀ callee, r.methods.get? signature = some callee →
      ∃ e, CallFits callee special e ∧ e.pops ≤ g.stack.size ∧
        ∀ stack : Array Int32, stack.size + e.pops = g.stack.size →
          Fits r { g with stack } pool depth callee.pushes) :
    Keeps r (c.handle g (.invoke signature special)) := by
  have hshows : Shows c r base c.stats c.result := ⟨hr, hc, rfl, rfl⟩
  rcases calls_or_fails r g signature special with ⟨callee, left, hcalls⟩ | ⟨why, hfails⟩
  · obtain ⟨d, hd, hrun⟩ := hshows.handleCall hcalls
    rw [hrun]
    refine ⟨hd.registry, ?_⟩
    rw [hd.frames]
    cases hcalls with
    | @mk m cls below args _ hm hcls hs hn hf =>
      obtain ⟨e, hfits, -, hleft⟩ := hcall m hm
      obtain ⟨cls', pool', depth', hcls', hpool', hverified⟩ := hsound hm
      cases hcls.symm.trans hcls'
      rw [hpool'] at hf
      have hcallee := fits_starts hverified hf
      have hsize : below.toArray.size + e.pops = g.stack.size := by
        have hpops := hfits.pops
        have hlen := congrArg List.length hs
        rw [Array.length_toList, List.length_append] at hlen
        rw [List.size_toArray]
        omega
      exact .running hcallee (hf.method ▸ .waiting (hleft _ hsize) hbase)
  · obtain ⟨d, -, hrun⟩ := hshows.handleCallFails hfails
    rw [hrun]
    change why.Foreign
    cases hfails with
    | noMethod | noClass | negative => exact nofun
    | missing hm hcls hn hlt =>
      obtain ⟨e, hfits, hpops, -⟩ := hcall _ hm
      have := hfits.pops
      omega
    | refused hm hcls hs hn hf =>
      obtain ⟨e, hfits, -⟩ := hcall _ hm
      refine foreign_refuses ?_ hf
      rw [← hn, hfits.pops]
      exact hfits.locals

theorem step_keeps (hsound : r.Sound) (hr : c.registry = r) (h : Healthy r c.frames) :
    Keeps r c.step := by
  generalize hframes : c.frames = frames at h
  cases h with
  | empty =>
    rw [step, hframes]
    exact ⟨hr, hframes ▸ .empty⟩
  | @running f base pool depth hf hbase =>
    have hshows : Shows c r (base.push f) c.stats c.result := ⟨hr, hframes, rfl, rfl⟩
    obtain ⟨d, hd, hrun⟩ := hshows.step
    rw [hrun]
    have hbehaves := hf.step
    rcases hstep : Frame.step f with ⟨why | o, g⟩
    · rw [hstep] at hbehaves
      exact hbehaves
    · rw [hstep] at hbehaves
      cases hbehaves with
      | next hg hmethod =>
        have hrestored := hd.restore g
        refine ⟨hrestored.registry, ?_⟩
        rw [hrestored.frames]
        exact .running hg (hmethod ▸ hbase)
      | ended hvoid =>
        have hreported := hd.report (.ended g.method.signature)
        refine ⟨hreported.registry, ?_⟩
        rw [hreported.frames]
        exact hbase.healthy (by rw [Method.pushes, hvoid]; rfl)
      | @returned v _ hvoid =>
        have hreported := hd.report (.returned g.method.signature v)
        exact receive_keeps (by rw [Method.pushes, hvoid]; rfl) hreported.registry
          hreported.frames hbase v
      | invoked hmethod hcall =>
        exact handle_keeps hsound hd.registry hd.frames (hmethod ▸ hbase) hcall

theorem run_keeps (hsound : r.Sound) (n : Nat) (hr : c.registry = r) (h : Healthy r c.frames) :
    Keeps r (c.run n) := by
  induction n generalizing c with
  | zero => exact ⟨hr, h⟩
  | succ n ih =>
    have hstep := step_keeps hsound hr h
    rw [run_succ]
    cases hs : c.step with
    | running d =>
      rw [hs] at hstep
      exact ih hstep.1 hstep.2
    | finished d =>
      rw [hs] at hstep
      exact hstep
    | stopped why d =>
      rw [hs] at hstep
      exact hstep

end CallStack

/-- No run in a sound registry breaks a rule of a frame. -/
theorem execute_sound {r : Registry} (hsound : r.Sound) {entry : Bytes} {m : Method}
    (hm : r.methods.get? entry = some m) {args : List Int32}
    (hargs : args.length ≤ m.maxLocals.toInt) (fuel : Nat) (trace : Bool) {status : ExitStatus}
    (h : (r.execute fuel entry args trace).outcome = .ended status) (x : FrameFault) :
    status.fault ≠ some (.frame x) := by
  obtain ⟨c, pool, depth, hc, hpool, hverified⟩ := hsound hm
  cases hf : Frame.create m c.pool args with
  | error why =>
    have hforeign := foreign_refuses hargs (Frame.create_error_iff.1 hf)
    have hstart : r.start entry args trace = .error why := by
      rw [Registry.start_eq hm hc, hf]
      rfl
    rw [Registry.execute_start_error hstart] at h
    cases why with
    | crash y => cases h
    | fault y =>
      cases h
      exact fun hy => hforeign x (congrArg Stop.fault (Option.some.inj hy))
  | ok f =>
    have hstart : r.start entry args trace = .ok ((CallStack.create r trace).push f) := by
      rw [Registry.start_eq hm hc, hf]
      rfl
    rw [hpool] at hf
    have hhealthy : Healthy r ((CallStack.create r trace).push f).frames :=
      .running (fits_starts hverified (Frame.create_ok_iff.1 hf)) (.bottom _)
    have hkeeps := CallStack.run_keeps hsound fuel rfl hhealthy
    rw [Registry.execute_start_ok hstart] at h
    cases hp : ((CallStack.create r trace).push f).run fuel with
    | running d => rw [hp] at h; cases h
    | finished d =>
      rw [hp] at h
      cases h
      exact nofun
    | stopped why d =>
      rw [hp] at h hkeeps
      cases why with
      | crash y => cases h
      | fault y =>
        cases h
        exact fun hy => hkeeps x (congrArg Stop.fault (Option.some.inj hy))

end MiniJvm
