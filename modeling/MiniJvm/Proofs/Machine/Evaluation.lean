import Mathlib
import MiniJvm.Machine.Run
import MiniJvm.Proofs.Machine.Frame

/-!
# Recursive evaluation

`Evaluates r f e s` runs the activation `f` to its end the way a recursive interpreter does: a call
evaluates the callee first and then goes on with the caller. There is no stack of frames in it; `s`
counts what the activation and everything below it did.
-/

namespace MiniJvm

/-- How an activation ends. -/
inductive FrameEnding where
  | finished (value : Option Int32)
  | aborted (why : Stop)

/-- The values that a call takes from the operand stack. -/
def Method.callSlots (m : Method) (special : Bool) : Int64 :=
  if special then m.argSlots + 1 else m.argSlots

/-- The call finds a method with its class, takes the top values of the operand stack in the order
they were pushed, and starts the callee with them; `left` is what is left of the caller. -/
inductive Calls (r : Registry) (caller : Frame) (signature : Bytes) (special : Bool) :
    Frame → Frame → Prop where
  | mk {m : Method} {c : Class} {below args : List Int32} {callee : Frame} :
      r.methods.get? signature = some m → r.classes.get? m.owner = some c →
      caller.stack.toList = below ++ args → (m.callSlots special).toInt = args.length →
      Frame.Starts m c.pool args callee →
      Calls r caller signature special callee { caller with stack := below.toArray }

/-- The call fails before the callee runs. -/
inductive CallFails (r : Registry) (caller : Frame) (signature : Bytes) (special : Bool) :
    Stop → Prop where
  | noMethod : r.methods.get? signature = none →
      CallFails r caller signature special (.fault (.lookup (.methodNotFound signature)))
  | noClass {m : Method} : r.methods.get? signature = some m → r.classes.get? m.owner = none →
      CallFails r caller signature special (.fault (.lookup (.classNotFound m.owner)))
  | negative {m : Method} {c : Class} : r.methods.get? signature = some m →
      r.classes.get? m.owner = some c → (m.callSlots special).toInt < 0 →
      CallFails r caller signature special (.crash .negativeArguments)
  | missing {m : Method} {c : Class} {n : Nat} : r.methods.get? signature = some m →
      r.classes.get? m.owner = some c → (m.callSlots special).toInt = n →
      caller.stack.size < n → CallFails r caller signature special
        (caller.faultAt (.missingArguments n caller.stack.size))
  | refused {m : Method} {c : Class} {below args : List Int32} {why : Stop} :
      r.methods.get? signature = some m → r.classes.get? m.owner = some c →
      caller.stack.toList = below ++ args → (m.callSlots special).toInt = args.length →
      Frame.Refuses m args why → CallFails r caller signature special why

/-- A returned value goes on top of the caller's operand stack; without one nothing changes. -/
def Frame.deliver (caller : Frame) : Option Int32 → Except Stop Frame
  | none => .ok caller
  | some v =>
    if caller.method.maxStack.toInt ≤ caller.stack.size then
      .error (caller.faultAt (.fullStack caller.method.maxStack))
    else .ok { caller with stack := caller.stack.push v }

namespace Stats

/-- One activation in which an instruction is executed, unless the code is at its end. -/
def single (f : Frame) : Stats :=
  { instructions := if f.next?.isSome then 1 else 0, invocations := 0, maxDepth := 1 }

/-- An instruction of the same activation comes before. -/
def afterInstruction (s : Stats) : Stats := { s with instructions := s.instructions + 1 }

/-- The activation calls, the callee does `s`, and nothing comes after it. -/
def ofCall (s : Stats) : Stats :=
  { instructions := s.instructions + 1, invocations := s.invocations + 1,
    maxDepth := s.maxDepth + 1 }

/-- The activation goes on with `t` after `s`. -/
def andThen (s t : Stats) : Stats :=
  { instructions := s.instructions + t.instructions, invocations := s.invocations + t.invocations,
    maxDepth := max s.maxDepth t.maxDepth }

end Stats

/-- The evaluation of an activation. -/
inductive Evaluates (r : Registry) : Frame → FrameEnding → Stats → Prop where
  | ended {f g : Frame} : Frame.step f = (.ok (some .ended), g) →
      Evaluates r f (.finished none) (.single f)
  | returned {f g : Frame} {v : Int32} : Frame.step f = (.ok (some (.returned v)), g) →
      Evaluates r f (.finished (some v)) (.single f)
  | stopped {f g : Frame} {why : Stop} : Frame.step f = (.error why, g) →
      Evaluates r f (.aborted why) (.single f)
  | next {f g : Frame} {e : FrameEnding} {s : Stats} : Frame.step f = (.ok none, g) →
      Evaluates r g e s → Evaluates r f e s.afterInstruction
  | callFails {f g : Frame} {signature : Bytes} {special : Bool} {why : Stop} :
      Frame.step f = (.ok (some (.invoke signature special)), g) →
      CallFails r g signature special why → Evaluates r f (.aborted why) (.single f)
  | calleeAborts {f g callee left : Frame} {signature : Bytes} {special : Bool} {why : Stop}
      {s : Stats} : Frame.step f = (.ok (some (.invoke signature special)), g) →
      Calls r g signature special callee left → Evaluates r callee (.aborted why) s →
      Evaluates r f (.aborted why) s.ofCall
  | undelivered {f g callee left : Frame} {signature : Bytes} {special : Bool}
      {v : Option Int32} {why : Stop} {s : Stats} :
      Frame.step f = (.ok (some (.invoke signature special)), g) →
      Calls r g signature special callee left → Evaluates r callee (.finished v) s →
      left.deliver v = .error why → Evaluates r f (.aborted why) s.ofCall
  | called {f g callee left back : Frame} {signature : Bytes} {special : Bool}
      {v : Option Int32} {e : FrameEnding} {s t : Stats} :
      Frame.step f = (.ok (some (.invoke signature special)), g) →
      Calls r g signature special callee left → Evaluates r callee (.finished v) s →
      left.deliver v = .ok back → Evaluates r back e t → Evaluates r f e (s.ofCall.andThen t)

/-- The evaluation of a run: the entry method with its arguments as leading locals. -/
inductive EvaluatesEntry (r : Registry) (entry : Bytes) (args : List Int32) :
    FrameEnding → Stats → Prop where
  | noMethod : r.methods.get? entry = none →
      EvaluatesEntry r entry args (.aborted (.fault (.lookup (.methodNotFound entry)))) {}
  | noClass {m : Method} : r.methods.get? entry = some m → r.classes.get? m.owner = none →
      EvaluatesEntry r entry args (.aborted (.fault (.lookup (.classNotFound m.owner)))) {}
  | refused {m : Method} {c : Class} {why : Stop} : r.methods.get? entry = some m →
      r.classes.get? m.owner = some c → Frame.Refuses m args why →
      EvaluatesEntry r entry args (.aborted why) {}
  | evaluated {m : Method} {c : Class} {f : Frame} {e : FrameEnding} {s : Stats} :
      r.methods.get? entry = some m → r.classes.get? m.owner = some c →
      Frame.Starts m c.pool args f → Evaluates r f e s →
      EvaluatesEntry r entry args e s

/-! ## Calls of the machine -/

namespace CallStack

theorem find_eq {r : Registry} {signature : Bytes} {m : Method} {c : Class}
    (hm : r.methods.get? signature = some m) (hc : r.classes.get? m.owner = some c) :
    find r signature = .ok (m, c.pool) := by
  rw [find, Registry.lookupMethod, hm]
  simp only [bind, Except.bind, Registry.lookupClass, hc]
  rfl

theorem find_noMethod {r : Registry} {signature : Bytes} (hm : r.methods.get? signature = none) :
    find r signature = .error (.methodNotFound signature) := by
  rw [find, Registry.lookupMethod, hm]
  rfl

theorem find_noClass {r : Registry} {signature : Bytes} {m : Method}
    (hm : r.methods.get? signature = some m) (hc : r.classes.get? m.owner = none) :
    find r signature = .error (.classNotFound m.owner) := by
  rw [find, Registry.lookupMethod, hm]
  simp only [bind, Except.bind, Registry.lookupClass, hc]

theorem callFrame_eq {r : Registry} {signature : Bytes} {m : Method} {c : Class}
    (hm : r.methods.get? signature = some m) (hc : r.classes.get? m.owner = some c)
    (caller : Frame) (special : Bool) :
    callFrame r caller signature special =
      match Frame.popArgs (m.callSlots special) caller with
      | (.error why, caller) => (.error why, caller)
      | (.ok args, caller) =>
        match Frame.create m c.pool args with
        | .error why => (.error why, caller)
        | .ok f => (.ok (f, args), caller) := by
  rw [callFrame, find_eq hm hc]
  rfl

theorem callFrame_of_calls {r : Registry} {caller callee left : Frame} {signature : Bytes}
    {special : Bool} (h : Calls r caller signature special callee left) :
    ∃ args, callFrame r caller signature special = (.ok (callee, args), left) := by
  cases h with
  | @mk m c below args _ hm hc hs hn hf =>
    refine ⟨args, ?_⟩
    rw [callFrame_eq hm hc, Frame.popArgs_ok hn hs]
    simp only [Frame.create_ok_iff.2 hf]

theorem callFrame_of_callFails {r : Registry} {caller : Frame} {signature : Bytes}
    {special : Bool} {why : Stop} (h : CallFails r caller signature special why) :
    ∃ left, callFrame r caller signature special = (.error why, left) := by
  cases h with
  | noMethod hm => exact ⟨_, by rw [callFrame, find_noMethod hm]⟩
  | noClass hm hc => exact ⟨_, by rw [callFrame, find_noClass hm hc]⟩
  | negative hm hc hn => exact ⟨_, by rw [callFrame_eq hm hc, Frame.popArgs_negative hn]⟩
  | missing hm hc hn hlt => exact ⟨_, by rw [callFrame_eq hm hc, Frame.popArgs_missing hn hlt]⟩
  | @refused m c below args _ hm hc hs hn hf =>
    refine ⟨{ caller with stack := below.toArray }, ?_⟩
    rw [callFrame_eq hm hc, Frame.popArgs_ok hn hs]
    simp only [Frame.create_error_iff.2 hf]

/-- A call either goes through or fails. -/
theorem calls_or_fails (r : Registry) (caller : Frame) (signature : Bytes) (special : Bool) :
    (∃ callee left, Calls r caller signature special callee left) ∨
      ∃ why, CallFails r caller signature special why := by
  cases hm : r.methods.get? signature with
  | none => exact .inr ⟨_, .noMethod hm⟩
  | some m =>
    cases hc : r.classes.get? m.owner with
    | none => exact .inr ⟨_, .noClass hm hc⟩
    | some c =>
      by_cases hneg : (m.callSlots special).toInt < 0
      · exact .inr ⟨_, .negative hm hc hneg⟩
      obtain ⟨n, hn⟩ : ∃ n : Nat, (m.callSlots special).toInt = n :=
        Int.eq_ofNat_of_zero_le (by omega)
      by_cases hlt : caller.stack.size < n
      · exact .inr ⟨_, .missing hm hc hn hlt⟩
      have hs := (List.take_append_drop (caller.stack.size - n) caller.stack.toList).symm
      have hlen : (m.callSlots special).toInt =
          (caller.stack.toList.drop (caller.stack.size - n)).length := by
        rw [List.length_drop, Array.length_toList]
        omega
      rcases Frame.create_cases m c.pool (caller.stack.toList.drop (caller.stack.size - n)) with
        ⟨callee, -, hf⟩ | ⟨why, -, hf⟩
      · exact .inl ⟨callee, _, .mk hm hc hs hlen hf⟩
      · exact .inr ⟨why, .refused hm hc hs hlen hf⟩

/-! ## Steps of the machine

Everything is said up to the reports: `Shows c r frames s result` leaves them open. -/

structure Shows (c : CallStack) (r : Registry) (frames : Array Frame) (s : Stats)
    (result : Option Int32) : Prop where
  registry : c.registry = r
  frames : c.frames = frames
  stats : c.stats = s
  result : c.result = result

variable {c : CallStack} {r : Registry} {base : Array Frame} {s : Stats} {result : Option Int32}

theorem Shows.report {frames : Array Frame} (h : Shows c r frames s result) (e : TraceEvent) :
    Shows (c.report e) r frames s result := by
  unfold CallStack.report
  split
  · exact ⟨h.registry, h.frames, h.stats, h.result⟩
  · exact h

theorem Shows.restore (h : Shows c r base s result) (f : Frame) :
    Shows (c.restore f) r (base.push f) s result :=
  ⟨h.registry, congrArg (·.push f) h.frames, h.stats, h.result⟩

theorem Shows.push (h : Shows c r base s result) (f : Frame) :
    Shows (c.push f) r (base.push f) { s with maxDepth := max s.maxDepth (base.size + 1) }
      result :=
  ⟨h.registry, congrArg (·.push f) h.frames, by rw [CallStack.push, h.stats, h.frames], h.result⟩

theorem Shows.drop {f : Frame} (h : Shows c r (base.push f) s result) :
    Shows c.drop r base s result :=
  ⟨h.registry, by rw [CallStack.drop, h.frames, Array.pop_push], h.stats, h.result⟩

/-- The counts after the instruction that comes next in `f`. -/
def ticked (s : Stats) (f : Frame) : Stats :=
  { s with instructions := s.instructions + (Stats.single f).instructions }

theorem Shows.reportNext (h : Shows c r base s result) (f : Frame) :
    Shows (c.reportNext f) r base (ticked s f) result := by
  unfold CallStack.reportNext ticked Stats.single
  cases f.next? with
  | none => exact h
  | some i =>
    have hcount : Shows c.countInstruction r base
        { s with instructions := s.instructions + 1 } result :=
      ⟨h.registry, h.frames, by rw [countInstruction, h.stats], h.result⟩
    exact hcount.report _

theorem Shows.step {f : Frame} (h : Shows c r (base.push f) s result) :
    ∃ d, Shows d r base (ticked s f) result ∧
      c.step = match Frame.step f with
        | (.error why, f) => .stopped why (d.restore f)
        | (.ok none, f) => .running (d.restore f)
        | (.ok (some signal), f) => d.handle f signal := by
  refine ⟨c.drop.reportNext f, h.drop.reportNext f, ?_⟩
  rewrite [CallStack.step, h.frames, Array.back?_push]
  rfl

theorem Shows.step_signal {f g : Frame} {signal : Signal} (h : Shows c r (base.push f) s result)
    (hstep : Frame.step f = (.ok (some signal), g)) :
    ∃ d, Shows d r base (ticked s f) result ∧ c.step = d.handle g signal := by
  obtain ⟨d, hd, hrun⟩ := h.step
  exact ⟨d, hd, by rw [hrun, hstep]⟩

theorem Shows.step_next {f g : Frame} (h : Shows c r (base.push f) s result)
    (hstep : Frame.step f = (.ok none, g)) :
    ∃ d, Shows d r (base.push g) (ticked s f) result ∧ c.step = .running d := by
  obtain ⟨d, hd, hrun⟩ := h.step
  exact ⟨d.restore g, hd.restore g, by rw [hrun, hstep]⟩

theorem Shows.step_stopped {f g : Frame} {why : Stop} (h : Shows c r (base.push f) s result)
    (hstep : Frame.step f = (.error why, g)) :
    ∃ d, d.stats = ticked s f ∧ c.step = .stopped why d := by
  obtain ⟨d, hd, hrun⟩ := h.step
  exact ⟨d.restore g, hd.stats, by rw [hrun, hstep]⟩

/-- The counts of a stack of `depth` frames that did `s`, after an activation on top of it that
does `t`. -/
def under (s : Stats) (depth : Nat) (t : Stats) : Stats :=
  { instructions := s.instructions + t.instructions, invocations := s.invocations + t.invocations,
    maxDepth := max s.maxDepth (depth + t.maxDepth) }

/-- The counts after a call from the top of a stack of `depth + 1` frames. -/
def entered (s : Stats) (depth : Nat) : Stats :=
  { s with invocations := s.invocations + 1, maxDepth := max s.maxDepth (depth + 2) }

theorem Shows.handleCall {f callee left : Frame} {signature : Bytes} {special : Bool}
    (h : Shows c r base s result) (hc : Calls r f signature special callee left) :
    ∃ d, Shows d r ((base.push left).push callee) (entered s base.size) result ∧
      c.handle f (.invoke signature special) = .running d := by
  obtain ⟨args, hargs⟩ := callFrame_of_calls hc
  have hcount : Shows c.countInvocation r base { s with invocations := s.invocations + 1 }
      result := ⟨h.registry, h.frames, by rw [countInvocation, h.stats], h.result⟩
  have hleft := (hcount.report (.invoke left.method.signature signature args)).restore left
  have htop := hleft.push callee
  rw [Array.size_push] at htop
  exact ⟨_, htop, by rw [handle, h.registry, hargs]⟩

theorem Shows.handleCallFails {f : Frame} {signature : Bytes} {special : Bool} {why : Stop}
    (h : Shows c r base s result) (hc : CallFails r f signature special why) :
    ∃ d, d.stats = s ∧ c.handle f (.invoke signature special) = .stopped why d := by
  obtain ⟨left, hleft⟩ := callFrame_of_callFails hc
  exact ⟨c.restore left, h.stats, by rw [handle, h.registry, hleft]⟩

/-- What the end of an activation leads to once its frame is off the stack. -/
def settle (c : CallStack) : Option Int32 → Progress
  | none => .running c
  | some v => c.receive v

theorem Shows.settle_ok {left back : Frame} {v : Option Int32}
    (h : Shows c r (base.push left) s result) (hd : left.deliver v = .ok back) :
    ∃ d, Shows d r (base.push back) s result ∧ c.settle v = .running d := by
  cases v with
  | none =>
    cases hd
    exact ⟨c, h, rfl⟩
  | some v =>
    rw [Frame.deliver] at hd
    split at hd
    · cases hd
    · rename_i hroom
      cases hd
      refine ⟨_, h.drop.restore _, ?_⟩
      rw [CallStack.settle, receive, h.frames, Array.back?_push]
      simp only [Frame.push_apply, if_neg hroom]

theorem Shows.settle_error {left : Frame} {v : Option Int32} {why : Stop}
    (h : Shows c r (base.push left) s result) (hd : left.deliver v = .error why) :
    ∃ d, d.stats = s ∧ c.settle v = .stopped why d := by
  cases v with
  | none => cases hd
  | some v =>
    rw [Frame.deliver] at hd
    split at hd
    · rename_i hfull
      cases hd
      refine ⟨c.drop.restore left, h.stats, ?_⟩
      rw [CallStack.settle, receive, h.frames, Array.back?_push]
      simp only [Frame.push_apply, if_pos hfull]
    · cases hd

/-- The value of the bottom frame becomes the result. -/
theorem Shows.settle_bottom (h : Shows c r #[] s none) (v : Option Int32) :
    ∃ d, Shows d r #[] s v ∧ c.settle v = .running d := by
  cases v with
  | none => exact ⟨c, h, rfl⟩
  | some v =>
    refine ⟨{ c with result := some v }, ⟨h.registry, h.frames, h.stats, rfl⟩, ?_⟩
    rw [CallStack.settle, receive, h.frames]
    rfl

/-! ## From the evaluation to the machine -/

/-- Goes on from a progress for at most `fuel` steps. -/
def resume (fuel : Nat) : Progress → Progress
  | .running c => c.run fuel
  | other => other

theorem run_succ (n : Nat) (c : CallStack) : c.run (n + 1) = resume n c.step := by
  rw [CallStack.run]
  unfold resume
  cases c.step <;> rfl

theorem run_one (c : CallStack) : c.run 1 = c.step := by
  rw [run_succ]
  cases c.step <;> rfl

theorem run_add (m n : Nat) (c : CallStack) : c.run (m + n) = resume n (c.run m) := by
  induction m generalizing c with
  | zero => rw [Nat.zero_add]; rfl
  | succ m ih =>
    rw [Nat.add_right_comm, run_succ, run_succ]
    cases c.step with
    | running d => exact ih d
    | finished d => rfl
    | stopped why d => rfl

/-- Where a machine arrives when the frame on top of `base` has come to its end. -/
def Arrives (r : Registry) (base : Array Frame) (s : Stats) (result : Option Int32) :
    FrameEnding → Progress → Prop
  | .finished v, p => ∃ d, Shows d r base s result ∧ p = d.settle v
  | .aborted why, p => ∃ d, d.stats = s ∧ p = .stopped why d

theorem single_instructions {f g : Frame} {o : Option Signal}
    (h : Frame.step f = (.ok o, g)) (ho : o ≠ some .ended) :
    (Stats.single f).instructions = 1 := by
  rw [Frame.step_apply] at h
  unfold Stats.single
  cases hn : f.next? with
  | none =>
    rw [hn] at h
    cases h
    exact absurd rfl ho
  | some i => rfl

theorem height_pos {f : Frame} {e : FrameEnding} {t : Stats} (h : Evaluates r f e t) :
    1 ≤ t.maxDepth := by
  induction h with
  | ended | returned | stopped | callFails => exact Nat.le_refl 1
  | next _ _ ih => exact ih
  | calleeAborts | undelivered => exact Nat.le_add_left ..
  | called => exact le_max_of_le_left (Nat.le_add_left ..)

/-! The counts of the machine are those of the evaluation, rule by rule. -/

theorem ticked_eq_under {f : Frame} {depth : Nat} (h : depth + 1 ≤ s.maxDepth) :
    ticked s f = under s depth (.single f) := by
  have hmax : max s.maxDepth (depth + 1) = s.maxDepth := by omega
  simp only [ticked, under, Stats.single, Nat.add_zero, hmax]

theorem under_ticked {f : Frame} {depth : Nat} {t : Stats}
    (h : (Stats.single f).instructions = 1) :
    under (ticked s f) depth t = under s depth t.afterInstruction := by
  simp only [ticked, under, Stats.afterInstruction, h, Stats.mk.injEq, and_true]
  omega

theorem under_entered {f : Frame} {depth : Nat} {t : Stats}
    (h : (Stats.single f).instructions = 1) (ht : 1 ≤ t.maxDepth) :
    under (entered (ticked s f) depth) (depth + 1) t = under s depth t.ofCall := by
  simp only [ticked, entered, under, Stats.ofCall, h, Stats.mk.injEq]
  omega

theorem under_under {depth : Nat} {t u : Stats} :
    under (under s depth t) depth u = under s depth (t.andThen u) := by
  simp only [under, Stats.andThen, Stats.mk.injEq]
  omega

/-- The machine does what the evaluation says. -/
theorem arrives_of_evaluates {f : Frame} {e : FrameEnding} {t : Stats} (h : Evaluates r f e t)
    (hc : Shows c r (base.push f) s result) (hdepth : base.size + 1 ≤ s.maxDepth) :
    ∃ n, Arrives r base (under s base.size t) result e (c.run (n + 1)) := by
  induction h generalizing c base s with
  | ended hstep =>
    obtain ⟨d, hd, hrun⟩ := hc.step_signal hstep
    refine ⟨0, d.report _, ?_, by rw [run_one, hrun]; rfl⟩
    exact ticked_eq_under hdepth ▸ hd.report _
  | returned hstep =>
    obtain ⟨d, hd, hrun⟩ := hc.step_signal hstep
    refine ⟨0, d.report _, ?_, by rw [run_one, hrun]; rfl⟩
    exact ticked_eq_under hdepth ▸ hd.report _
  | stopped hstep =>
    obtain ⟨d, hd, hrun⟩ := hc.step_stopped hstep
    exact ⟨0, d, hd.trans (ticked_eq_under hdepth), by rw [run_one, hrun]⟩
  | next hstep _ ih =>
    obtain ⟨d, hd, hrun⟩ := hc.step_next hstep
    obtain ⟨n, hn⟩ := ih hd hdepth
    rw [under_ticked (single_instructions hstep nofun)] at hn
    refine ⟨n + 1, ?_⟩
    rw [run_succ, hrun]
    exact hn
  | callFails hstep hfail =>
    obtain ⟨d, hd, hrun⟩ := hc.step_signal hstep
    obtain ⟨d', hd', hrun'⟩ := hd.handleCallFails hfail
    exact ⟨0, d', hd'.trans (ticked_eq_under hdepth), by rw [run_one, hrun, hrun']⟩
  | calleeAborts hstep hcall hcallee ih =>
    obtain ⟨d, hd, hrun⟩ := hc.step_signal hstep
    obtain ⟨d', hd', hrun'⟩ := hd.handleCall hcall
    obtain ⟨n, hn⟩ := ih hd' (by simp [entered])
    rw [Array.size_push, under_entered (single_instructions hstep nofun) (height_pos hcallee)] at hn
    refine ⟨n + 1, ?_⟩
    rw [run_succ, hrun, hrun']
    exact hn
  | undelivered hstep hcall hcallee hdel ih =>
    obtain ⟨d, hd, hrun⟩ := hc.step_signal hstep
    obtain ⟨d', hd', hrun'⟩ := hd.handleCall hcall
    obtain ⟨n, d'', hd'', hn⟩ := ih hd' (by simp [entered])
    have hone := single_instructions hstep nofun
    rw [Array.size_push, under_entered hone (height_pos hcallee)] at hd''
    obtain ⟨last, hlast, hstop⟩ := hd''.settle_error hdel
    refine ⟨n + 1, last, hlast, ?_⟩
    rw [run_succ, hrun, hrun']
    exact hn.trans hstop
  | called hstep hcall hcallee hdel _ ih₁ ih₂ =>
    obtain ⟨d, hd, hrun⟩ := hc.step_signal hstep
    obtain ⟨d', hd', hrun'⟩ := hd.handleCall hcall
    obtain ⟨n, d'', hd'', hn⟩ := ih₁ hd' (by simp [entered])
    have hone := single_instructions hstep nofun
    rw [Array.size_push, under_entered hone (height_pos hcallee)] at hd''
    obtain ⟨back, hback, hgo⟩ := hd''.settle_ok hdel
    obtain ⟨k, hk⟩ := ih₂ hback (le_max_of_le_left hdepth)
    rw [under_under] at hk
    refine ⟨n + 1 + (k + 1), ?_⟩
    have hfirst : c.run (n + 1 + 1) = .running back := by
      rw [run_succ, hrun, hrun']
      exact hn.trans hgo
    rw [show n + 1 + (k + 1) + 1 = n + 1 + 1 + (k + 1) by omega, run_add, hfirst]
    exact hk

/-! ## From the machine to the evaluation -/

/-- No step is left. -/
def Final : Progress → Prop
  | .running _ => False
  | _ => True

theorem resume_final {p : Progress} (h : Final p) (n : Nat) : resume n p = p := by
  cases p with
  | running => exact h.elim
  | finished => rfl
  | stopped => rfl

/-- A machine that stops has an evaluation. The induction is on the steps, since the caller goes on
from where the evaluation of its callee says that the machine arrives. -/
theorem evaluates_of_run {f : Frame} (n : Nat) (hfinal : Final (c.run n))
    (hc : Shows c r (base.push f) s result) (hdepth : base.size + 1 ≤ s.maxDepth) :
    ∃ e t, Evaluates r f e t := by
  induction n using Nat.strong_induction_on generalizing c base s f with
  | _ n ih =>
    obtain _ | n := n
    · exact hfinal.elim
    rw [run_succ] at hfinal
    rcases hstep : Frame.step f with ⟨why | _ | _ | v | ⟨signature, special⟩, g⟩
    · exact ⟨_, _, .stopped hstep⟩
    · obtain ⟨d, hd, hrun⟩ := hc.step_next hstep
      rw [hrun] at hfinal
      obtain ⟨e, t, h⟩ := ih n (Nat.lt_succ_self n) hfinal hd hdepth
      exact ⟨e, _, .next hstep h⟩
    · exact ⟨_, _, .ended hstep⟩
    · exact ⟨_, _, .returned hstep⟩
    rcases calls_or_fails r g signature special with ⟨callee, left, hcall⟩ | ⟨why, hfail⟩
    swap
    · exact ⟨_, _, .callFails hstep hfail⟩
    obtain ⟨d, hd, hrun⟩ := hc.step_signal hstep
    obtain ⟨d', hd', hrun'⟩ := hd.handleCall hcall
    rw [hrun, hrun'] at hfinal
    have hdepth' : (base.push left).size + 1 ≤ (entered (ticked s f) base.size).maxDepth := by
      simp [entered]
    obtain ⟨e, t, hcallee⟩ := ih n (Nat.lt_succ_self n) hfinal hd' hdepth'
    cases e with
    | aborted why => exact ⟨_, _, .calleeAborts hstep hcall hcallee⟩
    | finished v =>
      cases hdel : left.deliver v with
      | error why => exact ⟨_, _, .undelivered hstep hcall hcallee hdel⟩
      | ok back =>
        obtain ⟨k, d'', hd'', hk⟩ := arrives_of_evaluates hcallee hd' hdepth'
        obtain ⟨next, hnext, hgo⟩ := hd''.settle_ok hdel
        have hk' := hk.trans hgo
        rcases Nat.le_total (k + 1) n with hle | hle
        · obtain ⟨j, rfl⟩ := Nat.exists_eq_add_of_le hle
          have hfinal' : Final (resume j (d'.run (k + 1))) := run_add (k + 1) j d' ▸ hfinal
          rw [hk'] at hfinal'
          have hdepth'' : base.size + 1 ≤ (under s base.size t.ofCall).maxDepth :=
            le_max_of_le_left hdepth
          rw [Array.size_push, under_entered (single_instructions hstep nofun)
            (height_pos hcallee)] at hnext
          obtain ⟨e, u, hback⟩ := ih j (by omega) hfinal' hnext hdepth''
          exact ⟨e, _, .called hstep hcall hcallee hdel hback⟩
        · obtain ⟨j, hj⟩ := Nat.exists_eq_add_of_le hle
          have hstill : Final (d'.run (k + 1)) := by
            rw [hj, run_add]
            exact (resume_final hfinal j).symm ▸ hfinal
          rw [hk'] at hstill
          exact hstill.elim

end CallStack

/-! ## Runs -/

/-- The outcome of a run that ends so. -/
def FrameEnding.outcome : FrameEnding → Stats → RunOutcome
  | .finished v, s => .ended { fault := none, result := v, stats := s }
  | .aborted (.fault x), s => .ended { fault := some x, result := none, stats := s }
  | .aborted (.crash c), _ => .crashed c

namespace Registry

open CallStack

variable {r : Registry} {entry : Bytes} {args : List Int32} {trace : Bool}

theorem execute_start_error {why : Stop} (h : r.start entry args trace = .error why)
    (fuel : Nat) :
    (r.execute fuel entry args trace).outcome = (FrameEnding.aborted why).outcome {} := by
  rw [execute, h]
  cases why <;> rfl

theorem execute_start_ok {c : CallStack} (h : r.start entry args trace = .ok c) (fuel : Nat) :
    (r.execute fuel entry args trace).outcome = (finish entry (c.run fuel)).1 := by
  rw [execute, h]

theorem start_eq {m : Method} {c : Class} (hm : r.methods.get? entry = some m)
    (hc : r.classes.get? m.owner = some c) :
    r.start entry args trace =
      (Frame.create m c.pool args).map fun f => (CallStack.create r trace).push f := by
  rw [start, find_eq hm hc]
  rfl

theorem shows_start (f : Frame) :
    Shows ((CallStack.create r trace).push f) r (#[].push f)
      { instructions := 0, invocations := 0, maxDepth := 1 } none :=
  ⟨rfl, rfl, rfl, rfl⟩

theorem under_bottom {f : Frame} {e : FrameEnding} {t : Stats} (h : Evaluates r f e t) :
    under { instructions := 0, invocations := 0, maxDepth := 1 } 0 t = t := by
  obtain ⟨i, n, d⟩ := t
  have hpos : 1 ≤ d := height_pos h
  simp only [under, Stats.mk.injEq]
  omega

theorem execute_of_evaluates {e : FrameEnding} {s : Stats} (h : EvaluatesEntry r entry args e s)
    (trace : Bool) :
    ∃ fuel, (r.execute fuel entry args trace).outcome = e.outcome s := by
  cases h with
  | noMethod hm => exact ⟨0, execute_start_error (by rw [start, find_noMethod hm]) 0⟩
  | noClass hm hc => exact ⟨0, execute_start_error (by rw [start, find_noClass hm hc]) 0⟩
  | refused hm hc hf =>
    exact ⟨0, execute_start_error (by rw [start_eq hm hc, Frame.create_error_iff.2 hf]; rfl) 0⟩
  | @evaluated m c f _ _ hm hc hf he =>
    have hstart : r.start entry args trace = .ok ((CallStack.create r trace).push f) := by
      rw [start_eq hm hc, Frame.create_ok_iff.2 hf]
      rfl
    obtain ⟨n, hn⟩ := arrives_of_evaluates he (shows_start f) (Nat.le_refl 1)
    rw [Array.size_empty, under_bottom he] at hn
    cases e with
    | finished v =>
      obtain ⟨d, hd, hrun⟩ := hn
      obtain ⟨last, hlast, hgo⟩ := hd.settle_bottom v
      have hend : last.step = .finished last := by
        rw [CallStack.step, hlast.frames]
        rfl
      refine ⟨n + 1 + 1, ?_⟩
      rw [execute_start_ok hstart, run_add, hrun, hgo, resume, run_one, hend]
      exact congrArg RunOutcome.ended (by rw [hlast.stats, hlast.result])
    | aborted why =>
      obtain ⟨d, hd, hrun⟩ := hn
      refine ⟨n + 1, ?_⟩
      rw [execute_start_ok hstart, hrun]
      cases why with
      | fault x => exact congrArg RunOutcome.ended (by rw [hd])
      | crash x => rfl

theorem execute_unfinished_or_final {c : CallStack} (h : r.start entry args trace = .ok c)
    {fuel : Nat} (ho : (r.execute fuel entry args trace).outcome ≠ .unfinished) :
    Final (c.run fuel) := by
  rw [execute_start_ok h] at ho
  cases hp : c.run fuel with
  | running d => rw [hp] at ho; exact absurd rfl ho
  | finished d => trivial
  | stopped why d => trivial

/-- More steps do not change the outcome of a run that ended. -/
theorem execute_mono {fuel : Nat} (ho : (r.execute fuel entry args trace).outcome ≠ .unfinished)
    (n : Nat) :
    (r.execute (fuel + n) entry args trace).outcome =
      (r.execute fuel entry args trace).outcome := by
  cases h : r.start entry args trace with
  | error why => rw [execute_start_error h, execute_start_error h]
  | ok c =>
    have hfinal := execute_unfinished_or_final h ho
    rw [execute_start_ok h, execute_start_ok h, run_add, resume_final hfinal]

theorem execute_unique {m n : Nat} (hm : (r.execute m entry args trace).outcome ≠ .unfinished)
    (hn : (r.execute n entry args trace).outcome ≠ .unfinished) :
    (r.execute m entry args trace).outcome = (r.execute n entry args trace).outcome := by
  rw [← execute_mono hm n, ← execute_mono hn m, Nat.add_comm]

theorem outcome_ne_unfinished (e : FrameEnding) (s : Stats) : e.outcome s ≠ .unfinished := by
  rcases e with v | x | x <;> nofun

/-- A run that ends has an evaluation with its outcome. -/
theorem evaluates_of_execute {fuel : Nat} {o : RunOutcome}
    (h : (r.execute fuel entry args trace).outcome = o) (ho : o ≠ .unfinished) :
    ∃ e s, EvaluatesEntry r entry args e s ∧ o = e.outcome s := by
  subst h
  have key : ∃ e s, EvaluatesEntry r entry args e s := by
    cases hm : r.methods.get? entry with
    | none => exact ⟨_, _, .noMethod hm⟩
    | some m =>
      cases hc : r.classes.get? m.owner with
      | none => exact ⟨_, _, .noClass hm hc⟩
      | some c =>
        rcases Frame.create_cases m c.pool args with ⟨f, hcreate, hf⟩ | ⟨why, -, hf⟩
        · have hstart : r.start entry args trace = .ok ((CallStack.create r trace).push f) := by
            rw [start_eq hm hc, hcreate]
            rfl
          obtain ⟨e, t, he⟩ := evaluates_of_run fuel (execute_unfinished_or_final hstart ho)
            (shows_start f) (Nat.le_refl 1)
          exact ⟨e, t, .evaluated hm hc hf he⟩
        · exact ⟨_, _, .refused hm hc hf⟩
  obtain ⟨e, s, h⟩ := key
  obtain ⟨n, hn⟩ := execute_of_evaluates h trace
  refine ⟨e, s, h, ?_⟩
  rw [← hn]
  exact execute_unique ho (hn ▸ outcome_ne_unfinished e s)

/-- A run that ends comes out the same with any larger number of steps, traced or not. -/
theorem execute_eventually {fuel : Nat} {o : RunOutcome}
    (h : (r.execute fuel entry args trace).outcome = o) (ho : o ≠ .unfinished) :
    ∃ enough, ∀ more, enough ≤ more → ∀ traced,
      (r.execute more entry args traced).outcome = o := by
  obtain ⟨e, s, he, rfl⟩ := evaluates_of_execute h ho
  have hpast {n more : Nat} {traced : Bool} (hle : n ≤ more)
      (hn : (r.execute n entry args traced).outcome = e.outcome s) :
      (r.execute more entry args traced).outcome = e.outcome s := by
    obtain ⟨k, rfl⟩ := Nat.exists_eq_add_of_le hle
    rw [execute_mono (hn ▸ ho), hn]
  obtain ⟨m, hm⟩ := execute_of_evaluates he true
  obtain ⟨n, hn⟩ := execute_of_evaluates he false
  refine ⟨max m n, fun more hmore traced => ?_⟩
  cases traced with
  | true => exact hpast (Nat.le_trans (Nat.le_max_left m n) hmore) hm
  | false => exact hpast (Nat.le_trans (Nat.le_max_right m n) hmore) hn

/-- A run with its stack of frames ends exactly as the recursive evaluation does, with the same
value, the same fault and the same counts. -/
theorem execute_iff_evaluates (r : Registry) (entry : Bytes) (args : List Int32) (trace : Bool) :
    (∀ v s, (∃ fuel, (r.execute fuel entry args trace).outcome =
        .ended { fault := none, result := v, stats := s }) ↔
      EvaluatesEntry r entry args (.finished v) s) ∧
    (∀ x v s, (∃ fuel, (r.execute fuel entry args trace).outcome =
        .ended { fault := some x, result := v, stats := s }) ↔
      v = none ∧ EvaluatesEntry r entry args (.aborted (.fault x)) s) ∧
    ∀ c, (∃ fuel, (r.execute fuel entry args trace).outcome = .crashed c) ↔
      ∃ s, EvaluatesEntry r entry args (.aborted (.crash c)) s := by
  refine ⟨fun v s => ⟨?_, fun h => execute_of_evaluates h trace⟩,
    fun x v s => ⟨?_, fun ⟨hv, h⟩ => hv ▸ execute_of_evaluates h trace⟩,
    fun c => ⟨?_, fun ⟨s, h⟩ => execute_of_evaluates h trace⟩⟩
  · rintro ⟨fuel, ho⟩
    obtain ⟨e, t, h, heq⟩ := evaluates_of_execute ho nofun
    rcases e with w | y | y <;> cases heq
    exact h
  · rintro ⟨fuel, ho⟩
    obtain ⟨e, t, h, heq⟩ := evaluates_of_execute ho nofun
    rcases e with w | y | y <;> cases heq
    exact ⟨rfl, h⟩
  · rintro ⟨fuel, ho⟩
    obtain ⟨e, t, h, heq⟩ := evaluates_of_execute ho nofun
    rcases e with w | y | y <;> cases heq
    exact ⟨t, h⟩

end Registry

end MiniJvm
