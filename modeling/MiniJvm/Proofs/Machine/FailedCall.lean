import Mathlib
import MiniJvm.Proofs.Machine.CallStack

/-!
# Calls that fail

A call that fails stops the machine with the caller back on top. Where the method or its class is
missing, or the caller has too few values, the caller is as it was when it asked for the call. A
callee that has too few locals is noticed only after its arguments were taken: they are missing
from the caller then (`failedCall_caller`).
-/

namespace MiniJvm

namespace CallStack

/-- The states of a call stack. Frames may be put on top at any time, and the machine may go on
after a fault. -/
inductive Reachable (r : Registry) (trace : Bool) : CallStack → Prop where
  | create : Reachable r trace (create r trace)
  | push {c : CallStack} (f : Frame) : Reachable r trace c → Reachable r trace (c.push f)
  | step {c : CallStack} : Reachable r trace c → Reachable r trace c.step.callStack

/-- The call comes to a callee that has too few locals for the `n` arguments on top of the caller's
operand stack. -/
def Overfills (r : Registry) (caller : Frame) (signature : Bytes) (special : Bool) (n : Nat) :
    Prop :=
  ∃ m c, r.methods.get? signature = some m ∧ r.classes.get? m.owner = some c ∧
    (m.callSlots special).toInt = n ∧ 0 < n ∧ n ≤ caller.stack.size ∧ m.maxLocals.toInt < n

variable {r : Registry} {trace : Bool} {c : CallStack} {base : Array Frame}
  {f g caller left : Frame} {signature : Bytes} {special : Bool} {why : Stop} {x : Fault}

/-! ## Depths -/

theorem Reachable.registry (h : Reachable r trace c) : c.registry = r := by
  induction h with
  | create => rfl
  | push f _ ih => exact ih
  | @step c _ ih =>
    cases hback : c.frames.back? with
    | none => rwa [CallStack.step, hback]
    | some f =>
      obtain ⟨base, hframes⟩ := Array.back?_eq_some_iff.1 hback
      exact (Shows.turn ⟨ih, hframes, rfl, rfl⟩).1

/-- No stack is deeper than the greatest depth that was counted, so a frame that is put back does
not count again. -/
theorem Reachable.depth_le (h : Reachable r trace c) : c.depth ≤ c.stats.maxDepth := by
  induction h with
  | create => exact Nat.le_refl 0
  | @push c f _ _ =>
    have hdepth : (c.push f).depth = c.frames.size + 1 := Array.size_push f
    rw [hdepth]
    exact Nat.le_max_right ..
  | @step c hc ih =>
    cases hback : c.frames.back? with
    | none => rwa [CallStack.step, hback]
    | some f =>
      obtain ⟨base, hframes⟩ := Array.back?_eq_some_iff.1 hback
      have hturn := (Shows.turn ⟨hc.registry, hframes, rfl, rfl⟩).2
      have hdepth : c.depth = base.size + 1 := by rw [depth, hframes, Array.size_push]
      rw [hdepth] at ih
      rcases hturn.depth with ⟨hsize, hmax, -⟩ | ⟨hsize, hmax, -⟩
      · rw [hmax]
        exact hsize.trans ih
      · rw [hmax]
        exact hsize.le.trans (Nat.le_max_right ..)

theorem Reachable.after (h : Reachable r trace c) (n : Nat) : Reachable r trace (c.after n) := by
  induction n generalizing c with
  | zero => exact h
  | succ n ih =>
    have hstep := h.step
    rw [CallStack.after, run_succ]
    cases hs : c.step with
    | running d =>
      rw [hs] at hstep
      exact ih hstep
    | finished d | stopped why d =>
      rw [hs] at hstep
      exact hstep

theorem reachable_start {entry : Bytes} {args : List Int32}
    (h : r.start entry args trace = .ok c) : Reachable r trace c := by
  obtain ⟨m, cls, f, -, -, -, rfl⟩ := Registry.start_ok h
  exact .push f .create

/-! ## What is left of the caller -/

/-- A call that fails leaves the caller as it is, or the callee cannot be made with the arguments
that were taken. -/
theorem callFrame_error (h : callFrame r caller signature special = (.error why, left)) :
    CallFails r caller signature special why ∧ (left = caller ∨
      ∃ m c below args, r.methods.get? signature = some m ∧ r.classes.get? m.owner = some c ∧
        caller.stack.toList = below ++ args ∧ (m.callSlots special).toInt = args.length ∧
        Frame.Refuses m args why ∧
        left = { caller with stack := below.toArray }) := by
  rcases calls_or_fails r caller signature special with ⟨callee, left', hcall⟩ | ⟨why', hfail⟩
  · obtain ⟨args, hargs⟩ := callFrame_of_calls hcall
    cases hargs.symm.trans h
  have hfails := hfail
  cases hfail with
  | noMethod hm =>
    rw [callFrame, find_noMethod hm] at h
    cases h
    exact ⟨hfails, .inl rfl⟩
  | noClass hm hc =>
    rw [callFrame, find_noClass hm hc] at h
    cases h
    exact ⟨hfails, .inl rfl⟩
  | negative hm hc hn =>
    rw [callFrame_eq hm hc, Frame.popArgs_negative hn] at h
    cases h
    exact ⟨hfails, .inl rfl⟩
  | missing hm hc hn hlt =>
    rw [callFrame_eq hm hc, Frame.popArgs_missing hn hlt] at h
    cases h
    exact ⟨hfails, .inl rfl⟩
  | @refused m c below args _ hm hc hs hn hf =>
    rw [callFrame_eq hm hc, Frame.popArgs_ok hn hs] at h
    simp only [Frame.create_error_iff.2 hf] at h
    cases h
    exact ⟨hfails, .inr ⟨m, c, below, args, hm, hc, hs, hn, hf, rfl⟩⟩

/-- A call that overfills its callee fails, and the arguments are gone. -/
theorem callFrame_overfills {n : Nat} (hover : Overfills r caller signature special n) :
    ∃ x, callFrame r caller signature special = (.error (.fault x),
      { caller with stack := caller.stack.take (caller.stack.size - n) }) := by
  obtain ⟨m, c, hm, hc, hslots, -, hle, hlocals⟩ := hover
  have hs := (List.take_append_drop (caller.stack.size - n) caller.stack.toList).symm
  have hlen : (caller.stack.toList.drop (caller.stack.size - n)).length = n := by
    rw [List.length_drop, Array.length_toList]
    omega
  have htake : (caller.stack.toList.take (caller.stack.size - n)).toArray =
      caller.stack.take (caller.stack.size - n) := by
    apply Array.ext'
    simp
  rw [callFrame_eq hm hc, Frame.popArgs_ok (hlen.symm ▸ hslots) hs, htake]
  dsimp only
  rw [Frame.create, if_pos (hlen.symm ▸ hlocals)]
  exact ⟨_, rfl⟩

/-- A call that fails without overfilling its callee leaves the caller as it is. -/
theorem callFrame_intact (hfits : ¬∃ n, Overfills r caller signature special n)
    (h : callFrame r caller signature special = (.error (.fault x), left)) : left = caller := by
  rcases (callFrame_error h).2 with hsame | ⟨m, c, below, args, hm, hc, hs, hslots, hf, rfl⟩
  · exact hsame
  have hlen := congrArg List.length hs
  rw [Array.length_toList, List.length_append] at hlen
  have hnone : args = [] := by
    by_contra hsome
    exact hfits ⟨args.length, m, c, hm, hc, hslots, List.length_pos_iff.2 hsome, by omega,
      hf.fault.1⟩
  rw [hnone, List.append_nil] at hs
  rw [← hs, Array.toArray_toList]

/-- A call that fails, whatever the state of the machine, leaves the place and the locals of its
caller and the counts of calls and depth as they were. It leaves the operand stack of the caller as
it was exactly when it does not overfill its callee; otherwise the arguments are gone. -/
theorem failedCall_caller (hc : Reachable r trace c) (hframes : c.frames = base.push f)
    (hsignal : Frame.step f = (.ok (some (.invoke signature special)), g))
    (hfail : callFrame r g signature special = (.error (.fault x), left)) :
    ∃ d, c.step = .stopped (.fault x) d ∧ d.frames = base.push left ∧
      d.stats.invocations = c.stats.invocations ∧ d.stats.maxDepth = c.stats.maxDepth ∧
      d.depth ≤ d.stats.maxDepth ∧
      left.pc = g.pc ∧ left.locals = g.locals ∧
      (left.stack = g.stack ↔ ¬∃ n, Overfills r g signature special n) ∧
      ∀ n, Overfills r g signature special n →
        left.stack = g.stack.take (g.stack.size - n) := by
  have hshows : Shows c r (base.push f) c.stats c.result := ⟨hc.registry, hframes, rfl, rfl⟩
  obtain ⟨d, hd, hrun⟩ := hshows.step_signal hsignal
  have hstop : c.step = .stopped (.fault x) (d.restore left) := by
    rw [hrun, handle, hd.registry, hfail]
  have hrest := hd.restore left
  have hdepth := hc.step.depth_le
  rw [hstop] at hdepth
  refine ⟨d.restore left, hstop, hrest.frames, by rw [hrest.stats]; rfl, by rw [hrest.stats]; rfl,
    hdepth, ?_⟩
  by_cases hover : ∃ n, Overfills r g signature special n
  · have hleft {n : Nat} (hn : Overfills r g signature special n) :
        left = { g with stack := g.stack.take (g.stack.size - n) } := by
      obtain ⟨y, hy⟩ := callFrame_overfills hn
      exact congrArg Prod.snd (hfail.symm.trans hy)
    obtain ⟨n, hn⟩ := hover
    refine ⟨by rw [hleft hn], by rw [hleft hn],
      ⟨fun hsame => ?_, fun hnone => absurd ⟨n, hn⟩ hnone⟩, fun k hk => by rw [hleft hk]⟩
    obtain ⟨-, -, -, -, -, hpos, hle, -⟩ := id hn
    have hsize := congrArg Array.size hsame
    simp only [hleft hn, Array.take_eq_extract, Array.size_extract] at hsize
    omega
  · have hleft := callFrame_intact hover hfail
    exact ⟨by rw [hleft], by rw [hleft], ⟨fun _ => hover, fun _ => by rw [hleft]⟩,
      fun n hn => absurd ⟨n, hn⟩ hover⟩

/-- A method without room for its argument, and one that calls it. -/
def cramped : ClassDef :=
  { name := "A"
    pool := some
      [.placeholder, .methodRef 2 3, .classRef 4, .nameAndType 5 6, .utf8 "A", .utf8 "f",
        .utf8 "(I)V"]
    methods := some
      [⟨"f", "(I)V", 0, 0, some []⟩,
        ⟨"main", "()V", 2, 0, some
          [.plain .iconst4, .plain .iconst5, .invokestatic 1, .plain .returnVoid]⟩] }

theorem failedCall_caller_cramped :
    ∃ r c base f g left x, Registry.load [cramped] = .ok r ∧ Reachable r false c ∧
      c.frames = Array.push base f ∧
      Frame.step f = (.ok (some (.invoke "A.f:(I)V" false)), g) ∧
      callFrame r g "A.f:(I)V" false = (.error (.fault x), left) ∧
      Overfills r g "A.f:(I)V" false 1 ∧ g.stack = #[4, 5] ∧ left.stack = #[4] := by
  have hchecked : ∃ r ∈ (Registry.load [cramped]).toOption,
      ∃ c ∈ (r.start "A.main:()V" [] false).toOption, ∃ f ∈ (c.after 2).frames.back?,
        (Frame.step f).1 = .ok (some (.invoke "A.f:(I)V" false)) ∧
        (Frame.step f).2.stack = #[4, 5] ∧
        ∃ m ∈ r.methods.get? "A.f:(I)V", ∃ cls ∈ r.classes.get? m.owner,
          (m.callSlots false).toInt = 1 ∧ m.maxLocals.toInt < 1 := by
    decide +kernel
  obtain ⟨r, hload, c, hstart, f, hf, hsignal, hstack, m, hm, cls, hcls, hslots, hlocals⟩ :=
    hchecked
  obtain ⟨base, hframes⟩ := Array.back?_eq_some_iff.1 (Option.mem_def.1 hf)
  have hreach := (reachable_start (eq_ok_of_mem_toOption hstart)).after 2
  have hover : Overfills r (Frame.step f).2 "A.f:(I)V" false 1 :=
    ⟨m, cls, hm, hcls, hslots, Nat.one_pos, by rw [hstack]; decide, hlocals⟩
  obtain ⟨x, hfail⟩ := callFrame_overfills hover
  have hstep : Frame.step f = (.ok (some (.invoke "A.f:(I)V" false)), (Frame.step f).2) :=
    Prod.ext hsignal rfl
  obtain ⟨-, -, -, -, -, -, -, -, -, hleft⟩ := failedCall_caller hreach hframes hstep hfail
  refine ⟨r, c.after 2, base, f, _, _, x, eq_ok_of_mem_toOption hload, hreach, hframes, hstep,
    hfail, hover, hstack, ?_⟩
  rw [hleft 1 hover, hstack]
  rfl

/-- A caller that had two values when it asked for a call with one argument has one value after the
call failed. -/
theorem argument_lost :
    ∃ r ∈ (Registry.load [cramped]).toOption, ∃ c ∈ (r.start "A.main:()V" [] false).toOption,
      ∃ f ∈ (c.after 2).frames.back?, ∃ back ∈ (c.after 3).frames.back?,
        (Frame.step f).1 = .ok (some (.invoke "A.f:(I)V" false)) ∧
        (Frame.step f).2.stack = #[4, 5] ∧ back.stack = #[4] ∧ (c.after 3).depth = 1 := by
  decide +kernel

end CallStack

end MiniJvm
