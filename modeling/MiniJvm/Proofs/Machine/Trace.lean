import Mathlib
import MiniJvm.Proofs.Machine.CallStack

/-!
# Traces

A traced run does what it does without a trace, and its trace leaves out nothing: each executed
instruction, each call and each frame that ends has a report of its own, in the order of the steps.

What a step reports, and the lines it logs, are read off the machine before it (`CallStack.shown`,
`CallStack.lines`). The traced machine is the untraced one with these reports (`run_tracing`), and
the counts grow with the reports from step to step (`Tally`).
-/

namespace MiniJvm

/-! ## Reports -/

namespace TraceEvent

def isInstruction : TraceEvent → Bool
  | .instruction .. => true
  | _ => false

def isInvoke : TraceEvent → Bool
  | .invoke .. => true
  | _ => false

/-- A frame has come to its end, with a value or without. -/
def isEnding : TraceEvent → Bool
  | .ended _ | .returned .. => true
  | _ => false

end TraceEvent

/-- The report of the call stack behind a report of the run. -/
def RunEvent.traced? : RunEvent → Option TraceEvent
  | .traced e => some e
  | _ => none

def RunReport.trace (report : RunReport) : List TraceEvent :=
  report.events.filterMap RunEvent.traced?

/-- What a run reports besides its trace. -/
def RunReport.untraced (report : RunReport) : List RunEvent :=
  report.events.filter fun e => e.traced?.isNone

namespace CallStack

variable {c : CallStack} {es : List TraceEvent}

/-- The instruction that the next step executes, with the operand stack and the locals before. -/
def executing? (c : CallStack) : Option TraceEvent := do
  let f ← c.frames.back?
  let i ← f.next?
  return .instruction f.method.signature f.pc i f.stack f.locals

/-- The call that the next step makes. -/
def calling? (c : CallStack) : Option TraceEvent := do
  let f ← c.frames.back?
  match Frame.step f with
  | (.ok (some (.invoke signature special)), g) =>
    match callFrame c.registry g signature special with
    | (.ok (_, args), _) => some (.invoke f.method.signature signature args)
    | _ => none
  | _ => none

/-- The frame that ends in the next step. -/
def finishing? (c : CallStack) : Option TraceEvent := do
  let f ← c.frames.back?
  match (Frame.step f).1 with
  | .ok (some .ended) => some (.ended f.method.signature)
  | .ok (some (.returned v)) => some (.returned f.method.signature v)
  | _ => none

/-- What there is to report of the next step. -/
def shown (c : CallStack) : List TraceEvent :=
  c.executing?.toList ++ c.calling?.toList ++ c.finishing?.toList

/-- The machine before each of its first `fuel` steps. -/
def stages (c : CallStack) (fuel : Nat) : List CallStack :=
  (List.range fuel).filterMap fun n =>
    match c.run n with
    | .running d => some d
    | _ => none

/-! ## Log lines -/

/-- Numbers as they are logged: in decimal, with blanks between them, in square brackets. -/
def loggedNumbers (values : List Int32) : Bytes :=
  "[" ++ List.intercalate " " (values.map fun v => Bytes.ofInt v.toInt) ++ "]"

/-- The line of an instruction of `f`: the signature of its method, its index in at least four
digits, the instruction in at least twenty columns, the operand stack and the locals. -/
def instructionText (f : Frame) (i : Instruction) : Bytes :=
  f.method.signature ++ " " ++ Bytes.zeroPad 4 (Bytes.ofNat f.pc) ++ " "
    ++ Utf8.padRight 20 i.text ++ " stack=" ++ loggedNumbers f.stack.toList
    ++ " locals=" ++ loggedNumbers f.locals.toList

/-- The lines of the signal of `f`, if it is heeded. -/
def signalTexts (r : Registry) (f : Frame) : Signal → List Bytes
  | .ended => [f.method.signature ++ " end"]
  | .returned v => [f.method.signature ++ " return " ++ Bytes.ofInt v.toInt]
  | .invoke signature special =>
    match callFrame r f signature special with
    | (.ok (_, args), _) =>
      [f.method.signature ++ " invoke " ++ signature ++ " args=" ++ loggedNumbers args]
    | _ => []

/-- What the next step logs: its instruction, if there is one, and then the call it makes or the end
of its frame. -/
def texts (c : CallStack) : List Bytes :=
  match c.frames.back? with
  | none => []
  | some f => (f.next?.map (instructionText f)).toList ++
    match Frame.step f with
    | (.ok (some s), g) => signalTexts c.registry g s
    | _ => []

def lines (c : CallStack) : List Log.Line := c.texts.map (⟨.debug, "ristretto.vm", ·⟩)

/-! ## The flag -/

theorem report_trace (c : CallStack) (e : TraceEvent) : (c.report e).trace = c.trace := by
  unfold report
  split <;> rfl

theorem reportNext_trace (c : CallStack) (f : Frame) : (c.reportNext f).trace = c.trace := by
  unfold reportNext
  split
  · exact report_trace _ _
  · rfl

theorem receive_trace (c : CallStack) (v : Int32) :
    (c.receive v).callStack.trace = c.trace := by
  unfold receive
  cases c.frames.back? with
  | none => rfl
  | some caller =>
    dsimp only
    rcases Frame.push v caller with ⟨why | u, left⟩ <;> rfl

theorem handle_trace (c : CallStack) (f : Frame) (s : Signal) :
    (c.handle f s).callStack.trace = c.trace := by
  cases s with
  | ended => exact report_trace _ _
  | returned v => exact (receive_trace _ v).trans (report_trace _ _)
  | invoke signature special =>
    dsimp only [handle]
    rcases callFrame c.registry f signature special with ⟨why | ⟨callee, args⟩, left⟩
    · rfl
    · exact report_trace _ _

theorem step_trace (c : CallStack) : c.step.callStack.trace = c.trace := by
  unfold step
  cases c.frames.back? with
  | none => rfl
  | some f =>
    have hnext : (c.drop.reportNext f).trace = c.trace := reportNext_trace c.drop f
    dsimp only
    rcases Frame.step f with ⟨why | _ | signal, g⟩
    · exact hnext
    · exact hnext
    · exact (handle_trace _ g signal).trans hnext

/-- A run is traced from its start to its end or not at all. -/
theorem run_trace (c : CallStack) (fuel : Nat) : (c.run fuel).callStack.trace = c.trace := by
  induction fuel generalizing c with
  | zero => rfl
  | succ fuel ih =>
    have hstep := c.step_trace
    rw [run]
    cases h : c.step with
    | running d =>
      rw [h] at hstep
      exact (ih d).trans hstep
    | finished d | stopped why d =>
      rw [h] at hstep
      exact hstep

/-! ## The machine that is traced -/

/-- The machine with tracing on and these reports. -/
def tracing (c : CallStack) (es : List TraceEvent) : CallStack :=
  { c with trace := true, events := es.toArray }

end CallStack

def Progress.tracing (p : Progress) (es : List TraceEvent) : Progress :=
  match p with
  | .running c => .running (c.tracing es)
  | .finished c => .finished (c.tracing es)
  | .stopped why c => .stopped why (c.tracing es)

namespace CallStack

variable {c : CallStack} {es : List TraceEvent}

theorem report_tracing (c : CallStack) (es : List TraceEvent) (e : TraceEvent) :
    (c.tracing es).report e = c.tracing (es ++ [e]) := by
  simp [report, tracing]

theorem receive_tracing (c : CallStack) (es : List TraceEvent) (v : Int32) :
    (c.tracing es).receive v = (c.receive v).tracing es := by
  have hframes : (c.tracing es).frames = c.frames := rfl
  unfold receive
  rw [hframes]
  cases c.frames.back? with
  | none => rfl
  | some caller =>
    dsimp only
    rcases Frame.push v caller with ⟨why | u, left⟩ <;> rfl

/-! ## The machine that is not traced -/

/-- Tracing is off, and nothing was reported. -/
structure Silent (c : CallStack) : Prop where
  off : c.trace = false
  empty : c.events = #[]

theorem Silent.report (hc : c.Silent) (e : TraceEvent) : c.report e = c := by
  rw [CallStack.report, hc.off]
  rfl

/-- Where nothing is reported, an instruction that comes next is only counted. -/
theorem Silent.reportNext (hc : c.Silent) (f : Frame) :
    c.reportNext f = if f.next?.isSome then c.countInstruction else c := by
  unfold CallStack.reportNext
  cases f.next? with
  | none => rfl
  | some i => exact (show c.countInstruction.Silent from ⟨hc.off, hc.empty⟩).report _

theorem Silent.reportedNext (hc : c.Silent) (f : Frame) : (c.reportNext f).Silent := by
  rw [hc.reportNext]
  split
  · exact ⟨hc.off, hc.empty⟩
  · exact hc

theorem Silent.receive (hc : c.Silent) (v : Int32) : (c.receive v).callStack.Silent := by
  unfold CallStack.receive
  cases c.frames.back? with
  | none => exact ⟨hc.off, hc.empty⟩
  | some caller =>
    dsimp only
    rcases Frame.push v caller with ⟨why | u, left⟩ <;> exact ⟨hc.off, hc.empty⟩

theorem Silent.handle (hc : c.Silent) (f : Frame) (s : Signal) :
    (c.handle f s).callStack.Silent := by
  cases s with
  | ended =>
    dsimp only [CallStack.handle]
    rw [hc.report]
    exact hc
  | returned v =>
    dsimp only [CallStack.handle]
    rw [hc.report]
    exact hc.receive v
  | invoke signature special =>
    dsimp only [CallStack.handle]
    rcases callFrame c.registry f signature special with ⟨why | ⟨callee, args⟩, left⟩
    · exact ⟨hc.off, hc.empty⟩
    · have hcount : c.countInvocation.Silent := ⟨hc.off, hc.empty⟩
      dsimp only
      rw [hcount.report]
      exact ⟨hc.off, hc.empty⟩

theorem Silent.step (hc : c.Silent) : c.step.callStack.Silent := by
  unfold CallStack.step
  cases c.frames.back? with
  | none => exact hc
  | some f =>
    have hnext : (c.drop.reportNext f).Silent :=
      Silent.reportedNext (c := c.drop) ⟨hc.off, hc.empty⟩ f
    dsimp only
    rcases Frame.step f with ⟨why | _ | signal, g⟩
    · exact ⟨hnext.off, hnext.empty⟩
    · exact ⟨hnext.off, hnext.empty⟩
    · exact hnext.handle g signal

theorem Silent.run (hc : c.Silent) (fuel : Nat) : (c.run fuel).callStack.Silent := by
  induction fuel generalizing c with
  | zero => exact hc
  | succ fuel ih =>
    have hstep := hc.step
    rw [CallStack.run]
    cases h : c.step with
    | running d =>
      rw [h] at hstep
      exact ih hstep
    | finished d | stopped why d =>
      rw [h] at hstep
      exact hstep

/-! ## Steps with reports -/

theorem reportNext_registry (c : CallStack) (f : Frame) :
    (c.reportNext f).registry = c.registry := by
  unfold reportNext report
  split
  · split <;> rfl
  · rfl

theorem reportNext_tracing (hc : c.Silent) (es : List TraceEvent) (f : Frame) :
    (c.tracing es).reportNext f = (c.reportNext f).tracing
      (es ++ (f.next?.map fun i =>
        TraceEvent.instruction f.method.signature f.pc i f.stack f.locals).toList) := by
  rw [hc.reportNext]
  unfold reportNext
  cases f.next? with
  | none => simp
  | some i => exact report_tracing c.countInstruction es _

theorem method_step (f : Frame) : (Frame.step f).2.method = f.method := by
  have hstepped := Frame.stepped f
  rcases hstep : Frame.step f with ⟨r, g⟩
  rw [hstep] at hstepped
  cases hstepped with
  | stops hlater => exact hlater.method
  | goes hlater _ => exact hlater.method
  | calls => rfl

/-- What there is to report of the signal of a frame that was taken off the stack. -/
def signalled (r : Registry) (f : Frame) : Signal → List TraceEvent
  | .ended => [.ended f.method.signature]
  | .returned v => [.returned f.method.signature v]
  | .invoke signature special =>
    match callFrame r f signature special with
    | (.ok (_, args), _) => [.invoke f.method.signature signature args]
    | _ => []

theorem handle_tracing (hc : c.Silent) (es : List TraceEvent) (f : Frame) (s : Signal) :
    (c.tracing es).handle f s = (c.handle f s).tracing (es ++ signalled c.registry f s) := by
  cases s with
  | ended =>
    dsimp only [handle]
    rw [report_tracing, hc.report]
    rfl
  | returned v =>
    dsimp only [handle]
    rw [report_tracing, hc.report, receive_tracing]
    rfl
  | invoke signature special =>
    have hlater := callFrame_later c.registry f signature special
    have hregistry : (c.tracing es).registry = c.registry := rfl
    dsimp only [handle, signalled]
    rw [hregistry]
    rcases hcall : callFrame c.registry f signature special with ⟨why | ⟨callee, args⟩, left⟩
    · simp only [List.append_nil]
      rfl
    · rw [hcall] at hlater
      have hcount : (c.tracing es).countInvocation = c.countInvocation.tracing es := rfl
      have hsilent : c.countInvocation.Silent := ⟨hc.off, hc.empty⟩
      dsimp only
      rw [hcount, report_tracing, hsilent.report, hlater.method]
      rfl

/-- The reports of a step are those of its instruction and of its signal. -/
theorem shown_eq {f : Frame} (hback : c.frames.back? = some f) :
    c.shown = (f.next?.map fun i =>
        TraceEvent.instruction f.method.signature f.pc i f.stack f.locals).toList ++
      match Frame.step f with
      | (.ok (some s), g) => signalled c.registry g s
      | _ => [] := by
  have hmethod := method_step f
  unfold shown executing? calling? finishing?
  rw [hback]
  dsimp only [Option.bind_eq_bind, Option.bind_some]
  have hexecuting : (f.next?.bind fun i => pure
      (TraceEvent.instruction f.method.signature f.pc i f.stack f.locals)) = f.next?.map fun i =>
        TraceEvent.instruction f.method.signature f.pc i f.stack f.locals := by
    cases f.next? <;> rfl
  rw [hexecuting, List.append_assoc]
  rcases hstep : Frame.step f with ⟨why | _ | _ | v | ⟨signature, special⟩, g⟩ <;>
    rw [hstep] at hmethod <;> dsimp only [signalled]
  · rfl
  · rfl
  · rw [hmethod]
    rfl
  · rw [hmethod]
    rfl
  · rw [hmethod]
    rcases callFrame c.registry g signature special with ⟨why | ⟨callee, args⟩, left⟩ <;> rfl

theorem numbers_eq (values : List Int32) : numbers values = loggedNumbers values := by
  have hjoin (texts : List Bytes) : Bytes.join " " texts = List.intercalate " " texts := by
    induction texts with
    | nil => rfl
    | cons s rest ih =>
      cases rest with
      | nil => simp [Bytes.join, List.intercalate]
      | cons t rest => simp [Bytes.join, ih, List.intercalate, List.intersperse]
  rw [numbers, loggedNumbers, hjoin]

theorem signalTexts_eq (r : Registry) (f : Frame) (s : Signal) :
    signalTexts r f s = (signalled r f s).map TraceEvent.message := by
  cases s with
  | ended | returned => rfl
  | invoke signature special =>
    dsimp only [signalTexts, signalled]
    split
    · rw [← numbers_eq]
      rfl
    · rfl

/-- What there is to report of a step is logged in these texts. -/
theorem texts_eq (c : CallStack) : c.texts = c.shown.map TraceEvent.message := by
  unfold texts
  cases hback : c.frames.back? with
  | none => simp [shown, executing?, calling?, finishing?, hback]
  | some f =>
    have hnext : (f.next?.map (instructionText f)).toList =
        (f.next?.map fun i => TraceEvent.instruction f.method.signature f.pc i f.stack
          f.locals).toList.map TraceEvent.message := by
      cases f.next? with
      | none => rfl
      | some i =>
        simp only [Option.map_some, Option.toList_some, List.map_cons, List.map_nil,
          TraceEvent.message, instructionText, numbers_eq]
    rw [shown_eq hback, List.map_append, ← hnext]
    dsimp only
    rcases Frame.step f with ⟨why | _ | signal, g⟩ <;> dsimp only
    · rfl
    · rfl
    · rw [signalTexts_eq]

theorem flatMap_lines (stages : List CallStack) :
    stages.flatMap lines = (stages.flatMap shown).map fun e => (RunEvent.traced e).line := by
  have hlines (c : CallStack) : c.lines = c.shown.map fun e => (RunEvent.traced e).line := by
    rw [lines, texts_eq, List.map_map]
    rfl
  rw [List.map_flatMap, funext hlines]

theorem step_tracing (hc : c.Silent) (es : List TraceEvent) :
    (c.tracing es).step = c.step.tracing (es ++ c.shown) := by
  have hframes : (c.tracing es).frames = c.frames := rfl
  unfold step
  rw [hframes]
  cases hback : c.frames.back? with
  | none => simp [shown, executing?, calling?, finishing?, hback, Progress.tracing]
  | some f =>
    have hsilent : c.drop.Silent := ⟨hc.off, hc.empty⟩
    have hregistry : (c.drop.reportNext f).registry = c.registry := reportNext_registry c.drop f
    have hdrop : (c.tracing es).drop = c.drop.tracing es := rfl
    dsimp only
    rw [hdrop, reportNext_tracing hsilent, shown_eq hback]
    rcases Frame.step f with ⟨why | _ | signal, g⟩ <;> dsimp only
    · rw [List.append_nil]
      rfl
    · rw [List.append_nil]
      rfl
    · rw [handle_tracing (hsilent.reportedNext f), hregistry, List.append_assoc]

/-! ## Runs -/

theorem stages_succ (fuel : Nat) (c : CallStack) :
    c.stages (fuel + 1) = c :: match c.step with
      | .running d => d.stages fuel
      | _ => [] := by
  unfold stages
  rw [List.range_succ_eq_map, List.filterMap_cons, List.filterMap_map]
  refine congrArg (c :: ·) ?_
  cases hstep : c.step <;> simp [run, hstep, Function.comp_def]

theorem run_tracing (hc : c.Silent) (es : List TraceEvent) (fuel : Nat) :
    (c.tracing es).run fuel = (c.run fuel).tracing (es ++ (c.stages fuel).flatMap shown) := by
  induction fuel generalizing c es with
  | zero =>
    rw [stages, List.range_zero, List.filterMap_nil, List.flatMap_nil, List.append_nil]
    rfl
  | succ fuel ih =>
    have hsilent := hc.step
    rw [run, run, step_tracing hc, stages_succ, List.flatMap_cons, ← List.append_assoc]
    cases hstep : c.step with
    | running d =>
      rw [hstep] at hsilent
      exact ih hsilent _
    | finished d | stopped why d => simp [Progress.tracing]

/-! ## Counts -/

/-- From one machine to a later one: the counts have grown with the reports between them, and a
frame is there for each call of which no end was reported. -/
structure Tally (c d : CallStack) (es : List TraceEvent) : Prop where
  instructions : d.stats.instructions = c.stats.instructions + es.countP TraceEvent.isInstruction
  invocations : d.stats.invocations = c.stats.invocations + es.countP TraceEvent.isInvoke
  depth : d.depth + es.countP TraceEvent.isEnding = c.depth + es.countP TraceEvent.isInvoke

theorem Tally.refl (c : CallStack) : Tally c c [] := ⟨rfl, rfl, rfl⟩

theorem Tally.trans {d e : CallStack} {es' : List TraceEvent} (h : Tally c d es)
    (h' : Tally d e es') : Tally c e (es ++ es') where
  instructions := by rw [h'.instructions, h.instructions, List.countP_append, Nat.add_assoc]
  invocations := by rw [h'.invocations, h.invocations, List.countP_append, Nat.add_assoc]
  depth := by
    have hfirst := h.depth
    have hsecond := h'.depth
    rw [List.countP_append, List.countP_append]
    omega

theorem report_counts (c : CallStack) (e : TraceEvent) :
    (c.report e).stats = c.stats ∧ (c.report e).frames = c.frames := by
  unfold report
  split <;> exact ⟨rfl, rfl⟩

theorem receive_counts (c : CallStack) (v : Int32) :
    (c.receive v).callStack.stats = c.stats ∧ (c.receive v).callStack.depth = c.depth := by
  unfold receive
  cases hback : c.frames.back? with
  | none => exact ⟨rfl, rfl⟩
  | some caller =>
    obtain ⟨rest, hframes⟩ := Array.back?_eq_some_iff.1 hback
    have hdepth (g : Frame) : (c.drop.restore g).depth = c.depth := by
      simp [depth, restore, drop, hframes]
    dsimp only
    rcases Frame.push v caller with ⟨why | u, left⟩ <;> exact ⟨rfl, hdepth left⟩

/-- The frame `f` was taken off the stack; it is back unless its end is reported. -/
theorem tally_handle (c : CallStack) (f : Frame) (s : Signal) :
    Tally (c.restore f) (c.handle f s).callStack (signalled c.registry f s) := by
  have hrestore : (c.restore f).depth = c.depth + 1 := Array.size_push f
  cases s with
  | ended =>
    obtain ⟨hstats, hframes⟩ := report_counts c (.ended f.method.signature)
    dsimp only [handle, Progress.callStack, signalled]
    refine ⟨congrArg Stats.instructions hstats, congrArg Stats.invocations hstats, ?_⟩
    rw [hrestore, depth, hframes]
    rfl
  | returned v =>
    obtain ⟨hstats, hframes⟩ := report_counts c (.returned f.method.signature v)
    obtain ⟨hstats', hdepth⟩ := receive_counts (c.report (.returned f.method.signature v)) v
    have hsame := hstats'.trans hstats
    dsimp only [handle, signalled]
    refine ⟨congrArg Stats.instructions hsame, congrArg Stats.invocations hsame, ?_⟩
    rw [hrestore, hdepth, depth, hframes]
    rfl
  | invoke signature special =>
    dsimp only [handle, signalled]
    rcases callFrame c.registry f signature special with ⟨why | ⟨callee, args⟩, left⟩
    · exact ⟨rfl, rfl, by simp [Progress.callStack, depth, restore]⟩
    · obtain ⟨hstats, hframes⟩ :=
        report_counts c.countInvocation (.invoke left.method.signature signature args)
      refine ⟨?_, ?_, ?_⟩ <;>
        simp only [Progress.callStack, push, restore, depth, hstats, hframes, Array.size_push] <;>
        rfl

theorem tally_reportNext (c : CallStack) (f : Frame) :
    Tally c (c.reportNext f) (f.next?.map fun i =>
      TraceEvent.instruction f.method.signature f.pc i f.stack f.locals).toList := by
  unfold reportNext
  cases f.next? with
  | none => exact .refl c
  | some i =>
    obtain ⟨hstats, hframes⟩ := report_counts c.countInstruction
      (.instruction f.method.signature f.pc i f.stack f.locals)
    refine ⟨?_, ?_, ?_⟩ <;> simp only [depth, hstats, hframes] <;> rfl

theorem tally_step (c : CallStack) : Tally c c.step.callStack c.shown := by
  unfold step
  cases hback : c.frames.back? with
  | none =>
    simp only [shown, executing?, calling?, finishing?, hback]
    exact .refl c
  | some f =>
    obtain ⟨base, hframes⟩ := Array.back?_eq_some_iff.1 hback
    have hdepth : c.depth = c.drop.depth + 1 := by simp [depth, drop, hframes]
    have hnext := tally_reportNext c.drop f
    have hregistry : (c.drop.reportNext f).registry = c.registry := reportNext_registry c.drop f
    have hback' (g : Frame) : Tally c ((c.drop.reportNext f).restore g) (f.next?.map fun i =>
        TraceEvent.instruction f.method.signature f.pc i f.stack f.locals).toList := by
      refine ⟨hnext.instructions, hnext.invocations, ?_⟩
      have hrestore : ((c.drop.reportNext f).restore g).depth = (c.drop.reportNext f).depth + 1 :=
        Array.size_push g
      have hsame := hnext.depth
      omega
    rw [shown_eq hback]
    dsimp only
    rcases Frame.step f with ⟨why | _ | signal, g⟩ <;> dsimp only
    · rw [List.append_nil]
      exact hback' g
    · rw [List.append_nil]
      exact hback' g
    · have hhandle := tally_handle (c.drop.reportNext f) g signal
      rw [hregistry] at hhandle
      exact (hback' g).trans hhandle

theorem tally_run (c : CallStack) (fuel : Nat) :
    Tally c (c.run fuel).callStack ((c.stages fuel).flatMap shown) := by
  induction fuel generalizing c with
  | zero => exact .refl c
  | succ fuel ih =>
    have hstep := tally_step c
    rw [run, stages_succ, List.flatMap_cons]
    cases h : c.step with
    | running d =>
      rw [h] at hstep
      exact hstep.trans (ih d)
    | finished d | stopped why d =>
      rw [h] at hstep
      simpa using hstep

/-! ## What a trace is made of -/

/-- Each part of the report of a step is of its kind and of no other. -/
theorem kinds (c : CallStack) :
    (∀ e ∈ c.executing?, e.isInstruction ∧ ¬e.isInvoke ∧ ¬e.isEnding) ∧
      (∀ e ∈ c.calling?, ¬e.isInstruction ∧ e.isInvoke ∧ ¬e.isEnding) ∧
      ∀ e ∈ c.finishing?, ¬e.isInstruction ∧ ¬e.isInvoke ∧ e.isEnding := by
  refine ⟨fun e he => ?_, fun e he => ?_, fun e he => ?_⟩
  · obtain ⟨f, -, he⟩ := Option.bind_eq_some_iff.1 he
    obtain ⟨i, -, he⟩ := Option.bind_eq_some_iff.1 he
    cases he
    exact ⟨rfl, nofun, nofun⟩
  · obtain ⟨f, -, he⟩ := Option.bind_eq_some_iff.1 he
    split at he
    · split at he
      · cases he
        exact ⟨nofun, rfl, nofun⟩
      · cases he
    · cases he
  · obtain ⟨f, -, he⟩ := Option.bind_eq_some_iff.1 he
    split at he <;> cases he <;> exact ⟨nofun, nofun, rfl⟩

theorem filter_shown (c : CallStack) :
    c.shown.filter TraceEvent.isInstruction = c.executing?.toList ∧
      c.shown.filter TraceEvent.isInvoke = c.calling?.toList ∧
      c.shown.filter TraceEvent.isEnding = c.finishing?.toList := by
  obtain ⟨hexecuting, hcalling, hfinishing⟩ := c.kinds
  have hall {o : Option TraceEvent} {p : TraceEvent → Bool} (h : ∀ e ∈ o, p e) :
      o.toList.filter p = o.toList :=
    List.filter_eq_self.2 fun e he => h e (Option.mem_toList.1 he)
  have hnone {o : Option TraceEvent} {p : TraceEvent → Bool} (h : ∀ e ∈ o, ¬p e) :
      o.toList.filter p = [] :=
    List.filter_eq_nil_iff.2 fun e he => h e (Option.mem_toList.1 he)
  unfold shown
  simp only [List.filter_append]
  refine ⟨?_, ?_, ?_⟩
  · rw [hall fun e he => (hexecuting e he).1, hnone fun e he => (hcalling e he).1,
      hnone fun e he => (hfinishing e he).1, List.append_nil, List.append_nil]
  · rw [hnone fun e he => (hexecuting e he).2.1, hall fun e he => (hcalling e he).2.1,
      hnone fun e he => (hfinishing e he).2.1, List.append_nil, List.nil_append]
  · rw [hnone fun e he => (hexecuting e he).2.2, hnone fun e he => (hcalling e he).2.2,
      hall fun e he => (hfinishing e he).2.2, List.nil_append, List.nil_append]

/-- A frame that was taken off the stack never finishes the run by itself. -/
theorem handle_unfinished (c d : CallStack) (f : Frame) (s : Signal) :
    c.handle f s ≠ .finished d := by
  intro h
  cases s with
  | ended => cases h
  | returned v =>
    dsimp only [handle] at h
    unfold receive at h
    split at h
    · cases h
    · dsimp only at h
      split at h <;> cases h
  | invoke signature special =>
    dsimp only [handle] at h
    split at h <;> cases h

/-- A run is finished when no frame is left. -/
theorem step_finished {d : CallStack} (h : c.step = .finished d) : d.depth = 0 := by
  unfold step at h
  split at h
  · rename_i hback
    cases h
    rw [depth, Array.back?_eq_none_iff.1 hback]
    rfl
  · dsimp only at h
    split at h
    · cases h
    · cases h
    · exact absurd h (handle_unfinished _ _ _ _)

theorem run_finished {d : CallStack} {fuel : Nat} (h : c.run fuel = .finished d) : d.depth = 0 := by
  induction fuel generalizing c with
  | zero => cases h
  | succ fuel ih =>
    rw [run] at h
    cases hstep : c.step with
    | running e =>
      rw [hstep] at h
      exact ih h
    | stopped why e =>
      rw [hstep] at h
      cases h
    | finished e =>
      rw [hstep] at h
      cases h
      exact step_finished hstep

end CallStack

/-! ## Whole runs -/

/-- The trace of a run that took a step from each of these machines and ended so. -/
structure FullyTraced (trace : List TraceEvent) (stages : List CallStack) (status : ExitStatus) :
    Prop where
  /-- The steps are reported in their order. -/
  whole : trace = stages.flatMap CallStack.shown
  /-- Each instruction is reported with the operand stack and the locals before it. -/
  instructions : trace.filter TraceEvent.isInstruction = stages.filterMap CallStack.executing?
  executed : (trace.filter TraceEvent.isInstruction).length = status.stats.instructions
  /-- Each call is reported with its arguments. -/
  invokes : trace.filter TraceEvent.isInvoke = stages.filterMap CallStack.calling?
  called : (trace.filter TraceEvent.isInvoke).length = status.stats.invocations
  /-- Each frame that ends is reported. -/
  endings : trace.filter TraceEvent.isEnding = stages.filterMap CallStack.finishing?
  /-- A completed run has ended the frames of all calls and that of the entry method. -/
  ended : status.verdict = .completed →
    (trace.filter TraceEvent.isEnding).length = status.stats.invocations + 1

namespace Registry

variable {r : Registry} {entry : Bytes} {args : List Int32} {c : CallStack}

/-- The machine before each step of a run without a trace. -/
def stages (r : Registry) (fuel : Nat) (entry : Bytes) (args : List Int32) : List CallStack :=
  match r.start entry args false with
  | .error _ => []
  | .ok c => c.stages fuel

theorem start_tracing (r : Registry) (entry : Bytes) (args : List Int32) :
    r.start entry args true = (r.start entry args false).map fun c => c.tracing [] := by
  unfold start
  cases CallStack.find r entry with
  | error e => rfl
  | ok found =>
    obtain ⟨m, pool⟩ := found
    dsimp only
    cases Frame.create m pool args <;> rfl

theorem start_silent (h : r.start entry args false = .ok c) : c.Silent := by
  obtain ⟨m, cls, f, -, -, -, rfl⟩ := start_ok h
  exact ⟨rfl, rfl⟩

theorem finish_tracing (entry : Bytes) (p : Progress) (es : List TraceEvent) :
    finish entry (p.tracing es) = finish entry p := by
  cases p <;> rfl

theorem traceOf_tracing (p : Progress) (es : List TraceEvent) :
    traceOf (p.tracing es) = es.map .traced := by
  cases p <;> rfl

theorem traceOf_silent {p : Progress} (h : p.callStack.Silent) : traceOf p = [] := by
  cases p <;> exact congrArg (fun events => events.toList.map RunEvent.traced) h.empty

/-- A run ends with the counts of its machine; without a fault, no frame is left. -/
theorem finish_ended {fuel : Nat} {status : ExitStatus}
    (h : (finish entry (c.run fuel)).1 = .ended status) :
    status.stats = (c.run fuel).callStack.stats ∧
      (status.verdict = .completed → (c.run fuel).callStack.depth = 0) := by
  cases hrun : c.run fuel with
  | running d =>
    rw [hrun] at h
    cases h
  | finished d =>
    rw [hrun] at h
    cases h
    exact ⟨rfl, fun _ => CallStack.run_finished hrun⟩
  | stopped why d =>
    rw [hrun] at h
    cases why with
    | crash => cases h
    | fault fault =>
      cases h
      exact ⟨rfl, nofun⟩

theorem fullyTraced_of_run {fuel : Nat} {status : ExitStatus}
    (hstart : r.start entry args false = .ok c)
    (h : (finish entry (c.run fuel)).1 = .ended status) :
    FullyTraced ((c.stages fuel).flatMap CallStack.shown) (c.stages fuel) status := by
  obtain ⟨hstats, hdepth⟩ := finish_ended h
  have htally := c.tally_run fuel
  have hbegin : c.stats.instructions = 0 ∧ c.stats.invocations = 0 ∧ c.depth = 1 := by
    obtain ⟨m, cls, f, -, -, -, rfl⟩ := start_ok hstart
    exact ⟨rfl, rfl, rfl⟩
  have hinstructions := htally.instructions
  have hinvocations := htally.invocations
  have hends := htally.depth
  simp only [hbegin, ← hstats, List.countP_eq_length_filter] at hinstructions hinvocations hends
  refine ⟨rfl, ?_, by omega, ?_, by omega, ?_, fun hcompleted => ?_⟩
  · simp only [List.filter_flatMap, CallStack.filter_shown, List.filterMap_eq_flatMap_toList]
  · simp only [List.filter_flatMap, CallStack.filter_shown, List.filterMap_eq_flatMap_toList]
  · simp only [List.filter_flatMap, CallStack.filter_shown, List.filterMap_eq_flatMap_toList]
  · rw [hdepth hcompleted] at hends
    omega

/-- The trace of a run and what it reports besides. -/
theorem trace_untraced (outcome : RunOutcome) (first : List RunEvent) (es : List TraceEvent)
    {last : List RunEvent} (hfirst : ∀ e ∈ first, e.traced? = none)
    (hlast : ∀ e ∈ last, e.traced? = none) :
    RunReport.trace ⟨outcome, first ++ es.map .traced ++ last⟩ = es ∧
      RunReport.untraced ⟨outcome, first ++ es.map .traced ++ last⟩ = first ++ last := by
  have hplain {l : List RunEvent} (h : ∀ e ∈ l, e.traced? = none) :
      l.filterMap RunEvent.traced? = [] ∧ l.filter (fun e => e.traced?.isNone) = l :=
    ⟨List.filterMap_eq_nil_iff.2 h, List.filter_eq_self.2 fun e he => by rw [h e he]; rfl⟩
  have htraced : (es.map RunEvent.traced).filterMap RunEvent.traced? = es ∧
      (es.map RunEvent.traced).filter (fun e => e.traced?.isNone) = [] := by
    constructor
    · rw [List.filterMap_map]
      exact List.filterMap_some
    · rw [List.filter_map, List.map_eq_nil_iff]
      exact List.filter_eq_nil_iff.2 nofun
  unfold RunReport.trace RunReport.untraced
  simp only [List.filterMap_append, List.filter_append, hplain hfirst, hplain hlast, htraced,
    List.append_nil, List.nil_append, and_self]

theorem stopped_plain (entry : Bytes) (s : Stats) (why : Stop) :
    ∀ e ∈ (stopped entry s why).2, e.traced? = none := by
  intro e he
  cases why with
  | crash => cases he
  | fault fault =>
    rw [List.mem_singleton.1 he]
    rfl

theorem finish_plain (entry : Bytes) (p : Progress) :
    ∀ e ∈ (finish entry p).2, e.traced? = none := by
  cases p with
  | running c => exact nofun
  | stopped why c => exact stopped_plain entry c.stats why
  | finished c =>
    intro e he
    rw [List.mem_singleton.1 he]
    rfl

theorem fullyTraced_of_stopped {why : Stop} {status : ExitStatus}
    (h : (stopped entry {} why).1 = .ended status) : FullyTraced [] [] status := by
  cases why with
  | crash => cases h
  | fault fault =>
    cases h
    exact ⟨rfl, rfl, rfl, rfl, rfl, rfl, nofun⟩

/-- A run ends with a trace as it ends without one, and what it reports besides is the same. The
trace tells what each of its steps does, one report for each executed instruction, counted call and
frame that ended, and its lines stand in the log between the first and the last of the run. -/
theorem execute_traced (r : Registry) (fuel : Nat) (entry : Bytes) (args : List Int32) :
    (r.execute fuel entry args true).outcome = (r.execute fuel entry args false).outcome ∧
      (r.execute fuel entry args true).untraced = (r.execute fuel entry args false).events ∧
      (∀ status, (r.execute fuel entry args false).outcome = .ended status →
        FullyTraced (r.execute fuel entry args true).trace (r.stages fuel entry args) status) ∧
      ∃ first last, (r.execute fuel entry args false).log = first ++ last ∧
        (r.execute fuel entry args true).log =
          first ++ (r.stages fuel entry args).flatMap CallStack.lines ++ last := by
  unfold execute stages
  rw [start_tracing]
  cases hstart : r.start entry args false with
  | error why =>
    obtain ⟨htrace, huntraced⟩ :=
      trace_untraced (stopped entry {} why).1 [] [] nofun (stopped_plain entry {} why)
    exact ⟨rfl, huntraced, fun status h => htrace.symm ▸ fullyTraced_of_stopped h, [], _, rfl, rfl⟩
  | ok c =>
    have hsilent := start_silent hstart
    have hplain := finish_plain entry (c.run fuel)
    dsimp only [Except.map]
    rw [CallStack.run_tracing hsilent, finish_tracing, traceOf_tracing,
      traceOf_silent (hsilent.run fuel)]
    have hfirst : ∀ e ∈ [RunEvent.started entry], e.traced? = none := by
      intro e he
      rw [List.mem_singleton.1 he]
      rfl
    obtain ⟨htrace, huntraced⟩ := trace_untraced (finish entry (c.run fuel)).1 [.started entry]
      ((c.stages fuel).flatMap CallStack.shown) hfirst hplain
    refine ⟨rfl, huntraced, fun status h => htrace.symm ▸ fullyTraced_of_run hstart h,
      [RunEvent.line (.started entry)], (finish entry (c.run fuel)).2.map RunEvent.line, rfl, ?_⟩
    rw [RunReport.log, CallStack.flatMap_lines, List.map_append, List.map_cons, List.map_map]
    rfl

/-- A method with room for what the method it calls returns. -/
def roomy : ClassDef :=
  { crowded with
    methods := some
      [⟨"one", "()I", 1, 0, some [.plain .iconst1, .plain .ireturn]⟩,
        ⟨"main", "()V", 1, 2, some [.invokestatic 1, .plain .returnVoid]⟩] }

theorem execute_traced_roomy :
    ∃ r status, load [roomy] = .ok r ∧
      (r.execute 8 "A.main:()V" [7] false).outcome = .ended status ∧
      status = ⟨none, none, ⟨4, 1, 2⟩⟩ ∧
      (r.execute 8 "A.main:()V" [7] true).outcome = .ended status ∧
      FullyTraced (r.execute 8 "A.main:()V" [7] true).trace (r.stages 8 "A.main:()V" [7])
        status := by
  have hchecked : ∃ r ∈ (load [roomy]).toOption,
      (r.execute 8 "A.main:()V" [7] false).outcome = .ended ⟨none, none, ⟨4, 1, 2⟩⟩ := by
    decide +kernel
  obtain ⟨r, hload, houtcome⟩ := hchecked
  obtain ⟨hsame, -, htraced, -⟩ := execute_traced r 8 "A.main:()V" [7]
  exact ⟨r, _, eq_ok_of_mem_toOption hload, houtcome, rfl, hsame.trans houtcome,
    htraced _ houtcome⟩

example :
    (∃ r ∈ (load [roomy]).toOption,
      (r.execute 8 "A.main:()V" [7] true).trace.map TraceEvent.message =
        ["A.main:()V 0000 invokestatic #1      stack=[] locals=[7 0]",
          "A.main:()V invoke A.one:()I args=[]",
          "A.one:()I 0000 iconst_1             stack=[] locals=[]",
          "A.one:()I 0001 ireturn              stack=[1] locals=[]",
          "A.one:()I return 1",
          "A.main:()V 0001 return               stack=[1] locals=[7 0]",
          "A.main:()V end"]) := by
  decide +kernel

end Registry

end MiniJvm
