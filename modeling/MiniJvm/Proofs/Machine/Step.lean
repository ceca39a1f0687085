import Mathlib
import MiniJvm.Proofs.Code.Walk
import MiniJvm.Proofs.Machine.Frame

/-!
# What one step of a frame may do

`Frame.Stepped f` lists the ways in which a step of `f` can come out: it stops, it goes on or ends
within the bounds of the frame, or it asks for the call that the instruction names and leaves
everything but its place as it was (`Frame.stepped`). So a run that asks for a call stands right
behind that call (`Frame.behind_of_run`). Nothing is assumed of the frame.
-/

namespace MiniJvm.Frame

variable {α β : Type}

/-- `g` is the activation `f` at a later time: its operand stack and its place are still within the
bounds of the method if they were before. -/
structure Later (f g : Frame) : Prop where
  method : g.method = f.method
  pool : g.pool = f.pool
  locals : g.locals.size = f.locals.size
  stack : f.stack.size ≤ f.method.maxStack.toInt → g.stack.size ≤ f.method.maxStack.toInt
  pc : f.pc ≤ f.method.code.size → g.pc ≤ f.method.code.size

theorem Later.refl (f : Frame) : Later f f := ⟨rfl, rfl, rfl, id, id⟩

theorem Later.trans {f g h : Frame} (hg : Later f g) (hh : Later g h) : Later f h where
  method := hh.method.trans hg.method
  pool := hh.pool.trans hg.pool
  locals := hh.locals.trans hg.locals
  stack := fun hf => hg.method ▸ hh.stack (hg.method.symm ▸ hg.stack hf)
  pc := fun hf => hg.method ▸ hh.pc (hg.method.symm ▸ hg.pc hf)

/-- Whatever frame `x` works on, it leaves a later state of it, and a result has property `p`. -/
def Gives (p : α → Prop) (x : FrameM α) : Prop :=
  ∀ f, Later f (x f).2 ∧ ∀ a, (x f).1 = .ok a → p a

theorem Gives.bind {x : FrameM α} {k : α → FrameM β} {p : α → Prop} {q : β → Prop}
    (h : Gives p x) (hk : ∀ a, p a → Gives q (k a)) : Gives q (x >>= k) := by
  intro f
  obtain ⟨hlater, hok⟩ := h f
  rw [bind_apply]
  rcases hx : x f with ⟨why | a, g⟩ <;> rw [hx] at hlater hok
  · exact ⟨hlater, nofun⟩
  · obtain ⟨hlater', hok'⟩ := hk a (hok a rfl) g
    exact ⟨hlater.trans hlater', hok'⟩

theorem gives_pure {p : α → Prop} {a : α} (h : p a) : Gives p (pure a : FrameM α) :=
  fun f => ⟨.refl f, fun _ ha => Except.ok.inj ha ▸ h⟩

theorem gives_raise (p : α → Prop) (cause : FaultCause) : Gives p (raise cause : FrameM α) :=
  fun f => ⟨.refl f, nofun⟩

/-! ## The operations -/

theorem gives_push (v : Int32) : Gives (fun _ => True) (push v) := by
  intro f
  rw [push_apply]
  split
  · exact ⟨.refl f, nofun⟩
  · rename_i hroom
    refine ⟨⟨rfl, rfl, rfl, fun _ => ?_, id⟩, fun _ _ => trivial⟩
    have hsize : (f.stack.push v).size = f.stack.size + 1 := Array.size_push v
    dsimp only
    omega

theorem gives_pop : Gives (fun _ => True) pop := by
  intro f
  rw [pop_apply]
  split
  · exact ⟨.refl f, nofun⟩
  · refine ⟨⟨rfl, rfl, rfl, fun h => ?_, id⟩, fun _ _ => trivial⟩
    have hsize : f.stack.pop.size = f.stack.size - 1 := Array.size_pop
    dsimp only
    omega

theorem gives_popArgs (count : Int64) : Gives (fun _ => True) (popArgs count) := by
  intro f
  rw [popArgs_apply]
  split
  · exact ⟨.refl f, nofun⟩
  · split
    · exact ⟨.refl f, nofun⟩
    · refine ⟨⟨rfl, rfl, rfl, fun h => ?_, id⟩, fun _ _ => trivial⟩
      simp only [Array.take_eq_extract, Array.size_extract]
      omega

theorem gives_load (slot : Int) : Gives (fun _ => True) (load slot) := by
  intro f
  rw [load_apply]
  split
  · exact ⟨.refl f, nofun⟩
  · split
    · exact ⟨.refl f, fun _ _ => trivial⟩
    · exact ⟨.refl f, nofun⟩

theorem gives_store (slot : Int) (v : Int32) : Gives (fun _ => True) (store slot v) := by
  intro f
  rw [store_apply]
  split
  · exact ⟨⟨rfl, rfl, Array.size_setIfInBounds, id, id⟩, fun _ _ => trivial⟩
  · exact ⟨.refl f, nofun⟩

theorem gives_jump (target : Int32) : Gives (fun _ => True) (jump target) := by
  intro f
  rw [jump_apply]
  split
  · rename_i hin
    refine ⟨⟨rfl, rfl, rfl, id, fun _ => ?_⟩, fun _ _ => trivial⟩
    dsimp only
    omega
  · exact ⟨.refl f, nofun⟩

/-! ## Instructions -/

/-- No method is to be called. -/
def NoCall (o : Option Signal) : Prop := ∀ signature special, o ≠ some (.invoke signature special)

theorem gives_goOn : Gives NoCall (pure none : FrameM (Option Signal)) := gives_pure nofun

theorem gives_execute {i : Instruction} (h : i.op.isInvoke = false) : Gives NoCall (execute i) := by
  unfold execute
  cases hm : i.op.mnemonic? with
  | none => exact gives_raise _ _
  | some m =>
    rw [Opcode.isInvoke, hm] at h
    cases m <;> dsimp only
    case iconstM1 | iconst0 | iconst1 | iconst2 | iconst3 | iconst4 | iconst5 | bipush | sipush =>
      exact (gives_push _).bind fun _ _ => gives_goOn
    case iload | iload0 | iload1 | iload2 | iload3 | aload0 =>
      exact (gives_load _).bind fun v _ => (gives_push v).bind fun _ _ => gives_goOn
    case istore | istore0 | istore1 | istore2 | istore3 =>
      exact gives_pop.bind fun v _ => (gives_store _ v).bind fun _ _ => gives_goOn
    case iinc =>
      exact (gives_load _).bind fun v _ => (gives_store _ _).bind fun _ _ => gives_goOn
    case iadd =>
      exact gives_pop.bind fun _ _ => gives_pop.bind fun _ _ =>
        (gives_push _).bind fun _ _ => gives_goOn
    case goto => exact (gives_jump _).bind fun _ _ => gives_goOn
    case ifIcmplt =>
      refine gives_pop.bind fun right _ => gives_pop.bind fun left _ => ?_
      by_cases hlt : left < right
      · simp only [if_pos hlt]
        exact (gives_jump _).bind fun _ _ => gives_goOn
      · simp only [if_neg hlt]
        exact gives_goOn
    case returnVoid => exact gives_pure nofun
    case ireturn => exact gives_pop.bind fun v _ => gives_pure nofun
    case invokestatic | invokespecial => cases h

/-- A call looks up the method that it names and asks for it. -/
theorem execute_invoke {i : Instruction} (h : i.op.isInvoke = true) (f : Frame) :
    execute i f = match callee i f with
      | (.ok signature, g) =>
        (.ok (some (.invoke signature (decide (i.op = Mnemonic.invokespecial.opcode)))), g)
      | (.error why, g) => (.error why, g) := by
  have hexecute : execute i f = (callee i >>= fun signature =>
      (pure (some (.invoke signature (decide (i.op = Mnemonic.invokespecial.opcode)))) :
        FrameM (Option Signal))) f := by
    unfold execute
    cases hm : i.op.mnemonic? with
    | none => rw [Opcode.isInvoke, hm] at h; cases h
    | some m =>
      rw [Opcode.isInvoke, hm] at h
      have hop : i.op = m.opcode := congrArg Opcode.mk (Code.byte_of_ofByte? hm)
      cases m <;> simp [Mnemonic.isInvoke] at h <;> rw [hop] <;> rfl
  rw [hexecute, bind_apply]
  rcases callee i f with ⟨why | signature, g⟩ <;> rfl

/-- A call names a method, or the run stops; in either case the frame stays as it is. -/
theorem execute_call {i : Instruction} (h : i.op.isInvoke = true) (f : Frame) :
    (∃ why, execute i f = (.error why, f)) ∨ ∃ pool signature, f.pool = some pool ∧
      pool.resolve i.poolIndex = .ok signature ∧
      execute i f = (.ok (some (.invoke signature
        (decide (i.op = Mnemonic.invokespecial.opcode)))), f) := by
  rw [execute_invoke h, callee_apply]
  cases hp : f.pool with
  | none =>
    by_cases hzero : i.poolIndex = 0 <;> simp only [hzero, if_true, if_false] <;>
      exact .inl ⟨_, rfl⟩
  | some pool =>
    dsimp only
    cases hr : pool.resolve i.poolIndex with
    | error e => exact .inl ⟨_, rfl⟩
    | ok signature => exact .inr ⟨pool, signature, rfl, hr, rfl⟩

/-! ## Steps -/

theorem later_advance {f : Frame} {i : Instruction} (hi : f.next? = some i) : Later f f.advance :=
  ⟨rfl, rfl, rfl, id, fun _ => (Array.getElem?_eq_some_iff.1 hi).1⟩

/-- The frame stands right behind a call in a class with these constants. -/
structure Behind (f : Frame) (i : Instruction) (pool : Pool) : Prop where
  passed : 1 ≤ f.pc
  last : f.method.code[f.pc - 1]? = some i
  call : i.op.isInvoke = true
  constants : f.pool = some pool

/-- How a step of `f` comes out. -/
inductive Stepped (f : Frame) : Except Stop (Option Signal) × Frame → Prop where
  | stops {why : Stop} {g : Frame} : Later f g → Stepped f (.error why, g)
  | goes {o : Option Signal} {g : Frame} : Later f g → NoCall o → Stepped f (.ok o, g)
  | calls {i : Instruction} {pool : Pool} {signature : Bytes} : f.next? = some i →
      i.op.isInvoke = true → f.pool = some pool → pool.resolve i.poolIndex = .ok signature →
      Stepped f (.ok (some (.invoke signature
        (decide (i.op = Mnemonic.invokespecial.opcode)))), f.advance)

theorem stepped (f : Frame) : Stepped f (step f) := by
  rw [step_apply]
  cases hi : f.next? with
  | none => exact .goes (.refl f) nofun
  | some i =>
    have hadvance := later_advance hi
    dsimp only
    cases hcall : i.op.isInvoke with
    | true =>
      rcases execute_call hcall f.advance with ⟨why, h⟩ | ⟨pool, signature, hp, hr, h⟩ <;> rw [h]
      · exact .stops hadvance
      · exact .calls hi hcall hp hr
    | false =>
      obtain ⟨hlater, hok⟩ := gives_execute hcall f.advance
      rcases hx : execute i f.advance with ⟨why | o, g⟩ <;> rw [hx] at hlater hok
      · exact .stops (hadvance.trans hlater)
      · exact .goes (hadvance.trans hlater) (hok o rfl)

/-! ## Runs -/

variable {f g : Frame} {i : Instruction} {p : Pool} {signature : Bytes} {special : Bool}

theorem run_succ (fuel : Nat) (f : Frame) :
    run (fuel + 1) f = match step f with
      | (.ok (some signal), g) => (.ok (some signal), g)
      | (.ok none, g) => run fuel g
      | (.error why, g) => (.error why, g) := by
  rw [run, bind_apply]
  rcases step f with ⟨why | _ | signal, g⟩ <;> rfl

/-- A frame that comes to a call stops there, with the method that the index leads to or with the
reason why it leads to none. -/
theorem run_call (hpool : f.pool = some p) (hi : f.next? = some i) (hcall : i.op.isInvoke = true)
    (fuel : Nat) :
    run (fuel + 1) f = match p.resolve i.poolIndex with
      | .ok text =>
        (.ok (some (.invoke text (decide (i.op = Mnemonic.invokespecial.opcode)))), f.advance)
      | .error e => (.error (.fault (.constant f.method.signature f.pc i.op e)), f.advance) := by
  have hadvance : f.advance.pool = some p := hpool
  rw [run_succ, step_apply, hi]
  dsimp only
  rw [execute_invoke hcall, callee_apply, hadvance]
  dsimp only
  cases p.resolve i.poolIndex <;> rfl

/-- However long a frame runs, a method that it wants called is named by the call that it stops
behind. -/
theorem behind_of_run {fuel : Nat} (hpool : f.pool = some p)
    (h : run fuel f = (.ok (some (.invoke signature special)), g)) :
    ∃ i, g.Behind i p ∧ p.resolve i.poolIndex = .ok signature := by
  induction fuel generalizing f with
  | zero => cases h
  | succ fuel ih =>
    rw [run_succ] at h
    have hstepped := stepped f
    rcases hs : step f with ⟨why | _ | signal, f'⟩ <;> rw [hs] at h hstepped
    · cases h
    · cases hstepped with
      | goes hlater => exact ih (hlater.pool.trans hpool) h
    · cases h
      cases hstepped with
      | goes hlater hno => exact absurd rfl (hno _ _)
      | @calls i pool _ hi hcall hp hr =>
        obtain rfl := Option.some.inj (hp.symm.trans hpool)
        exact ⟨i, ⟨Nat.le_add_left 1 f.pc, hi, hcall, hp⟩, hr⟩

end MiniJvm.Frame
