import Mathlib
import MiniJvm.Machine.Frame
import MiniJvm.Proofs.Basic

/-!
# What the operations of a frame do

How a frame starts, and one equation for each operation, with the frame it works on and the frame
it leaves. Nothing else needs to look inside the monad.
-/

namespace MiniJvm

/-- The slot that an instruction addresses, by its mnemonic. -/
theorem Instruction.slot?_eq {i : Instruction} {m : Mnemonic} : i.op = m.opcode →
    i.slot? = match m with
      | .iload | .istore | .iinc => some i.a.toInt
      | .iload0 | .istore0 | .aload0 => some 0
      | .iload1 | .istore1 => some 1
      | .iload2 | .istore2 => some 2
      | .iload3 | .istore3 => some 3
      | _ => none := by
  intro hop
  rw [Instruction.slot?, hop, Mnemonic.mnemonic?_opcode]
  cases m <;> rfl

namespace Frame

/-! ## New frames -/

/-- An activation of the method before its first instruction: the arguments are the leading
locals and the other locals are zero. No slice has more than `2 ^ 46` slots of four bytes. -/
structure Starts (m : Method) (pool : Option Pool) (args : List Int32) (f : Frame) : Prop where
  fits : args.length ≤ m.maxLocals.toInt
  localSpace : m.maxLocals.toInt ≤ 2 ^ 46
  stackSpace : 0 ≤ m.maxStack.toInt ∧ m.maxStack.toInt ≤ 2 ^ 46
  method : f.method = m
  pool : f.pool = pool
  pc : f.pc = 0
  locals : f.locals.toList = args ++ List.replicate (m.maxLocals.toInt.toNat - args.length) 0
  stack : f.stack = #[]
  current : f.current = 0
  executed : f.executed = 0

/-- The method has no activation with the arguments: there are more of them than locals, or the
slots do not fit into memory. -/
inductive Refuses (m : Method) (args : List Int32) : Stop → Prop where
  | excess : m.maxLocals.toInt < args.length → Refuses m args (.fault (.frame
      { cause := .excessArguments args.length m.maxLocals, signature := m.signature, pc := none,
        op := ⟨0⟩ }))
  | localSpace : args.length ≤ m.maxLocals.toInt → 2 ^ 46 < m.maxLocals.toInt →
      Refuses m args (.crash .hugeLocals)
  | stackSpace : args.length ≤ m.maxLocals.toInt → m.maxLocals.toInt ≤ 2 ^ 46 →
      m.maxStack.toInt < 0 ∨ 2 ^ 46 < m.maxStack.toInt → Refuses m args (.crash .hugeStack)

section Creation

variable {m : Method} {pool : Option Pool} {args : List Int32} {f : Frame} {why : Stop}

theorem addressable_iff {slots : Int64} :
    addressable slots = true ↔ 0 ≤ slots.toInt ∧ slots.toInt ≤ 2 ^ 46 := by
  rw [addressable, Bool.and_eq_true, decide_eq_true_eq, decide_eq_true_eq, Int64.le_iff_toInt_le,
    Int64.le_iff_toInt_le]
  rfl

theorem not_addressable_iff {slots : Int64} :
    (!addressable slots) = true ↔ slots.toInt < 0 ∨ 2 ^ 46 < slots.toInt := by
  rw [Bool.not_eq_true', ← Bool.not_eq_true, addressable_iff]
  omega

/-- Either the frame starts or the method refuses the arguments. -/
theorem create_cases (m : Method) (pool : Option Pool) (args : List Int32) :
    (∃ f, create m pool args = .ok f ∧ Starts m pool args f) ∨
      ∃ why, create m pool args = .error why ∧ Refuses m args why := by
  unfold create
  by_cases hargs : m.maxLocals.toInt < args.length
  · rw [if_pos hargs]
    exact .inr ⟨_, rfl, .excess hargs⟩
  rw [if_neg hargs]
  rw [Int.not_lt] at hargs
  by_cases hlocals : (!addressable m.maxLocals) = true
  · rw [if_pos hlocals]
    rw [not_addressable_iff] at hlocals
    exact .inr ⟨_, rfl, .localSpace hargs (by omega)⟩
  rw [if_neg hlocals]
  rw [not_addressable_iff] at hlocals
  by_cases hstack : (!addressable m.maxStack) = true
  · rw [if_pos hstack]
    exact .inr ⟨_, rfl, .stackSpace hargs (by omega) (not_addressable_iff.1 hstack)⟩
  rw [if_neg hstack]
  rw [not_addressable_iff] at hstack
  exact .inl ⟨_, rfl, hargs, by omega, by omega, rfl, rfl, rfl, by simp, rfl, rfl, rfl⟩

theorem Starts.eq {g : Frame} (hf : Starts m pool args f) (hg : Starts m pool args g) : f = g := by
  cases f
  cases g
  obtain ⟨-, -, -, rfl, rfl, rfl, hlocals, rfl, rfl, rfl⟩ := hf
  obtain ⟨-, -, -, rfl, rfl, rfl, hlocals', rfl, rfl, rfl⟩ := hg
  cases Array.toList_inj.1 (hlocals.trans hlocals'.symm)
  rfl

theorem Refuses.eq {why' : Stop} (h : Refuses m args why) (h' : Refuses m args why') :
    why = why' := by
  cases h <;> cases h' <;> first | rfl | omega

theorem Refuses.not_starts (h : Refuses m args why) : ¬Starts m pool args f := by
  intro hf
  have hfits := hf.fits
  have hlocals := hf.localSpace
  have hstack := hf.stackSpace
  cases h <;> omega

/-- The arguments alone make a frame fail with a fault. -/
theorem Refuses.fault {x : Fault} (h : Refuses m args (.fault x)) :
    m.maxLocals.toInt < args.length ∧ x = .frame
      { cause := .excessArguments args.length m.maxLocals, signature := m.signature, pc := none,
        op := ⟨0⟩ } := by
  cases h with
  | excess hargs => exact ⟨hargs, rfl⟩

theorem create_ok_iff : create m pool args = .ok f ↔ Starts m pool args f := by
  rcases create_cases m pool args with ⟨g, hg, hstarts⟩ | ⟨why, hwhy, hrefuses⟩
  · rw [hg, Except.ok.injEq]
    exact ⟨fun h => h ▸ hstarts, fun h => hstarts.eq h⟩
  · rw [hwhy]
    exact ⟨nofun, fun h => absurd h hrefuses.not_starts⟩

theorem create_error_iff : create m pool args = .error why ↔ Refuses m args why := by
  rcases create_cases m pool args with ⟨g, hg, hstarts⟩ | ⟨why', hwhy, hrefuses⟩
  · rw [hg]
    exact ⟨nofun, fun h => absurd hstarts h.not_starts⟩
  · rw [hwhy, Except.error.injEq]
    exact ⟨fun h => h ▸ hrefuses, fun h => hrefuses.eq h⟩

theorem Starts.size_locals (h : Starts m pool args f) : f.locals.size = m.maxLocals.toInt := by
  have hfits := h.fits
  rw [← Array.length_toList, h.locals, List.length_append, List.length_replicate]
  omega

end Creation

/-! ## Operations -/

theorem push_apply (v : Int32) (f : Frame) :
    push v f =
      if f.method.maxStack.toInt ≤ f.stack.size then
        (.error (f.faultAt (.fullStack f.method.maxStack)), f)
      else (.ok (), { f with stack := f.stack.push v }) := by
  change (if f.method.maxStack.toInt ≤ f.stack.size then
    (raise (.fullStack f.method.maxStack) : FrameM Unit)
    else set { f with stack := f.stack.push v }) f = _
  split <;> rfl

theorem pop_apply (f : Frame) :
    pop f = match f.stack.back? with
      | none => (.error (f.faultAt .emptyStack), f)
      | some v => (.ok v, { f with stack := f.stack.pop }) := by
  change (match f.stack.back? with
    | none => (raise .emptyStack : FrameM Int32)
    | some v => do set { f with stack := f.stack.pop }; return v) f = _
  cases f.stack.back? <;> rfl

theorem popArgs_apply (count : Int64) (f : Frame) :
    popArgs count f =
      if count < 0 then (.error (.crash .negativeArguments), f)
      else if f.stack.size < count.toInt.toNat then
        (.error (f.faultAt (.missingArguments count.toInt.toNat f.stack.size)), f)
      else
        (.ok (f.stack.drop (f.stack.size - count.toInt.toNat)).toList,
          { f with stack := f.stack.take (f.stack.size - count.toInt.toNat) }) := by
  change (if count < 0 then (throw (.crash .negativeArguments) : FrameM (List Int32))
    else if f.stack.size < count.toInt.toNat then
      raise (.missingArguments count.toInt.toNat f.stack.size)
    else do
      set { f with stack := f.stack.take (f.stack.size - count.toInt.toNat) }
      return (f.stack.drop (f.stack.size - count.toInt.toNat)).toList) f = _
  split
  · rfl
  · split <;> rfl

theorem not_neg_of_toInt {count : Int64} {n : Nat} (h : count.toInt = n) : ¬count < 0 := by
  intro hlt
  have hlt := Int64.lt_iff_toInt_lt.1 hlt
  rw [h, Int64.toInt_zero] at hlt
  omega

theorem popArgs_negative {count : Int64} (h : count.toInt < 0) (f : Frame) :
    popArgs count f = (.error (.crash .negativeArguments), f) := by
  rw [popArgs_apply, if_pos (Int64.lt_iff_toInt_lt.2 h)]

theorem popArgs_missing {count : Int64} {n : Nat} (h : count.toInt = n) {f : Frame}
    (hn : f.stack.size < n) :
    popArgs count f = (.error (f.faultAt (.missingArguments n f.stack.size)), f) := by
  rw [popArgs_apply, if_neg (not_neg_of_toInt h), h, Int.toNat_natCast, if_pos hn]

theorem popArgs_ok {count : Int64} {f : Frame} {below args : List Int32}
    (h : count.toInt = args.length) (hs : f.stack.toList = below ++ args) :
    popArgs count f = (.ok args, { f with stack := below.toArray }) := by
  have harray : f.stack = (below ++ args).toArray := by rw [← hs, Array.toArray_toList]
  have hsize : f.stack.size = below.length + args.length := by
    rw [harray, List.size_toArray, List.length_append]
  rw [popArgs_apply, if_neg (not_neg_of_toInt h), h, Int.toNat_natCast, if_neg (by omega), hsize,
    Nat.add_sub_cancel, harray]
  simp

theorem load_apply (slot : Int) (f : Frame) :
    load slot f =
      if slot < 0 then (.error (f.faultAt (.badLocal slot f.locals.size)), f)
      else match f.locals[slot.toNat]? with
        | some v => (.ok v, f)
        | none => (.error (f.faultAt (.badLocal slot f.locals.size)), f) := by
  change (if slot < 0 then (raise (.badLocal slot f.locals.size) : FrameM Int32)
    else match f.locals[slot.toNat]? with
      | some v => return v
      | none => raise (.badLocal slot f.locals.size)) f = _
  split
  · rfl
  · cases f.locals[slot.toNat]? <;> rfl

theorem store_apply (slot : Int) (v : Int32) (f : Frame) :
    store slot v f =
      if 0 ≤ slot ∧ slot < f.locals.size then
        (.ok (), { f with locals := f.locals.setIfInBounds slot.toNat v })
      else (.error (f.faultAt (.badLocal slot f.locals.size)), f) := by
  change (if 0 ≤ slot ∧ slot < f.locals.size then
    set { f with locals := f.locals.setIfInBounds slot.toNat v }
    else (raise (.badLocal slot f.locals.size) : FrameM Unit)) f = _
  split <;> rfl

theorem jump_apply (target : Int32) (f : Frame) :
    jump target f =
      if 0 ≤ target.toInt ∧ target.toInt ≤ f.method.code.size then
        (.ok (), { f with pc := target.toInt.toNat })
      else (.error (f.faultAt (.badJump target.toInt f.method.code.size)), f) := by
  change (if 0 ≤ target.toInt ∧ target.toInt ≤ f.method.code.size then
    set { f with pc := target.toInt.toNat }
    else (raise (.badJump target.toInt f.method.code.size) : FrameM Unit)) f = _
  split <;> rfl

theorem callee_apply (i : Instruction) (f : Frame) :
    callee i f =
      match f.pool with
      | none =>
        if i.poolIndex = 0 then
          (.error (.fault (.constant f.method.signature f.current i.op (.outOfRange 0))), f)
        else (.error (.crash .noPool), f)
      | some pool =>
        match pool.resolve i.poolIndex with
        | .ok signature => (.ok signature, f)
        | .error e => (.error (.fault (.constant f.method.signature f.current i.op e)), f) := by
  have hget : (get : FrameM Frame) f = (.ok f, f) := rfl
  unfold callee
  rw [bind_apply, hget]
  dsimp only
  cases f.pool with
  | none =>
    by_cases h : i.poolIndex = 0
    · rw [if_pos h]
      dsimp only
      rw [if_pos h]
      rfl
    · rw [if_neg h]
      dsimp only
      rw [if_neg h]
      rfl
  | some pool =>
    dsimp only
    cases pool.resolve i.poolIndex <;> rfl

theorem step_apply (f : Frame) :
    step f = match f.next? with
      | none => (.ok (some .ended), f)
      | some i => execute i f.advance := by
  change (match f.next? with
    | none => (return some .ended : FrameM (Option Signal))
    | some i => do modify advance; execute i) f = _
  cases f.next? with
  | none => rfl
  | some i => rfl

/-! ## Instructions

An instruction is put together from the operations, so what holds of each of them and survives
composition holds of every instruction. -/

/-- The judgment holds of every operation and of what is composed of operations. -/
structure Compositional (J : ∀ {α : Type}, FrameM α → Prop) : Prop where
  pure : ∀ {α : Type} (a : α), J (pure a : FrameM α)
  bind : ∀ {α β : Type} {x : FrameM α} {k : α → FrameM β}, J x → (∀ a, J (k a)) → J (x >>= k)
  raise : ∀ cause, J (raise cause : FrameM (Option Signal))
  push : ∀ v, J (push v)
  pop : J pop
  load : ∀ slot, J (load slot)
  store : ∀ slot v, J (store slot v)
  jump : ∀ target, J (jump target)
  callee : ∀ i, J (callee i)

theorem Compositional.execute {J : ∀ {α : Type}, FrameM α → Prop} (h : Compositional J)
    (i : Instruction) : J (execute i) := by
  have hgoOn : J (Pure.pure none : FrameM (Option Signal)) := h.pure none
  unfold Frame.execute
  cases i.op.mnemonic? with
  | none => exact h.raise _
  | some m =>
    cases m <;> dsimp only
    case iconstM1 | iconst0 | iconst1 | iconst2 | iconst3 | iconst4 | iconst5 | bipush | sipush =>
      exact h.bind (h.push _) fun _ => hgoOn
    case iload | iload0 | iload1 | iload2 | iload3 | aload0 =>
      exact h.bind (h.load _) fun v => h.bind (h.push v) fun _ => hgoOn
    case istore | istore0 | istore1 | istore2 | istore3 =>
      exact h.bind h.pop fun v => h.bind (h.store _ v) fun _ => hgoOn
    case iinc => exact h.bind (h.load _) fun v => h.bind (h.store _ _) fun _ => hgoOn
    case iadd =>
      exact h.bind h.pop fun right => h.bind h.pop fun left => h.bind (h.push _) fun _ => hgoOn
    case goto => exact h.bind (h.jump _) fun _ => hgoOn
    case ifIcmplt =>
      refine h.bind h.pop fun right => h.bind h.pop fun left => ?_
      by_cases hlt : left < right
      · simp only [if_pos hlt]
        exact h.bind (h.jump _) fun _ => hgoOn
      · simp only [if_neg hlt]
        exact hgoOn
    case returnVoid => exact h.pure _
    case ireturn => exact h.bind h.pop fun v => h.pure _
    case invokestatic | invokespecial => exact h.bind (h.callee i) fun s => h.pure _

end Frame

end MiniJvm

/-! ## Where a stop comes from

An operation of a frame stops for a reason of its own instruction only: a rule of the frame that
was broken there, a constant without a text, or a crash. `Local` is the judgment that carries this
through an instruction, since what an instruction did before it stopped changes neither the method
nor the current instruction. -/

namespace MiniJvm.Frame

variable {α β : Type}

/-- The stop comes from the current instruction of the frame. -/
inductive RaisedBy (f : Frame) : Stop → Prop where
  | frame (cause : FaultCause) : RaisedBy f (f.faultAt cause)
  | constant (op : Opcode) (e : Pool.ResolveError) :
      RaisedBy f (.fault (.constant f.method.signature f.current op e))
  | crash (c : Crash) : RaisedBy f (.crash c)

theorem RaisedBy.congr {f g : Frame} {why : Stop} (hmethod : g.method = f.method)
    (hcurrent : g.current = f.current) (h : RaisedBy g why) : RaisedBy f why := by
  cases h with
  | frame cause =>
    have hfault : g.faultAt cause = f.faultAt cause := by rw [faultAt, faultAt, hmethod, hcurrent]
    exact hfault ▸ .frame cause
  | constant op e =>
    rw [hmethod, hcurrent]
    exact .constant op e
  | crash c => exact .crash c

theorem RaisedBy.not_lookup {f : Frame} {why : Stop} (h : RaisedBy f why) (e : LookupError) :
    why ≠ .fault (.lookup e) := by
  cases h <;> nofun

/-- The operation leaves the method and the current instruction as they are, and stops only for a
reason of that instruction. -/
def Local (x : FrameM α) : Prop :=
  ∀ f, (x f).2.method = f.method ∧ (x f).2.current = f.current ∧
    ∀ why, (x f).1 = .error why → RaisedBy f why

theorem Local.bind {x : FrameM α} {k : α → FrameM β} (h : Local x) (hk : ∀ a, Local (k a)) :
    Local (x >>= k) := by
  intro f
  obtain ⟨hmethod, hcurrent, hraise⟩ := h f
  rw [bind_apply]
  rcases hx : x f with ⟨why | a, g⟩ <;> rw [hx] at hmethod hcurrent hraise
  · refine ⟨hmethod, hcurrent, fun why' hwhy => ?_⟩
    cases hwhy
    exact hraise why rfl
  · obtain ⟨hmethod', hcurrent', hraise'⟩ := hk a g
    exact ⟨hmethod'.trans hmethod, hcurrent'.trans hcurrent,
      fun why hwhy => (hraise' why hwhy).congr hmethod hcurrent⟩

/-- An operation that goes on is local where it changes other parts of the frame. -/
theorem local_ok {f g : Frame} (a : α) (hmethod : g.method = f.method)
    (hcurrent : g.current = f.current) :
    g.method = f.method ∧ g.current = f.current ∧
      ∀ why, (Except.ok a : Except Stop α) = .error why → RaisedBy f why :=
  ⟨hmethod, hcurrent, nofun⟩

theorem local_error {f : Frame} {why : Stop} (h : RaisedBy f why) :
    f.method = f.method ∧ f.current = f.current ∧
      ∀ why', (Except.error why : Except Stop α) = .error why' → RaisedBy f why' :=
  ⟨rfl, rfl, fun _ he => Except.error.inj he ▸ h⟩

theorem local_pure (a : α) : Local (pure a : FrameM α) := fun _ => local_ok a rfl rfl

theorem local_raise (cause : FaultCause) : Local (raise cause : FrameM α) :=
  fun _ => local_error (.frame cause)

/-! ## The operations -/

theorem local_push (v : Int32) : Local (push v) := by
  intro f
  rw [push_apply]
  split
  · exact local_error (.frame _)
  · exact local_ok () rfl rfl

theorem local_pop : Local pop := by
  intro f
  rw [pop_apply]
  split
  · exact local_error (.frame _)
  · exact local_ok _ rfl rfl

theorem local_load (slot : Int) : Local (load slot) := by
  intro f
  rw [load_apply]
  split
  · exact local_error (.frame _)
  · split
    · exact local_ok _ rfl rfl
    · exact local_error (.frame _)

theorem local_store (slot : Int) (v : Int32) : Local (store slot v) := by
  intro f
  rw [store_apply]
  split
  · exact local_ok () rfl rfl
  · exact local_error (.frame _)

theorem local_jump (target : Int32) : Local (jump target) := by
  intro f
  rw [jump_apply]
  split
  · exact local_ok () rfl rfl
  · exact local_error (.frame _)

theorem local_callee (i : Instruction) : Local (callee i) := by
  intro f
  rw [callee_apply]
  cases f.pool with
  | none =>
    dsimp only
    split
    · exact local_error (.constant _ _)
    · exact local_error (.crash _)
  | some pool =>
    dsimp only
    cases pool.resolve i.poolIndex with
    | ok signature => exact local_ok signature rfl rfl
    | error e => exact local_error (.constant _ e)

/-! ## Steps -/

theorem compositional_local : Compositional Local where
  pure := local_pure
  bind := .bind
  raise := local_raise
  push := local_push
  pop := local_pop
  load := local_load
  store := local_store
  jump := local_jump
  callee := local_callee

/-- A step that stops does so at the instruction that came next. -/
theorem raisedBy_step {f g : Frame} {why : Stop} (h : step f = (.error why, g)) :
    RaisedBy f.advance why := by
  rw [step_apply] at h
  cases hi : f.next? with
  | none => rw [hi] at h; cases h
  | some i =>
    rw [hi] at h
    have hx : execute i f.advance = (.error why, g) := h
    exact (compositional_local.execute i f.advance).2.2 why (by rw [hx])

end MiniJvm.Frame
