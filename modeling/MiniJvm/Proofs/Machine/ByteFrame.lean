import Mathlib
import MiniJvm.Proofs.Code.RoundTrip
import MiniJvm.Proofs.Machine.Frame

/-!
# Running code bytes

`ByteFrame` runs code bytes as they stand: its program counter is a byte offset, operands are read
from the bytes, and a branch adds its signed distance to its own offset. A frame that runs the
decoded code stays in lockstep with it (`decode_lockstep`).
-/

namespace MiniJvm

open Code

structure ByteFrame where
  code : Bytes
  pool : Option Pool
  maxStack : Int64
  /-- The offset of the next instruction. -/
  pc : Nat
  locals : Array Int32
  /-- The operand stack, its top last. -/
  stack : Array Int32

namespace ByteFrame

/-- What an instruction leads to. -/
inductive Outcome where
  | running
  | signalled (signal : Signal)
  | faulted (reason : FaultReason)
  | unresolved (error : Pool.ResolveError)
  | crashed (crash : Crash)

/-- An outcome with the frame it leaves. -/
abbrev Result := Outcome × ByteFrame

def push (g : ByteFrame) (v : Int32) : Result :=
  if g.maxStack.toInt ≤ g.stack.size then (.faulted .stackOverflow, g)
  else (.running, { g with stack := g.stack.push v })

def pop (g : ByteFrame) (next : Int32 → ByteFrame → Result) : Result :=
  match g.stack.back? with
  | none => (.faulted .stackUnderflow, g)
  | some v => next v { g with stack := g.stack.pop }

def load (g : ByteFrame) (slot : Nat) (next : Int32 → Result) : Result :=
  match g.locals[slot]? with
  | none => (.faulted .invalidLocal, g)
  | some v => next v

def store (g : ByteFrame) (slot : Nat) (v : Int32) : Result :=
  if slot < g.locals.size then (.running, { g with locals := g.locals.setIfInBounds slot v })
  else (.faulted .invalidLocal, g)

/-- Continues at a byte offset; the end of the code is allowed. -/
def jump (g : ByteFrame) (target : Int) : Result :=
  if 0 ≤ target ∧ target ≤ g.code.length then (.running, { g with pc := target.toNat })
  else (.faulted .invalidJump, g)

/-- Asks for the method that a constant names. -/
def call (g : ByteFrame) (index : Nat) (special : Bool) : Result :=
  match g.pool with
  | none => if index = 0 then (.unresolved (.outOfRange 0), g) else (.crashed .noPool, g)
  | some pool =>
    match pool.resolve (UInt16.ofNat index) with
    | .ok signature => (.signalled (.invoke signature special), g)
    | .error e => (.unresolved e, g)

def byteAt (g : ByteFrame) (p : Nat) : UInt8 := g.code.getD p 0

/-- Executes the `m` at byte `p`, which the frame has moved past already. -/
def execute (g : ByteFrame) (p : Nat) (m : Mnemonic) : Result :=
  let x := g.byteAt (p + 1)
  let y := g.byteAt (p + 2)
  match m with
  | .iconstM1 => g.push (-1)
  | .iconst0 => g.push 0
  | .iconst1 => g.push 1
  | .iconst2 => g.push 2
  | .iconst3 => g.push 3
  | .iconst4 => g.push 4
  | .iconst5 => g.push 5
  | .bipush => g.push (Int32.ofInt (signed8 x))
  | .sipush => g.push (Int32.ofInt (signed16 x y))
  | .iload => g.load x.toNat g.push
  | .iload0 | .aload0 => g.load 0 g.push
  | .iload1 => g.load 1 g.push
  | .iload2 => g.load 2 g.push
  | .iload3 => g.load 3 g.push
  | .istore => g.pop fun v g => g.store x.toNat v
  | .istore0 => g.pop fun v g => g.store 0 v
  | .istore1 => g.pop fun v g => g.store 1 v
  | .istore2 => g.pop fun v g => g.store 2 v
  | .istore3 => g.pop fun v g => g.store 3 v
  | .iinc => g.load x.toNat fun v => g.store x.toNat (v + Int32.ofInt (signed8 y))
  | .iadd => g.pop fun right g => g.pop fun left g => g.push (left + right)
  | .goto => g.jump (p + signed16 x y)
  | .ifIcmplt =>
    g.pop fun right g => g.pop fun left g =>
      if left < right then g.jump (p + signed16 x y) else (.running, g)
  | .returnVoid => (.signalled .ended, g)
  | .ireturn => g.pop fun v g => (.signalled (.returned v), g)
  | .invokestatic => g.call (unsigned16 x y) false
  | .invokespecial => g.call (unsigned16 x y) true

/-- Executes one instruction. The end of the code ends the frame, and bytes that are no whole
instruction stop it. -/
def step (g : ByteFrame) : Result :=
  match g.code[g.pc]? with
  | none => (.signalled .ended, g)
  | some x =>
    match Mnemonic.ofByte? x with
    | none => (.faulted .unknownOpcode, g)
    | some m =>
      if g.code.length < g.pc + 1 + m.operandBytes then (.faulted .unknownOpcode, g)
      else { g with pc := g.pc + 1 + m.operandBytes }.execute g.pc m

end ByteFrame

/-! ## One step -/

/-- The frame of decoded code and the frame of its bytes are at the same instruction with the same
values. -/
structure Aligned (b : Bytes) (f : Frame) (g : ByteFrame) : Prop where
  bytes : g.code = b
  decoded : Decoded b f.method.code.toList
  short : ∀ k p, Boundary b k p → k < 2 ^ 31
  pool : f.pool = g.pool
  maxStack : f.method.maxStack = g.maxStack
  boundary : Boundary b f.pc g.pc
  locals : f.locals = g.locals
  stack : f.stack = g.stack

/-- The same signal, or a failure for the same reason. -/
inductive Agrees : Except Stop (Option Signal) → ByteFrame.Outcome → Prop where
  | running : Agrees (.ok none) .running
  | signalled (s : Signal) : Agrees (.ok (some s)) (.signalled s)
  | faulted (x : FrameFault) : Agrees (.error (.fault (.frame x))) (.faulted x.cause.reason)
  | unresolved (signature : Bytes) (pc : Nat) (op : Opcode) (e : Pool.ResolveError) :
      Agrees (.error (.fault (.constant signature pc op e))) (.unresolved e)
  | crashed (c : Crash) : Agrees (.error (.crash c)) (.crashed c)

/-- The outcome does not say that the code itself is broken. -/
def ByteFrame.Outcome.Sound (o : ByteFrame.Outcome) : Prop :=
  o ≠ .faulted .unknownOpcode ∧ o ≠ .faulted .invalidJump

/-- Both sides agree and the frames they leave are aligned. -/
structure Same (b : Bytes) (x : Except Stop (Option Signal) × Frame) (y : ByteFrame.Result) :
    Prop where
  agrees : Agrees x.1 y.1
  sound : y.1.Sound
  aligned : Aligned b x.2 y.2

namespace Aligned

variable {b : Bytes} {f : Frame} {g : ByteFrame}

theorem setStack (h : Aligned b f g) {s t : Array Int32} (hs : s = t) :
    Aligned b { f with stack := s } { g with stack := t } :=
  { h with stack := hs }

theorem setLocals (h : Aligned b f g) {s t : Array Int32} (hs : s = t) :
    Aligned b { f with locals := s } { g with locals := t } :=
  { h with locals := hs }

theorem fault (h : Aligned b f g) (cause : FaultCause) (hu : cause.reason ≠ .unknownOpcode)
    (hj : cause.reason ≠ .invalidJump) :
    Same b (.error (f.faultAt cause), f) (.faulted cause.reason, g) :=
  ⟨.faulted _, ⟨by simpa using hu, by simpa using hj⟩, h⟩

theorem running (h : Aligned b f g) : Same b (.ok none, f) (.running, g) :=
  ⟨.running, ⟨nofun, nofun⟩, h⟩

theorem signalled (h : Aligned b f g) (s : Signal) : Same b (.ok (some s), f) (.signalled s, g) :=
  ⟨.signalled s, ⟨nofun, nofun⟩, h⟩

theorem push (h : Aligned b f g) (v : Int32) :
    Same b ((Frame.push v >>= fun _ => pure none : FrameM (Option Signal)) f) (g.push v) := by
  rw [bind_apply, Frame.push_apply, ByteFrame.push, h.maxStack, h.stack]
  by_cases hfull : g.maxStack.toInt ≤ g.stack.size
  · rw [if_pos hfull, if_pos hfull]
    exact h.fault (.fullStack _) nofun nofun
  · rw [if_neg hfull, if_neg hfull]
    exact (h.setStack rfl).running

theorem pop (h : Aligned b f g) {k : Int32 → FrameM (Option Signal)}
    {next : Int32 → ByteFrame → ByteFrame.Result}
    (hk : ∀ v f' g', Aligned b f' g' → Same b (k v f') (next v g')) :
    Same b ((Frame.pop >>= k) f) (g.pop next) := by
  rw [bind_apply, Frame.pop_apply, ByteFrame.pop, h.stack]
  cases hv : g.stack.back? with
  | none => exact h.fault .emptyStack nofun nofun
  | some v => exact hk v _ _ (h.setStack rfl)

theorem load (h : Aligned b f g) {slot : Int} {n : Nat} (hn : slot = n)
    {k : Int32 → FrameM (Option Signal)} {next : Int32 → ByteFrame.Result}
    (hk : ∀ v, Same b (k v f) (next v)) :
    Same b ((Frame.load slot >>= k) f) (g.load n next) := by
  subst hn
  rw [bind_apply, Frame.load_apply, ByteFrame.load, if_neg (by omega), Int.toNat_natCast,
    h.locals]
  cases g.locals[n]? with
  | none => exact h.fault (.badLocal n _) nofun nofun
  | some v => exact hk v

theorem store (h : Aligned b f g) {slot : Int} {n : Nat} (hn : slot = n) (v : Int32) :
    Same b ((Frame.store slot v >>= fun _ => pure none : FrameM (Option Signal)) f)
      (g.store n v) := by
  subst hn
  rw [bind_apply, Frame.store_apply, ByteFrame.store, Int.toNat_natCast, h.locals]
  by_cases hlt : n < g.locals.size
  · rw [if_pos hlt, if_pos (by omega)]
    exact (h.setLocals rfl).running
  · rw [if_neg hlt, if_neg (by omega)]
    exact h.fault (.badLocal n _) nofun nofun

/-- A branch to a boundary stays inside the code on both sides. -/
theorem jump (h : Aligned b f g) {j t : Nat} (hj : Boundary b j t) {target : Int}
    (ht : (t : Int) = target) :
    Same b ((Frame.jump (Int32.ofNat j) >>= fun _ => pure none : FrameM (Option Signal)) f)
      (g.jump target) := by
  have hindex : (Int32.ofNat j).toInt = j := Int32.toInt_ofNat_of_lt (h.short j t hj)
  have hle := h.decoded.complete.index_le_of_complete hj
  have hle' : t ≤ g.code.length := h.bytes.symm ▸ hj.le_length
  rw [Array.length_toList] at hle
  subst ht
  rw [bind_apply, Frame.jump_apply, ByteFrame.jump, hindex, if_pos (by omega),
    if_pos (by omega), Int.toNat_natCast, Int.toNat_natCast]
  exact Aligned.running { h with boundary := hj }

theorem call (h : Aligned b f g) {i : Instruction} {n : Nat} (hi : i.poolIndex = UInt16.ofNat n)
    (hn : n < 65536) (special : Bool) :
    Same b ((Frame.callee i >>= fun s => pure (some (.invoke s special)) :
      FrameM (Option Signal)) f) (g.call n special) := by
  have hzero : i.poolIndex = 0 ↔ n = 0 := by
    rw [hi, ← UInt16.toNat_inj, UInt16.toNat_ofNat', Nat.mod_eq_of_lt hn]
    rfl
  rw [bind_apply, Frame.callee_apply, ByteFrame.call, h.pool]
  cases g.pool with
  | none =>
    by_cases h0 : n = 0
    · simp only [hzero, h0, if_true]
      exact ⟨.unresolved .., ⟨nofun, nofun⟩, h⟩
    · simp only [hzero, h0, if_false]
      exact ⟨.crashed _, ⟨nofun, nofun⟩, h⟩
  | some pool =>
    rw [hi]
    cases hr : pool.resolve (UInt16.ofNat n) with
    | ok signature => simp only [hr]; exact h.signalled _
    | error e => simp only [hr]; exact ⟨.unresolved .., ⟨nofun, nofun⟩, h⟩

/-- A branch that was resolved jumps to the byte that its distance leads to. -/
theorem branch (h : Aligned b f g) {p : Nat} {m : Mnemonic} {i : Instruction}
    (hm : m.isBranch = true) (hi : Resolved b p m i) :
    Same b ((Frame.jump i.a >>= fun _ => pure none : FrameM (Option Signal)) f)
      (g.jump (p + distanceAt b p)) := by
  rw [Resolved, if_pos hm] at hi
  obtain ⟨j, t, hj, ht, rfl⟩ := hi
  exact h.jump hj ht

/-- An instruction and the bytes it was read from do the same. -/
theorem execute (h : Aligned b f g) {p : Nat} {m : Mnemonic} {i : Instruction}
    (hi : Resolved b p m i) : Same b (Frame.execute i f) (g.execute p m) := by
  unfold Frame.execute
  rw [hi.op, Mnemonic.mnemonic?_opcode, Instruction.slot?_eq hi.op]
  have hbyte : ∀ q, g.byteAt q = b.getD q 0 := fun q => by rw [ByteFrame.byteAt, h.bytes]
  unfold ByteFrame.execute
  simp only [hbyte]
  cases m <;> dsimp only
  case iconstM1 | iconst0 | iconst1 | iconst2 | iconst3 | iconst4 | iconst5 => exact h.push _
  case bipush =>
    rw [hi.eq_readAt rfl, readAt_eq_oneByte _ _ rfl, oneByte, if_pos rfl]
    exact h.push _
  case sipush =>
    rw [hi.eq_readAt rfl, readAt_eq_twoBytes _ _ rfl]
    exact h.push _
  case iload =>
    rw [hi.eq_readAt rfl, readAt_eq_oneByte _ _ rfl, oneByte, if_neg nofun]
    exact h.load (toInt_ofInt_byte _) h.push
  case iload0 | iload1 | iload2 | iload3 | aload0 => exact h.load rfl h.push
  case istore =>
    rw [hi.eq_readAt rfl, readAt_eq_oneByte _ _ rfl, oneByte, if_neg nofun]
    exact h.pop fun v f' g' h' => h'.store (toInt_ofInt_byte _) v
  case istore0 | istore1 | istore2 | istore3 =>
    exact h.pop fun v f' g' h' => h'.store rfl v
  case iadd =>
    exact h.pop fun right f' g' h' => h'.pop fun left f'' g'' h'' => h''.push _
  case iinc =>
    rw [hi.eq_readAt rfl, readAt_eq_twoBytes _ _ rfl]
    exact h.load (toInt_ofInt_byte _) fun v => h.store (toInt_ofInt_byte _) _
  case ifIcmplt =>
    refine h.pop fun right f' g' h' => h'.pop fun left f'' g'' h'' => ?_
    by_cases hlt : left < right
    · simp only [if_pos hlt]
      exact h''.branch rfl hi
    · simp only [if_neg hlt]
      exact h''.running
  case goto => exact h.branch rfl hi
  case ireturn => exact h.pop fun v f' g' h' => h'.signalled _
  case returnVoid => exact h.signalled _
  case invokespecial | invokestatic =>
    exact h.call (hi.poolIndex rfl) (unsigned16_lt _ _) _

theorem ended (h : Aligned b f g) (hf : f.next? = none) : g.code[g.pc]? = none := by
  obtain rfl := h.bytes
  have hsize : f.method.code.size ≤ f.pc := Array.getElem?_eq_none_iff.1 hf
  have hle := h.decoded.complete.index_le_of_complete h.boundary
  have hcode : f.method.code.toList.length = f.method.code.size := Array.length_toList
  have hpc : f.method.code.toList.length = f.pc := by omega
  have hend : g.code.length = g.pc := (hpc ▸ h.decoded.complete).unique h.boundary
  exact List.getElem?_eq_none_iff.2 (by omega)

/-- One instruction on both sides. -/
theorem step (h : Aligned b f g) : Same b (Frame.step f) g.step := by
  obtain rfl := h.bytes
  rw [Frame.step_apply, ByteFrame.step]
  cases hi : f.next? with
  | none =>
    rw [h.ended hi]
    exact h.signalled .ended
  | some i =>
    have hi' : f.method.code.toList[f.pc]? = some i := by rw [Array.getElem?_toList]; exact hi
    obtain ⟨p, m, hp, hr, hres⟩ := h.decoded.instruction hi'
    cases hp.unique h.boundary
    have hfit := hr.fits
    rw [hr.opcode]
    simp only [Mnemonic.ofByte?_byte]
    rw [if_neg (by omega)]
    have hnext : Aligned g.code f.advance { g with pc := g.pc + 1 + m.operandBytes } :=
      { h with boundary := h.boundary.next hr }
    exact hnext.execute hres

end Aligned

/-! ## Whole runs -/

/-- The frame after a step that did not stop it. After a call it goes on with its operand stack
changed. -/
def Frame.resume? (change : Array Int32 → Array Int32) (f : Frame) : Option Frame :=
  match Frame.step f with
  | (.ok none, f) => some f
  | (.ok (some (.invoke ..)), f) => some { f with stack := change f.stack }
  | _ => none

/-- The frame after `n` steps, when none of them stopped it. `change n` is what a call at step `n`
does to the operand stack. -/
def Frame.after? (change : Nat → Array Int32 → Array Int32) (f : Frame) : Nat → Option Frame
  | 0 => some f
  | n + 1 => (f.after? change n).bind (Frame.resume? (change n))

def ByteFrame.resume? (change : Array Int32 → Array Int32) (g : ByteFrame) : Option ByteFrame :=
  match g.step with
  | (.running, g) => some g
  | (.signalled (.invoke ..), g) => some { g with stack := change g.stack }
  | _ => none

def ByteFrame.after? (change : Nat → Array Int32 → Array Int32) (g : ByteFrame) :
    Nat → Option ByteFrame
  | 0 => some g
  | n + 1 => (g.after? change n).bind (ByteFrame.resume? (change n))

/-- The frame that starts at the first byte with an empty operand stack. -/
def ByteFrame.start (b : Bytes) (pool : Option Pool) (maxStack : Int64) (locals : Array Int32) :
    ByteFrame :=
  { code := b, pool, maxStack, pc := 0, locals, stack := #[] }

theorem rel_imp {α β : Type} {r s : α → β → Prop} (h : ∀ a b, r a b → s a b) {x : Option α}
    {y : Option β} (hr : Option.Rel r x y) : Option.Rel s x y := by
  cases hr with
  | none => exact .none
  | some hr => exact .some (h _ _ hr)

theorem rel_bind {α β : Type} {r : α → β → Prop} {x : Option α} {y : Option β}
    {k : α → Option α} {l : β → Option β} (hr : Option.Rel r x y)
    (h : ∀ a b, r a b → Option.Rel r (k a) (l b)) : Option.Rel r (x.bind k) (y.bind l) := by
  cases hr with
  | none => exact .none
  | some hr => exact h _ _ hr

theorem Aligned.resume? {b : Bytes} {f : Frame} {g : ByteFrame} (h : Aligned b f g)
    (change : Array Int32 → Array Int32) :
    Option.Rel (Aligned b) (f.resume? change) (g.resume? change) := by
  obtain ⟨hagree, _, halign⟩ := h.step
  unfold Frame.resume? ByteFrame.resume?
  rcases hf : Frame.step f with ⟨r, f'⟩
  rcases hg : g.step with ⟨o, g'⟩
  rw [hf, hg] at hagree halign
  cases hagree with
  | running => exact .some halign
  | signalled s =>
    cases s with
    | invoke => exact .some (halign.setStack (by rw [halign.stack]))
    | ended => exact .none
    | returned => exact .none
  | faulted => exact .none
  | unresolved => exact .none
  | crashed => exact .none

theorem Aligned.after? {b : Bytes} {f : Frame} {g : ByteFrame} (h : Aligned b f g)
    (change : Nat → Array Int32 → Array Int32) (n : Nat) :
    Option.Rel (Aligned b) (f.after? change n) (g.after? change n) := by
  induction n with
  | zero => exact .some h
  | succ n ih => exact rel_bind ih fun f g hn => hn.resume? (change n)

/-- Both sides are at the same instruction with the same values, and their next steps agree. -/
structure Lockstep (b : Bytes) (f : Frame) (g : ByteFrame) : Prop where
  boundary : Boundary b f.pc g.pc
  ended : f.pc = f.method.code.size → g.pc = b.length
  locals : f.locals = g.locals
  stack : f.stack = g.stack
  next : Agrees (Frame.step f).1 g.step.1
  soundFrame : ∀ x, (Frame.step f).1 = .error (.fault (.frame x)) →
    x.cause.reason ≠ .unknownOpcode ∧ x.cause.reason ≠ .invalidJump
  soundBytes : g.step.1.Sound

theorem Aligned.lockstep {b : Bytes} {f : Frame} {g : ByteFrame} (h : Aligned b f g) :
    Lockstep b f g where
  boundary := h.boundary
  ended hend := by
    have hcomplete := h.decoded.complete
    rw [Array.length_toList, ← hend] at hcomplete
    exact h.boundary.unique hcomplete
  locals := h.locals
  stack := h.stack
  next := h.step.agrees
  soundFrame x hx := by
    have hagree := h.step.agrees
    have hsound := h.step.sound
    rw [hx] at hagree
    generalize g.step.1 = o at hagree hsound
    cases hagree
    exact ⟨fun e => hsound.1 (congrArg _ e), fun e => hsound.2 (congrArg _ e)⟩
  soundBytes := h.step.sound

theorem invokeOperand_of_decoded {b : Bytes} {code : List Instruction} (h : Decoded b code)
    {k p : Nat} {i : Instruction} (hp : Boundary b k p) (hi : code[k]? = some i)
    (hinvoke : i.op.isInvoke = true) :
    i.a.toInt = unsigned16 (b.getD (p + 1) 0) (b.getD (p + 2) 0) := by
  obtain ⟨q, m, hq, _, hres⟩ := h.instruction hi
  cases hp.unique hq
  have hm : m.isInvoke = true := by
    rwa [hres.op, Opcode.isInvoke, Mnemonic.mnemonic?_opcode] at hinvoke
  rw [hres.call hm, toInt_call]

/-- Decoding preserves execution: however a frame of the decoded code is resumed after its calls,
it stays in lockstep with the bytes, and its calls name the constants that the bytes name. -/
theorem decode_lockstep {b : Bytes} {code : List Instruction} (hd : decode b = .ok code)
    (short : ∀ k p, Boundary b k p → k < 2 ^ 31) {f : Frame}
    (hcode : f.method.code = code.toArray) (hpc : f.pc = 0) (hstack : f.stack = #[])
    (change : Nat → Array Int32 → Array Int32) :
    (∀ n, Option.Rel (Lockstep b) (f.after? change n)
      ((ByteFrame.start b f.pool f.method.maxStack f.locals).after? change n)) ∧
    ∀ k p i, Boundary b k p → code[k]? = some i → i.op.isInvoke = true →
      i.a.toInt = unsigned16 (b.getD (p + 1) 0) (b.getD (p + 2) 0) := by
  have hdec := decode_ok_iff.1 hd
  have hstart : Aligned b f (ByteFrame.start b f.pool f.method.maxStack f.locals) :=
    { bytes := rfl, decoded := by rwa [hcode], short, pool := rfl, maxStack := rfl,
      boundary := hpc.symm ▸ .start b, locals := rfl, stack := hstack }
  exact ⟨fun n => rel_imp (fun f g h => h.lockstep) (hstart.after? change n),
    fun k p i => invokeOperand_of_decoded hdec⟩

/-- A loop that calls a method and jumps back. -/
def callLoop : Bytes := [0x84, 0, 1, 0xB8, 0, 5, 0xA7, 0xFF, 0xFA]

def callLoopCode : List Instruction := [.iinc 0 1, .invokestatic 5, .goto 0]

def callLoopFrame : Frame :=
  { method :=
      { stamp := 0, owner := "A", name := "f", descriptor := "()V", maxStack := 1, maxLocals := 1,
        argSlots := 0, void := true, code := callLoopCode.toArray }
    pool := none, pc := 0, locals := #[3], stack := #[], current := 0, executed := 0 }

theorem decode_lockstep_callLoop :
    decode callLoop = .ok callLoopCode ∧
    (∀ k p, Boundary callLoop k p → k < 2 ^ 31) ∧
    ∀ n, Option.Rel (Lockstep callLoop) (callLoopFrame.after? (fun n s => s.push n.toInt32) n)
      ((ByteFrame.start callLoop none 1 #[3]).after? (fun n s => s.push n.toInt32) n) := by
  have hd : decode callLoop = .ok callLoopCode := by decide +kernel
  have short : ∀ k p, Boundary callLoop k p → k < 2 ^ 31 :=
    fun k p => short_of_length (by decide)
  exact ⟨hd, short, (decode_lockstep hd short (f := callLoopFrame) rfl rfl rfl _).1⟩

end MiniJvm
