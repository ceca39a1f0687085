import Mathlib
import MiniJvm.Assembly.StackDepth
import MiniJvm.Proofs.Code.RoundTrip
import MiniJvm.Proofs.Machine.Frame

/-!
# Instructions that keep the rules

`Safe post` is a forward judgment on frames: what an operation did satisfies `post`, or it failed
for a reason other than a broken rule of its frame. An instruction that finds the values it takes,
has room for those it leaves, addresses a local slot and jumps inside its code is safe
(`execute_safe`).
-/

namespace MiniJvm

/-- No rule of a frame was broken. -/
def Stop.Foreign (why : Stop) : Prop := ∀ x, why ≠ .fault (.frame x)

namespace Frame

variable {α β : Type}

def Safe (post : α → Frame → Prop) : Except Stop α × Frame → Prop
  | (.ok a, g) => post a g
  | (.error why, _) => why.Foreign

theorem Safe.bind {x : FrameM α} {k : α → FrameM β} {f : Frame} {p : α → Frame → Prop}
    {q : β → Frame → Prop} (h : Safe p (x f)) (hk : ∀ a g, p a g → Safe q (k a g)) :
    Safe q ((x >>= k) f) := by
  rw [bind_apply]
  rcases hx : x f with ⟨why | a, g⟩
  · rw [hx] at h
    exact h
  · rw [hx] at h
    exact hk a g h

theorem Safe.mono {r : Except Stop α × Frame} {p q : α → Frame → Prop} (h : Safe p r)
    (hpq : ∀ a g, p a g → q a g) : Safe q r := by
  rcases r with ⟨why | a, g⟩
  · exact h
  · exact hpq a g h

/-- `g` is `f` with `n` values on its operand stack, about to go on at `pc`. -/
structure Moved (f g : Frame) (n : Nat) (pc : Int) : Prop where
  method : g.method = f.method
  pool : g.pool = f.pool
  locals : g.locals.size = f.locals.size
  stack : g.stack.size = n
  pc : (g.pc : Int) = pc

theorem Moved.trans {f g h : Frame} {n n' : Nat} {pc pc' : Int} (hg : Moved f g n pc)
    (hh : Moved g h n' pc') : Moved f h n' pc' :=
  ⟨hh.method.trans hg.method, hh.pool.trans hg.pool, hh.locals.trans hg.locals, hh.stack, hh.pc⟩

theorem push_safe {f : Frame} (v : Int32) (h : f.stack.size + 1 ≤ f.method.maxStack.toInt) :
    Safe (fun _ g => Moved f g (f.stack.size + 1) f.pc) (push v f) := by
  rw [push_apply, if_neg (by omega)]
  exact ⟨rfl, rfl, rfl, Array.size_push v, rfl⟩

theorem pop_safe {f : Frame} {n : Nat} (h : f.stack.size = n + 1) :
    Safe (fun _ g => Moved f g n f.pc) (pop f) := by
  rw [pop_apply]
  cases hv : f.stack.back? with
  | none =>
    rw [Array.back?_eq_none_iff] at hv
    rw [hv] at h
    cases h
  | some v => exact ⟨rfl, rfl, rfl, by rw [Array.size_pop, h]; rfl, rfl⟩

theorem load_safe {f : Frame} {slot : Int} (h : 0 ≤ slot ∧ slot < f.locals.size) :
    Safe (fun _ g => g = f) (load slot f) := by
  rw [load_apply, if_neg (by omega), Array.getElem?_eq_getElem (by omega)]
  rfl

theorem store_safe {f : Frame} {slot : Int} (v : Int32) (h : 0 ≤ slot ∧ slot < f.locals.size) :
    Safe (fun _ g => Moved f g f.stack.size f.pc) (store slot v f) := by
  rw [store_apply, if_pos h]
  exact ⟨rfl, rfl, Array.size_setIfInBounds, rfl, rfl⟩

theorem jump_safe {f : Frame} {target : Int32}
    (h : 0 ≤ target.toInt ∧ target.toInt ≤ f.method.code.size) :
    Safe (fun _ g => Moved f g f.stack.size target.toInt) (jump target f) := by
  rw [jump_apply, if_pos h]
  exact ⟨rfl, rfl, rfl, rfl, Int.toNat_of_nonneg h.1⟩

theorem callee_safe {f : Frame} {pool : Pool} (hp : f.pool = some pool) (i : Instruction) :
    Safe (fun signature g => g = f ∧ pool.resolve i.poolIndex = .ok signature) (callee i f) := by
  rw [callee_apply, hp]
  dsimp only
  cases hr : pool.resolve i.poolIndex with
  | error e => exact fun x => nofun
  | ok signature => exact ⟨rfl, rfl⟩

/-- What an instruction of `f` with effect `e` does when it keeps the rules. -/
inductive Performs (pool : Pool) (f : Frame) (i : Instruction) (e : Assembly.Effect) :
    Option Signal → Frame → Prop where
  | next {t : Int} {g : Frame} : t ∈ Assembly.successors f.pc i →
      Moved f g (f.stack.size - e.pops + e.pushes) t → Performs pool f i e none g
  | ended {g : Frame} : i.op = Mnemonic.returnVoid.opcode →
      Performs pool f i e (some .ended) g
  | returned {v : Int32} {g : Frame} : i.op = Mnemonic.ireturn.opcode →
      Performs pool f i e (some (.returned v)) g
  | invoked {signature : Bytes} : i.op.isInvoke = true →
      pool.resolve i.poolIndex = .ok signature →
      Performs pool f i e
        (some (.invoke signature (decide (i.op = Mnemonic.invokespecial.opcode)))) f.advance

/-- An instruction may be executed in `f`. -/
structure Allowed (pool : Pool) (f : Frame) (i : Instruction) (e : Assembly.Effect) : Prop where
  constants : f.pool = some pool
  known : i.op.known = true
  effect : Assembly.stackEffect pool f.pc i = .ok e
  pops : e.pops ≤ f.stack.size
  room : (f.stack.size - e.pops + e.pushes : Nat) ≤ f.method.maxStack.toInt
  slot : ∀ slot, i.slot? = some slot → 0 ≤ slot ∧ slot < f.locals.size
  targets : ∀ t ∈ Assembly.successors f.pc i, 0 ≤ t ∧ t ≤ f.method.code.size

theorem effect_plain {pool : Pool} {pc : Nat} {i : Instruction} {m : Mnemonic}
    (hop : i.op = m.opcode) (hm : m.isInvoke = false) :
    Assembly.stackEffect pool pc i = .ok ⟨m.pops?.getD 0, m.pushes?.getD 0⟩ := by
  rw [Assembly.stackEffect, hop, Opcode.isInvoke, Mnemonic.mnemonic?_opcode]
  simp [hm]

theorem successors_eq (pc : Nat) {i : Instruction} {m : Mnemonic} : i.op = m.opcode →
    Assembly.successors pc i = match m with
      | .ireturn | .returnVoid => []
      | .goto => [i.a.toInt]
      | .ifIcmplt => [(pc : Int) + 1, i.a.toInt]
      | _ => [(pc : Int) + 1] := by
  intro hop
  rw [Assembly.successors, hop, Opcode.isReturn, Mnemonic.mnemonic?_opcode]
  cases m <;> rfl

section Kinds

variable {pool : Pool} {f : Frame} {i : Instruction}

/-- Going on without a signal. -/
theorem Performs.goOn {e : Assembly.Effect} {g : Frame} {n : Nat} {t : Int}
    (ht : t ∈ Assembly.successors f.pc i) (hn : n = f.stack.size - e.pops + e.pushes)
    (hg : Moved f.advance g n t) :
    Safe (Performs pool f i e) ((pure none : FrameM (Option Signal)) g) :=
  .next ht ⟨hg.method, hg.pool, hg.locals, hg.stack.trans hn, hg.pc⟩

theorem Performs.pushes (hnext : (f.pc : Int) + 1 ∈ Assembly.successors f.pc i) (v : Int32)
    (hroom : f.stack.size + 1 ≤ f.method.maxStack.toInt) :
    Safe (Performs pool f i ⟨0, 1⟩)
      ((push v >>= fun _ => pure none : FrameM (Option Signal)) f.advance) :=
  (push_safe (f := f.advance) v hroom).bind fun _ _ hg => goOn hnext rfl hg

theorem Performs.loads (hnext : (f.pc : Int) + 1 ∈ Assembly.successors f.pc i) {slot : Int}
    (hslot : 0 ≤ slot ∧ slot < f.locals.size)
    (hroom : f.stack.size + 1 ≤ f.method.maxStack.toInt) :
    Safe (Performs pool f i ⟨0, 1⟩)
      ((load slot >>= fun v => push v >>= fun _ => pure none : FrameM (Option Signal))
        f.advance) :=
  (load_safe (f := f.advance) hslot).bind fun v _ hg => hg ▸ pushes hnext v hroom

theorem Performs.stores (hnext : (f.pc : Int) + 1 ∈ Assembly.successors f.pc i) {slot : Int}
    (hslot : 0 ≤ slot ∧ slot < f.locals.size) (hpop : 1 ≤ f.stack.size) :
    Safe (Performs pool f i ⟨1, 0⟩)
      ((pop >>= fun v => store slot v >>= fun _ => pure none : FrameM (Option Signal))
        f.advance) := by
  obtain ⟨n, hn⟩ := Nat.exists_eq_add_of_le' hpop
  refine (pop_safe (f := f.advance) hn).bind fun v g hg => ?_
  refine (store_safe v (hg.locals ▸ hslot)).bind fun _ g' hg' => ?_
  exact goOn hnext (by rw [hg.stack, hn]; rfl) (hg.pc ▸ hg.trans hg')

theorem Performs.increments (hnext : (f.pc : Int) + 1 ∈ Assembly.successors f.pc i) {slot : Int}
    (hslot : 0 ≤ slot ∧ slot < f.locals.size) (delta : Int32) :
    Safe (Performs pool f i ⟨0, 0⟩)
      ((load slot >>= fun v => store slot (v + delta) >>= fun _ => pure none :
        FrameM (Option Signal)) f.advance) := by
  refine (load_safe (f := f.advance) hslot).bind fun v g hg => ?_
  subst hg
  exact (store_safe (f := f.advance) _ hslot).bind fun _ g hg => goOn hnext rfl hg

/-- Two values are popped, and what is left goes on from there. -/
theorem Performs.pops {e : Assembly.Effect} (hpop : 2 ≤ f.stack.size)
    {k : Int32 → Int32 → FrameM (Option Signal)}
    (hk : ∀ right left g, Moved f.advance g (f.stack.size - 2) f.advance.pc →
      Safe (Performs pool f i e) (k right left g)) :
    Safe (Performs pool f i e)
      ((pop >>= fun right => pop >>= fun left => k right left : FrameM (Option Signal))
        f.advance) := by
  obtain ⟨n, hn⟩ := Nat.exists_eq_add_of_le' hpop
  refine (pop_safe (f := f.advance) (n := n + 1) hn).bind fun right g hg => ?_
  refine (pop_safe hg.stack).bind fun left g' hg' => hk right left g' ?_
  rw [hn]
  exact hg.pc ▸ hg.trans hg'

end Kinds

theorem Allowed.execute {pool : Pool} {f : Frame} {i : Instruction} {e : Assembly.Effect}
    (h : Allowed pool f i e) : Safe (Performs pool f i e) (execute i f.advance) := by
  obtain ⟨m, hop⟩ := Code.known_iff.1 h.known
  have hslot := Instruction.slot?_eq hop
  have hrange : ∀ slot, i.slot? = some slot →
      0 ≤ i.slot?.getD (-1) ∧ i.slot?.getD (-1) < f.locals.size := by
    intro slot hs
    rw [hs]
    exact h.slot slot hs
  unfold Frame.execute
  rw [hop, Mnemonic.mnemonic?_opcode]
  cases hm : m.isInvoke with
  | true =>
    have hcall : i.op.isInvoke = true := by
      rw [hop, Opcode.isInvoke, Mnemonic.mnemonic?_opcode]
      exact hm
    have hcallee := callee_safe (f := f.advance) h.constants i
    cases m <;> simp only [Mnemonic.isInvoke, Bool.false_eq_true] at hm <;> dsimp only
    case invokespecial =>
      refine hcallee.bind fun signature g hg => ?_
      obtain ⟨rfl, hr⟩ := hg
      have hinvoked := Performs.invoked (f := f) (e := e) hcall hr
      rwa [decide_eq_true hop] at hinvoked
    case invokestatic =>
      refine hcallee.bind fun signature g hg => ?_
      obtain ⟨rfl, hr⟩ := hg
      have hinvoked := Performs.invoked (f := f) (e := e) hcall hr
      have hne : i.op ≠ Mnemonic.invokespecial.opcode := by
        rw [hop]
        decide
      rwa [decide_eq_false hne] at hinvoked
  | false =>
    obtain rfl := Except.ok.inj (h.effect.symm.trans (effect_plain hop hm))
    have hsucc := successors_eq f.pc hop
    have hnext : m.isBranch = false → m.isReturn = false →
        (f.pc : Int) + 1 ∈ Assembly.successors f.pc i := by
      intro hb hr
      rw [hsucc]
      cases m <;> simp [Mnemonic.isBranch, Mnemonic.isReturn] at hb hr ⊢
    have hpops := h.pops
    cases m <;> simp only [Mnemonic.isInvoke, Bool.true_eq_false] at hm <;> dsimp only at *
    case iconstM1 | iconst0 | iconst1 | iconst2 | iconst3 | iconst4 | iconst5 | bipush | sipush =>
      exact Performs.pushes (hnext rfl rfl) _ h.room
    case iload | iload0 | iload1 | iload2 | iload3 | aload0 =>
      exact Performs.loads (hnext rfl rfl) (hrange _ hslot) h.room
    case istore | istore0 | istore1 | istore2 | istore3 =>
      exact Performs.stores (hnext rfl rfl) (hrange _ hslot) hpops
    case iinc => exact Performs.increments (hnext rfl rfl) (hrange _ hslot) _
    case iadd =>
      refine Performs.pops hpops fun right left g hg => ?_
      have hroom : g.stack.size + 1 ≤ g.method.maxStack.toInt := by
        rw [hg.stack, hg.method]
        exact h.room
      refine (push_safe _ hroom).bind fun _ g' hg' => ?_
      exact Performs.goOn (hnext rfl rfl) (by rw [hg.stack]; rfl) (hg.pc ▸ hg.trans hg')
    case goto =>
      have ht : i.a.toInt ∈ Assembly.successors f.pc i := by
        rw [hsucc]
        exact List.mem_singleton_self _
      refine (jump_safe (f := f.advance) (h.targets _ ht)).bind fun _ g hg => ?_
      exact Performs.goOn ht rfl hg
    case ifIcmplt =>
      have hfall : (f.pc : Int) + 1 ∈ Assembly.successors f.pc i := by
        rw [hsucc]
        exact List.mem_cons_self
      have ht : i.a.toInt ∈ Assembly.successors f.pc i := by
        rw [hsucc]
        exact List.mem_cons_of_mem _ (List.mem_singleton_self _)
      refine Performs.pops hpops fun right left g hg => ?_
      by_cases hlt : left < right
      · simp only [if_pos hlt]
        refine (jump_safe (hg.method ▸ h.targets _ ht)).bind fun _ g' hg' => ?_
        exact Performs.goOn ht hg.stack (hg.trans hg')
      · simp only [if_neg hlt]
        exact Performs.goOn hfall rfl hg
    case ireturn =>
      obtain ⟨n, hn⟩ := Nat.exists_eq_add_of_le' hpops
      exact (pop_safe (f := f.advance) hn).bind fun _ _ _ => Performs.returned hop
    case returnVoid => exact Performs.ended hop

end Frame

end MiniJvm
