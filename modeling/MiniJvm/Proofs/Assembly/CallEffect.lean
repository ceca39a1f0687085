import Mathlib
import MiniJvm.Proofs.Assembly.Soundness
import MiniJvm.Proofs.Pool.Interning

/-!
# The effect of a call

A reference to a method is split at its first colon, but the effect of the call is read off what
stands behind the last colon of the callee's signature. The two differ where a class name in the
descriptor has a colon. `call_effect_iff` says when the inferred effect is that of the descriptor,
which is what the machine takes from the operand stack and leaves there.
-/

namespace MiniJvm.Assembly

open CallStack Registry

/-- Calls under the signature take `n` values from the operand stack, whatever becomes of the
callee. Where fewer are left the call fails and takes none. -/
structure Takes (r : Registry) (signature : Bytes) (special : Bool) (n : Nat) : Prop where
  enough : ∀ caller : Frame, n ≤ caller.stack.size →
    (callFrame r caller signature special).2 =
      { caller with stack := (caller.stack.toList.take (caller.stack.size - n)).toArray }
  missing : ∀ caller : Frame, caller.stack.size < n →
    callFrame r caller signature special =
      (.error (caller.faultAt (.missingArguments n caller.stack.size)), caller)

theorem takes_of_callSlots {r : Registry} {signature : Bytes} {m : Method} {c : Class}
    (hm : r.methods.get? signature = some m) (hc : r.classes.get? m.owner = some c)
    {special : Bool} {n : Nat} (hn : (m.callSlots special).toInt = n) :
    Takes r signature special n where
  enough caller hle := by
    have hs := (List.take_append_drop (caller.stack.size - n) caller.stack.toList).symm
    have hargs : (m.callSlots special).toInt =
        (caller.stack.toList.drop (caller.stack.size - n)).length := by
      rw [hn, List.length_drop, Array.length_toList]
      omega
    rw [callFrame_eq hm hc, Frame.popArgs_ok hargs hs]
    dsimp only
    split <;> rfl
  missing caller hlt := by rw [callFrame_eq hm hc, Frame.popArgs_missing hn hlt]

/-- A method is registered with its class and the sizes of its descriptor. -/
theorem registered_of_load {defs : List ClassDef} {r : Registry} (hload : load defs = .ok r)
    {key : Bytes} {m : Method} (hm : r.methods.get? key = some m) {d : Descriptor}
    (hd : Descriptor.parse? m.descriptor = some d) :
    m.argSlots = Int64.ofNat d.slots ∧ m.void = d.void ∧
      ∃ c, r.classes.get? m.owner = some c := by
  have howned := load_owned hload
  obtain ⟨c, hc, hown⟩ := howned.methods hm
  obtain ⟨cd, -, hof⟩ := howned.classes hc
  obtain ⟨-, md, -, hmakes⟩ := hof.methods hown
  obtain ⟨p, hp, hslots, hvoid⟩ := hmakes.parsed
  rw [← hmakes.descriptor] at hp
  cases hp.symm.trans hd
  exact ⟨hslots, hvoid, c, hc⟩

/-- A reference is split at its first colon, and what stands before at the last dot. -/
theorem splitReference_ok {text self owner name descriptor : Bytes}
    (h : splitReference text self = .ok (owner, name, descriptor)) :
    ∃ head d, Bytes.cut? 58 text = some (head, descriptor) ∧
      (splitLastDot? head).getD (self, head) = (owner, name) ∧
      Descriptor.parse? descriptor = some d := by
  unfold splitReference at h
  split at h
  · cases h
  · rename_i head after hcut
    dsimp only at h
    split at h
    · cases h
    · split at h
      · cases h
      · rename_i hparsed
        cases h
        rw [Bool.not_eq_true, Option.isNone_eq_false_iff] at hparsed
        obtain ⟨d, hd⟩ := Option.isSome_iff_exists.1 hparsed
        exact ⟨head, d, hcut, rfl, hd⟩

theorem parse?_of_splitReference {text self owner name descriptor : Bytes}
    (h : splitReference text self = .ok (owner, name, descriptor)) :
    ∃ d, Descriptor.parse? descriptor = some d := by
  obtain ⟨-, d, -, -, hd⟩ := splitReference_ok h
  exact ⟨d, hd⟩

/-! ## Emitted calls -/

theorem poolIndex_ofNat (op : Opcode) (i : UInt16) :
    (⟨op, Int32.ofNat i.toNat, 0⟩ : Instruction).poolIndex = i := by
  have hlt := i.toNat_lt
  apply UInt16.toNat_inj.1
  rw [Instruction.poolIndex, UInt32.toNat_toUInt16]
  simp

section

variable {s : GenState} {m : Mnemonic} {owner name descriptor : Bytes} {pool : Pool}

/-- The operand of an emitted call leads to the signature, in all pools that come after. -/
theorem resolve_emit (hs : s.builder.Built)
    (hroom : (s.emit (.call m owner name descriptor)).1.builder.isFull = false)
    (hgrows : (s.emit (.call m owner name descriptor)).1.builder.pool.Grows pool) :
    pool.resolve (s.emit (.call m owner name descriptor)).2.poolIndex =
      .ok (signature owner name descriptor) := by
  rw [emit_call] at hroom hgrows ⊢
  dsimp only at hroom hgrows ⊢
  have hmethod := hs.methodAt_addMethodRef owner name descriptor
    (PoolBuilder.fits_of_isFull hroom)
  rw [poolIndex_ofNat]
  exact (hgrows.methodAt hmethod).denotes.resolve

theorem stackEffect_emit (hs : s.builder.Built) (hm : m.isInvoke = true)
    (hroom : (s.emit (.call m owner name descriptor)).1.builder.isFull = false)
    (hgrows : (s.emit (.call m owner name descriptor)).1.builder.pool.Grows pool) (pc : Nat) :
    stackEffect pool pc (s.emit (.call m owner name descriptor)).2 =
      match Descriptor.parse? (descriptorPart descriptor) with
      | none => .error (.badDescriptor pc (s.emit (.call m owner name descriptor)).2
          (descriptorPart descriptor))
      | some d => .ok (callEffect (decide (m = .invokespecial)) d) := by
  have hresolve := resolve_emit hs hroom hgrows
  rw [emit_call] at hresolve ⊢
  have hspecial : decide (m.opcode = Mnemonic.invokespecial.opcode) =
      decide (m = .invokespecial) := by
    cases m <;> rfl
  have hinvoke : m.opcode.isInvoke = true := by
    rw [Opcode.isInvoke, Mnemonic.mnemonic?_opcode]
    exact hm
  have heffect := stackEffect_call hinvoke hresolve pc
  rw [descriptorPart_signature, hspecial] at heffect
  exact heffect

end

/-- The effect that is inferred for a call, wherever its reference was interned, is that of its
descriptor exactly when what stands behind the last colon of the descriptor parses to the same.
Then it is what the call takes and what the callee returns, for every loaded callee with this
descriptor. It is so where no class name of the descriptor has a colon. The bound on the
descriptor keeps its slots within 64 bits. -/
theorem call_effect_iff {text self owner name descriptor : Bytes}
    (hsplit : splitReference text self = .ok (owner, name, descriptor)) {s : GenState}
    (hs : s.builder.Built) {m : Mnemonic} (hm : m.isInvoke = true)
    (hroom : (s.emit (.call m owner name descriptor)).1.builder.isFull = false) {pool : Pool}
    (hgrows : (s.emit (.call m owner name descriptor)).1.builder.pool.Grows pool) (pc : Nat) :
    let i := (s.emit (.call m owner name descriptor)).2
    let special := decide (m = .invokespecial)
    ∃ d, Descriptor.parse? descriptor = some d ∧
      pool.resolve i.poolIndex = .ok (signature owner name descriptor) ∧
      (stackEffect pool pc i = .ok (callEffect special d) ↔
        Descriptor.parse? (descriptorPart descriptor) = some d) ∧
      (Descriptor.parse? (descriptorPart descriptor) = none →
        stackEffect pool pc i = .error (.badDescriptor pc i (descriptorPart descriptor))) ∧
      (58 ∉ descriptor → stackEffect pool pc i = .ok (callEffect special d)) ∧
      ∀ {defs r callee}, load defs = .ok r →
        r.methods.get? (signature owner name descriptor) = some callee →
        callee.descriptor = descriptor →
        callee.callSlots special = Int64.ofNat (callEffect special d).pops ∧
        callee.pushes = (callEffect special d).pushes ∧
        (descriptor.length < 2 ^ 62 →
          Takes r (signature owner name descriptor) special (callEffect special d).pops) := by
  obtain ⟨d, hd⟩ := parse?_of_splitReference hsplit
  have hresolve := resolve_emit hs hroom hgrows
  have heffect := stackEffect_emit hs hm hroom hgrows pc
  intro i special
  have hiff : stackEffect pool pc i = .ok (callEffect special d) ↔
      Descriptor.parse? (descriptorPart descriptor) = some d := by
    rw [heffect]
    cases Descriptor.parse? (descriptorPart descriptor) with
    | none => simp
    | some d' =>
      rw [Except.ok.injEq, Option.some.injEq]
      exact (callEffect_injective special).eq_iff
  refine ⟨d, hd, hresolve, hiff, fun hnone => ?_, fun hcolon => ?_,
    fun {defs r callee} hload hcallee hdescriptor => ?_⟩
  · rw [heffect, hnone]
  · rw [hiff, descriptorPart_of_not_mem hcolon, hd]
  · obtain ⟨hslots, hvoid, c, hc⟩ := registered_of_load hload hcallee (hdescriptor ▸ hd)
    refine ⟨?_, ?_, fun hlength => takes_of_callSlots hcallee hc ?_⟩
    · rw [Method.callSlots, hslots, callEffect, Int64.ofNat_add]
      cases special <;> simp
    · rw [Method.pushes, hvoid, callEffect]
    · have hle := Descriptor.slots_le hd
      exact toInt_callSlots hslots (by omega) special

/-- A method reference of class `A` to a method `f` of its own, interned and called. -/
def ownCall (descriptor : Bytes) : GenState × Instruction :=
  GenState.emit ⟨(PoolBuilder.start.addClass "A").2, #[]⟩ (.call .invokestatic "A" "f" descriptor)

/-- Class `A` with its method `f`. -/
def owning (descriptor : Bytes) : List ClassDef :=
  [{ name := "A", methods := some [⟨"f", descriptor, 0, 4, some [.plain .returnVoid]⟩] }]

/-- A class name that ends in a descriptor of the same effect hides the slip. -/
theorem call_effect_iff_disguised :
    58 ∈ ("(La:(Lb;)V" : Bytes) ∧
      stackEffect (ownCall "(La:(Lb;)V").1.builder.pool 1 (ownCall "(La:(Lb;)V").2 =
        .ok ⟨1, 0⟩ ∧
      ∃ r callee, load (owning "(La:(Lb;)V") = .ok r ∧
        r.methods.get? "A.f:(La:(Lb;)V" = some callee ∧ callee.pushes = 0 ∧
        Takes r "A.f:(La:(Lb;)V" false 1 := by
  have hsplit : splitReference "f:(La:(Lb;)V" "A" = .ok ("A", "f", "(La:(Lb;)V") := by
    decide +kernel
  have hparse : Descriptor.parse? "(La:(Lb;)V" = some ⟨1, true⟩ := by decide +kernel
  have hpart : Descriptor.parse? (descriptorPart "(La:(Lb;)V") = some ⟨1, true⟩ := by
    decide +kernel
  have hroom : (ownCall "(La:(Lb;)V").1.builder.isFull = false := by decide +kernel
  have hcallee : ∃ r ∈ (load (owning "(La:(Lb;)V")).toOption,
      ∃ callee ∈ r.methods.get? "A.f:(La:(Lb;)V", callee.descriptor = "(La:(Lb;)V" := by
    decide +kernel
  obtain ⟨r, hload, callee, hcallee, hdescriptor⟩ := hcallee
  have hload := eq_ok_of_mem_toOption hload
  obtain ⟨d, hd, -, hiff, -, -, htakes⟩ := call_effect_iff hsplit
    (PoolBuilder.Built.start.addClass "A") (m := .invokestatic) rfl hroom (.refl _) 1
  cases hparse.symm.trans hd
  obtain ⟨-, hpushes, htakes⟩ := htakes hload hcallee hdescriptor
  exact ⟨by decide +kernel, hiff.2 hpart, r, callee, hload, hcallee, hpushes,
    htakes (by decide +kernel)⟩

/-- With other class names the effect is none, or the wrong one: the call of the second method
takes three values. -/
theorem call_effect_misread :
    splitReference "f:(La:b;)V" "A" = .ok ("A", "f", "(La:b;)V") ∧
      Descriptor.parse? "(La:b;)V" = some ⟨1, true⟩ ∧
      (ownCall "(La:b;)V").1.builder.isFull = false ∧
      stackEffect (ownCall "(La:b;)V").1.builder.pool 1 (ownCall "(La:b;)V").2 =
        .error (.badDescriptor 1 (ownCall "(La:b;)V").2 "b;)V") ∧
      splitReference "f:(IILa:(Lb;)V" "A" = .ok ("A", "f", "(IILa:(Lb;)V") ∧
      Descriptor.parse? "(IILa:(Lb;)V" = some ⟨3, true⟩ ∧
      (ownCall "(IILa:(Lb;)V").1.builder.isFull = false ∧
      stackEffect (ownCall "(IILa:(Lb;)V").1.builder.pool 1 (ownCall "(IILa:(Lb;)V").2 =
        .ok ⟨1, 0⟩ ∧
      ∃ r ∈ (load (owning "(IILa:(Lb;)V")).toOption,
        ∃ callee ∈ r.methods.get? "A.f:(IILa:(Lb;)V", callee.callSlots false = 3 := by
  decide +kernel

end MiniJvm.Assembly
