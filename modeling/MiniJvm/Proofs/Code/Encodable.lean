import Mathlib
import MiniJvm.Proofs.Code.RoundTrip

/-!
# Which code has bytes

`Encodable code` says what a class file can hold, instruction by instruction and without the
encoder: known opcodes, operands in their ranges, and branches inside the code over distances of
16 bits. Encoding succeeds for exactly that code (`encode_exists_iff`), and decoding gives it back
with the unused operand fields cleared.
-/

namespace MiniJvm

/-- The least and the greatest first operand in a class file, where there is one and it is not the
target of a branch. -/
def Mnemonic.operandRange? : Mnemonic → Option (Int × Int)
  | .bipush => some (-128, 127)
  | .sipush => some (-32768, 32767)
  | .iload | .istore | .iinc => some (0, 255)
  | .invokespecial | .invokestatic => some (0, 65535)
  | _ => none

namespace Code

/-- The byte at which instruction `k` starts: all instructions before it are laid out first. -/
def offsetAt (code : List Instruction) (k : Nat) : Nat :=
  ((code.take k).map fun i => i.op.size).sum

/-- The operands that an `m` uses are in their ranges, the target of a branch apart. -/
structure OperandsFit (m : Mnemonic) (i : Instruction) : Prop where
  first : ∀ {low high}, m.operandRange? = some (low, high) → low ≤ i.a.toInt ∧ i.a.toInt ≤ high
  second : m = .iinc → -128 ≤ i.b.toInt ∧ i.b.toInt ≤ 127

/-- The branch `i`, which is instruction `k`, goes to an instruction or to the end of the code, and
its distance in bytes is a signed 16-bit number. -/
structure BranchFits (code : List Instruction) (k : Nat) (i : Instruction) : Prop where
  target : 0 ≤ i.a.toInt ∧ i.a.toInt ≤ code.length
  distance : -32768 ≤ (offsetAt code i.a.toInt.toNat : Int) - offsetAt code k ∧
    (offsetAt code i.a.toInt.toNat : Int) - offsetAt code k ≤ 32767

/-- What a class file can hold. -/
structure Encodable (code : List Instruction) : Prop where
  known : ∀ i ∈ code, i.op.known = true
  operands : ∀ i ∈ code, ∀ m : Mnemonic, i.op = m.opcode → OperandsFit m i
  branches : ∀ {k i}, code[k]? = some i → i.op.isBranch = true → BranchFits code k i

/-! ## Offsets -/

theorem offsetAt_cons (i : Instruction) (rest : List Instruction) (k : Nat) :
    offsetAt (i :: rest) (k + 1) = i.op.size + offsetAt rest k := by
  simp [offsetAt]

theorem getElem?_offsetsFrom (o : Nat) (code : List Instruction) (k : Nat) :
    (offsetsFrom o code)[k]? = if k ≤ code.length then some (o + offsetAt code k) else none := by
  induction code generalizing o k with
  | nil => cases k <;> simp [offsetsFrom, offsetAt]
  | cons i rest ih =>
    cases k with
    | zero => simp [offsetsFrom, offsetAt]
    | succ k =>
      rw [offsetsFrom, List.getElem?_cons_succ, ih, offsetAt_cons]
      simp [Nat.add_assoc]

theorem getElem?_offsets {code : List Instruction} {k p : Nat} :
    (offsetsFrom 0 code).toArray[k]? = some p ↔ k ≤ code.length ∧ offsetAt code k = p := by
  rw [List.getElem?_toArray, getElem?_offsetsFrom, Nat.zero_add]
  split <;> simp_all

/-! ## One instruction -/

theorem encodeBranch_exists_iff {code : List Instruction} {k : Nat} {i : Instruction}
    (hk : k ≤ code.length) :
    (∃ out, encodeBranch (offsetsFrom 0 code).toArray i k = .ok out) ↔ BranchFits code k i := by
  simp only [encodeBranch_ok_iff, getElem?_offsets]
  constructor
  · rintro ⟨_, j, _, _, ha, ⟨hj, rfl⟩, ⟨-, rfl⟩, hd, -⟩
    refine ⟨by omega, ?_⟩
    rwa [ha, Int.toNat_natCast]
  · rintro ⟨htarget, hd⟩
    refine ⟨_, i.a.toInt.toNat, _, _, ?_, ⟨?_, rfl⟩, ⟨hk, rfl⟩, hd, rfl⟩
    · exact (Int.toNat_of_nonneg htarget.1).symm
    · omega

theorem encodeOperands_exists_iff {i : Instruction} {m : Mnemonic} (hop : i.op = m.opcode)
    (hm : m.isBranch = false) (offsets : Array Nat) (k : Nat) :
    (∃ out, encodeOperands offsets i k = .ok out) ↔ OperandsFit m i := by
  unfold encodeOperands
  rw [hop, Mnemonic.mnemonic?_opcode]
  have hfit : OperandsFit m i ↔
      (∀ r, m.operandRange? = some r → r.1 ≤ i.a.toInt ∧ i.a.toInt ≤ r.2) ∧
        (m = .iinc → -128 ≤ i.b.toInt ∧ i.b.toInt ≤ 127) :=
    ⟨fun h => ⟨fun _ hr => h.first hr, h.second⟩, fun h => ⟨fun hr => h.1 _ hr, h.2⟩⟩
  rw [hfit]
  cases m <;> simp only [Mnemonic.isBranch, Bool.true_eq_false] at hm <;>
    simp [Mnemonic.operandRange?, checkOperand_bind_ok_iff, pure, Except.pure]

/-- A branch uses no operand but its target. -/
theorem operandsFit_of_isBranch {m : Mnemonic} (hm : m.isBranch = true) (i : Instruction) :
    OperandsFit m i := by
  have hfree : m.operandRange? = none ∧ m ≠ .iinc := by
    cases m <;> simp [Mnemonic.isBranch, Mnemonic.operandRange?] at hm ⊢
  refine ⟨fun hr => ?_, fun h => absurd h hfree.2⟩
  rw [hfree.1] at hr
  cases hr

/-- An instruction has bytes when its operands are in their ranges and a branch has a target. -/
theorem encodeAt_exists_iff {code : List Instruction} {k : Nat} {i : Instruction}
    (hi : code[k]? = some i) (hknown : i.op.known = true) :
    (∃ part, encodeAt (offsetsFrom 0 code).toArray (i, k) = .ok part) ↔
      (∀ m : Mnemonic, i.op = m.opcode → OperandsFit m i) ∧
        (i.op.isBranch = true → BranchFits code k i) := by
  obtain ⟨m, hop⟩ := known_iff.1 hknown
  have hk : k ≤ code.length := (List.getElem?_eq_some_iff.1 hi).1.le
  have hparts : (∃ part, encodeAt (offsetsFrom 0 code).toArray (i, k) = .ok part) ↔
      ∃ out, encodeOperands (offsetsFrom 0 code).toArray i k = .ok out := by
    simp [encodeAt_ok_iff]
  have hone : (∀ n : Mnemonic, i.op = n.opcode → OperandsFit n i) ↔ OperandsFit m i :=
    ⟨fun h => h m hop, fun h n hn => opcode_inj (hop.symm.trans hn) ▸ h⟩
  rw [hparts, hone, hop, isBranch_opcode]
  cases hm : m.isBranch with
  | false => simp [encodeOperands_exists_iff hop hm]
  | true =>
    rw [encodeOperands_branch hop hm, encodeBranch_exists_iff hk]
    exact ⟨fun h => ⟨operandsFit_of_isBranch hm i, fun _ => h⟩, fun h => h.2 rfl⟩

/-! ## Whole code -/

theorem mapM_exists_iff {ε α β : Type} {f : α → Except ε β} {xs : List α} :
    (∃ ys, xs.mapM f = .ok ys) ↔ ∀ x ∈ xs, ∃ y, f x = .ok y := by
  constructor
  · rintro ⟨ys, h⟩ x hx
    obtain ⟨hlen, hget⟩ := List.forall₂_iff_get.1 (mapM_ok_iff.1 h)
    obtain ⟨k, hk, rfl⟩ := List.getElem_of_mem hx
    exact ⟨_, hget k hk (hlen ▸ hk)⟩
  · intro h
    cases hys : xs.mapM f with
    | ok ys => exact ⟨ys, rfl⟩
    | error e =>
      obtain ⟨x, hx, he⟩ := mapM_error hys
      obtain ⟨y, hy⟩ := h x hx
      cases he.symm.trans hy

theorem encode_exists_iff (code : List Instruction) :
    (∃ b, encode code = .ok b) ↔ Encodable code := by
  rw [encode_eq]
  cases hunknown : firstUnknown? code with
  | some at_ =>
    constructor
    · rintro ⟨b, hb⟩
      cases hb
    · intro h
      cases hunknown.symm.trans (firstUnknown?_eq_none_iff.2 h.known)
  | none =>
    have hknown := firstUnknown?_eq_none_iff.1 hunknown
    have hparts : (∃ b, (code.zipIdx.mapM (encodeAt (offsetsFrom 0 code).toArray)).map
        List.flatten = .ok b) ↔
        ∃ parts, code.zipIdx.mapM (encodeAt (offsetsFrom 0 code).toArray) = .ok parts := by
      cases code.zipIdx.mapM (encodeAt (offsetsFrom 0 code).toArray) <;> simp [Except.map]
    dsimp only
    rw [hparts, mapM_exists_iff]
    constructor
    · intro h
      have hfits : ∀ {k i}, code[k]? = some i → _ := fun {k i} hi =>
        (encodeAt_exists_iff hi (hknown i (List.mem_of_getElem? hi))).1
          (h (i, k) (List.mk_mem_zipIdx_iff_getElem?.2 hi))
      refine ⟨hknown, fun i hi => ?_, fun hi => (hfits hi).2⟩
      obtain ⟨k, hk⟩ := List.mem_iff_getElem?.1 hi
      exact (hfits hk).1
    · rintro h ⟨i, k⟩ hmem
      have hi := List.mk_mem_zipIdx_iff_getElem?.1 hmem
      have hin := List.mem_of_getElem? hi
      exact (encodeAt_exists_iff hi (hknown i hin)).2 ⟨h.operands i hin, h.branches hi⟩

/-- Decoding undoes encoding, and encoding succeeds for exactly the code that a class file can
hold. -/
theorem decode_encode_iff (code : List Instruction) :
    (∀ b, encode code = .ok b → decode b = .ok (code.map Instruction.canonical)) ∧
    ((∃ b, encode code = .ok b) ↔ Encodable code) :=
  ⟨fun _ h => decode_encoded h, encode_exists_iff code⟩

/-- A branch to the end of the code, and one backward over an instruction with an unused operand
field. -/
example :
    encode [⟨Mnemonic.ifIcmplt.opcode, 3, 7⟩, .iinc 255 (-128), .goto 1] =
      .ok [0xA1, 0, 9, 0x84, 255, 128, 0xA7, 255, 253] ∧
    decode [0xA1, 0, 9, 0x84, 255, 128, 0xA7, 255, 253] =
      .ok [.ifIcmplt 3, .iinc 255 (-128), .goto 1] := by
  decide +kernel

end Code

end MiniJvm
