import Mathlib
import MiniJvm.Proofs.Code.Walk

/-!
# Decoding and encoding are inverse

`decode_ok_iff` says what decoding gives without its two passes: the code is read to its end,
instruction `k` is the one at boundary `k`, and the target of a branch is the index of the boundary
it jumps to. From it follow both directions of the round trip.
-/

namespace MiniJvm

/-- The instruction with zero in the operand fields that its opcode does not use. -/
def Instruction.canonical (i : Instruction) : Instruction :=
  ⟨i.op, if i.op.operandBytes = 0 then 0 else i.a,
    if i.op = Mnemonic.iinc.opcode then i.b else 0⟩

namespace Code

/-! ## Operand bytes -/

theorem byteOf_toNat (x : UInt8) : byteOf x.toNat = x := by
  have := x.toNat_lt
  apply UInt8.toNat_inj.1
  simp only [byteOf, Nat.toUInt8_eq, UInt8.toNat_ofNat']
  omega

theorem byteOf_signed8 (x : UInt8) : byteOf (signed8 x) = x := by
  have h : signed8 x % 256 = (x.toNat : Int) % 256 := Int.bmod_emod
  rw [byteOf, h]
  exact byteOf_toNat x

theorem signed8_range (x : UInt8) : -128 ≤ signed8 x ∧ signed8 x ≤ 127 := by
  have h1 := Int.le_bmod (x := x.toNat) (m := 256) (by decide)
  have h2 := Int.bmod_lt (x := x.toNat) (m := 256) (by decide)
  unfold signed8
  omega

theorem unsigned16_lt (x y : UInt8) : unsigned16 x y < 65536 := by
  have := x.toNat_lt; have := y.toNat_lt
  unfold unsigned16
  omega

theorem signed16_range (x y : UInt8) : -32768 ≤ signed16 x y ∧ signed16 x y ≤ 32767 := by
  have h1 := Int.le_bmod (x := unsigned16 x y) (m := 65536) (by decide)
  have h2 := Int.bmod_lt (x := unsigned16 x y) (m := 65536) (by decide)
  unfold signed16
  omega

/-- Only the lowest 16 bits are laid out. -/
theorem bytesOf16_of_emod {n : Int} {x y : UInt8} (h : n % 65536 = unsigned16 x y) :
    bytesOf16 n = [x, y] := by
  have := x.toNat_lt; have := y.toNat_lt
  unfold unsigned16 at h
  have hx : n / 256 % 256 = x.toNat := by omega
  have hy : n % 256 = y.toNat := by omega
  simp [bytesOf16, byteOf, hx, hy]

theorem bytesOf16_unsigned16 (x y : UInt8) : bytesOf16 (unsigned16 x y) = [x, y] := by
  have := unsigned16_lt x y
  exact bytesOf16_of_emod (by omega)

theorem bytesOf16_signed16 (x y : UInt8) : bytesOf16 (signed16 x y) = [x, y] := by
  have := unsigned16_lt x y
  have h : signed16 x y % 65536 = (unsigned16 x y : Int) % 65536 := Int.bmod_emod
  exact bytesOf16_of_emod (by omega)

theorem toNat_byteOf (n : Int) : ((byteOf n).toNat : Int) = n % 256 := by
  simp only [byteOf, Nat.toUInt8_eq, UInt8.toNat_ofNat']
  omega

theorem unsigned8_byteOf {n : Int} (h : 0 ≤ n ∧ n ≤ 255) : ((byteOf n).toNat : Int) = n := by
  rw [toNat_byteOf]
  omega

theorem signed8_byteOf {n : Int} (h : -128 ≤ n ∧ n ≤ 127) : signed8 (byteOf n) = n := by
  have hb := toNat_byteOf n
  unfold signed8
  rw [Int.bmod_def]
  omega

theorem unsigned16_byteOf_emod (n : Int) :
    (unsigned16 (byteOf (n / 256)) (byteOf n) : Int) = n % 65536 := by
  have h1 := toNat_byteOf (n / 256); have h2 := toNat_byteOf n
  unfold unsigned16
  omega

theorem unsigned16_byteOf {n : Int} (h : 0 ≤ n ∧ n ≤ 65535) :
    (unsigned16 (byteOf (n / 256)) (byteOf n) : Int) = n := by
  rw [unsigned16_byteOf_emod]
  omega

theorem signed16_byteOf {n : Int} (h : -32768 ≤ n ∧ n ≤ 32767) :
    signed16 (byteOf (n / 256)) (byteOf n) = n := by
  have hb := unsigned16_byteOf_emod n
  unfold signed16
  rw [Int.bmod_def]
  omega

/-! ## What decoding gives -/

theorem mapM_ok_iff {ε α β : Type} {f : α → Except ε β} {xs : List α} {ys : List β} :
    xs.mapM f = .ok ys ↔ List.Forall₂ (fun x y => f x = .ok y) xs ys := by
  induction xs generalizing ys with
  | nil => cases ys <;> simp [pure, Except.pure]
  | cons x xs ih =>
    rw [List.mapM_cons]
    cases hx : f x with
    | error e => cases ys <;> simp [bind, Except.bind, hx]
    | ok y =>
      cases hxs : xs.mapM f with
      | error e => cases ys <;> simp [bind, Except.bind, hx, ← ih, hxs]
      | ok ys' => cases ys <;> simp [bind, Except.bind, pure, Except.pure, hx, ← ih, hxs]

theorem mapM_error {ε α β : Type} {f : α → Except ε β} {xs : List α} {e : ε}
    (h : xs.mapM f = .error e) : ∃ x ∈ xs, f x = .error e := by
  induction xs with
  | nil => cases h
  | cons x xs ih =>
    rw [List.mapM_cons] at h
    cases hx : f x with
    | error e' => rw [hx] at h; cases h; exact ⟨x, List.mem_cons_self, hx⟩
    | ok y =>
      cases hxs : xs.mapM f with
      | error e' =>
        rw [hx, hxs] at h
        cases h
        obtain ⟨z, hz, he⟩ := ih hxs
        exact ⟨z, List.mem_cons_of_mem _ hz, he⟩
      | ok ys => rw [hx, hxs] at h; cases h

/-- The signed 16-bit operand of a branch at byte `p`. -/
def distanceAt (b : Bytes) (p : Nat) : Int := signed16 (b.getD (p + 1) 0) (b.getD (p + 2) 0)

/-- Decoding turns the `m` at byte `p` into `i`. -/
def Resolved (b : Bytes) (p : Nat) (m : Mnemonic) (i : Instruction) : Prop :=
  if m.isBranch then
    ∃ j t, Boundary b j t ∧ (t : Int) = p + distanceAt b p ∧ i = ⟨m.opcode, Int32.ofNat j, 0⟩
  else i = readAt b p m

theorem Resolved.op {b : Bytes} {p : Nat} {m : Mnemonic} {i : Instruction}
    (h : Resolved b p m i) : i.op = m.opcode := by
  unfold Resolved at h
  split at h
  · obtain ⟨_, _, _, _, rfl⟩ := h; rfl
  · rw [h, readAt, op_instructionOf]

/-- `code` is the code of `b`: it is read to its end, and each instruction is resolved. -/
structure Decoded (b : Bytes) (code : List Instruction) : Prop where
  complete : Boundary b code.length b.length
  instruction : ∀ {k : Nat} {i : Instruction}, code[k]? = some i →
    ∃ p m, Boundary b k p ∧ Reads b p m ∧ Resolved b p m i

theorem Listed.scan {b : Bytes} {p : Nat} {items : List (Nat × Instruction)}
    (h : Listed b p items) : Code.scan p (b.drop p) = .ok items := by
  induction h with
  | done => simp [Code.scan]
  | cons hr _ ih =>
    have := hr.fits
    rw [scan_drop hr.opcode, if_neg (by omega), ih]
    rfl

theorem isBranch_opcode (m : Mnemonic) : m.opcode.isBranch = m.isBranch := by
  cases m <;> rfl

/-- A branch that is read but not resolved holds its distance. -/
theorem a_readAt_branch {b : Bytes} {p : Nat} {m : Mnemonic} (hm : m.isBranch = true) :
    (readAt b p m).a.toInt = distanceAt b p := by
  have h := signed16_range (b.getD (p + 1) 0) (b.getD (p + 2) 0)
  have ha : (readAt b p m).a = Int32.ofInt (distanceAt b p) := by
    cases m <;> simp [Mnemonic.isBranch] at hm <;> rfl
  rw [ha]
  exact Int32.toInt_ofInt_of_le (by unfold distanceAt; omega) (by unfold distanceAt; omega)

theorem b_readAt_branch {b : Bytes} {p : Nat} {m : Mnemonic} (hm : m.isBranch = true) :
    (readAt b p m).b = 0 := by
  cases m <;> simp [Mnemonic.isBranch] at hm <;> rfl

theorem indexAt?_eq_some_iff {b : Bytes} {items : List (Nat × Instruction)}
    (h : Listed b 0 items) {t : Int} {j : Nat} :
    indexAt? (offsetsOf b items) t = some j ↔ ∃ q : Nat, Boundary b j q ∧ (q : Int) = t := by
  unfold indexAt?
  constructor
  · intro hj
    split at hj
    · cases hj
    · obtain ⟨hlt, hv, _⟩ := List.idxOf?_eq_some_iff.1 hj
      refine ⟨t.toNat, (h.walk_iff _ _).2 ?_, by omega⟩
      rw [List.getElem?_eq_getElem hlt, hv]
  · rintro ⟨q, hq, rfl⟩
    rw [if_neg (by omega), Int.toNat_natCast]
    obtain ⟨hlt, hv⟩ := List.getElem?_eq_some_iff.1 ((h.walk_iff _ _).1 hq)
    refine List.idxOf?_eq_some_iff.2 ⟨hlt, hv, fun k hk he => ?_⟩
    have hw : Boundary b k q :=
      (h.walk_iff _ _).2 (by rw [List.getElem?_eq_getElem (by omega), he])
    have := hw.index_unique hq
    omega

theorem resolveBranch_eq (offsets : List Nat) (p : Nat) (i : Instruction) :
    resolveBranch offsets (p, i) =
      if i.op.isBranch then
        match indexAt? offsets (p + i.a.toInt) with
        | some j => .ok { i with a := Int32.ofNat j }
        | none => .error (.badBranch i.op p (p + i.a.toInt))
      else .ok i := rfl

theorem resolveBranch_ok_iff {b : Bytes} {items : List (Nat × Instruction)} (h : Listed b 0 items)
    {p : Nat} {m : Mnemonic} {i : Instruction} :
    resolveBranch (offsetsOf b items) (p, readAt b p m) = .ok i ↔ Resolved b p m i := by
  have hop : (readAt b p m).op = m.opcode := op_instructionOf ..
  rw [resolveBranch_eq, hop, isBranch_opcode, Resolved]
  cases hm : m.isBranch with
  | false => simp [eq_comm]
  | true =>
    simp only [if_true, a_readAt_branch hm, b_readAt_branch hm]
    cases ht : indexAt? (offsetsOf b items) (p + distanceAt b p) with
    | none =>
      constructor
      · intro hi; cases hi
      · rintro ⟨j, t, hj, he, _⟩
        rw [(indexAt?_eq_some_iff h).2 ⟨t, hj, he⟩] at ht
        cases ht
    | some j =>
      obtain ⟨t, hj, he⟩ := (indexAt?_eq_some_iff h).1 ht
      constructor
      · intro hi; exact ⟨j, t, hj, he, (Except.ok.inj hi).symm⟩
      · rintro ⟨j', t', hj', he', rfl⟩
        have : t' = t := by omega
        rw [hj'.index_unique (this ▸ hj)]

theorem resolveBranch_error {offsets : List Nat} {p : Nat} {i : Instruction} {e : DecodeError}
    (h : resolveBranch offsets (p, i) = .error e) :
    i.op.isBranch = true ∧ e = .badBranch i.op p (p + i.a.toInt) ∧
      indexAt? offsets (p + i.a.toInt) = none := by
  rw [resolveBranch_eq] at h
  split at h
  · rename_i hb
    split at h
    · cases h
    · rename_i hn; exact ⟨hb, (Except.error.inj h).symm, hn⟩
  · cases h

theorem decode_eq (b : Bytes) : decode b = scan 0 b >>= fun items =>
    items.mapM (resolveBranch (offsetsOf b items)) := rfl

theorem Listed.decode {b : Bytes} {items : List (Nat × Instruction)} (h : Listed b 0 items) :
    Code.decode b = items.mapM (resolveBranch (offsetsOf b items)) := by
  have hs : Code.scan 0 b = .ok items := h.scan
  rw [decode_eq, hs]
  rfl

theorem Decoded.of_resolved {b : Bytes} {items : List (Nat × Instruction)}
    {code : List Instruction} (h : Listed b 0 items)
    (hf : List.Forall₂ (fun at_ i => resolveBranch (offsetsOf b items) at_ = .ok i) items code) :
    Decoded b code := by
  obtain ⟨hlen, hget⟩ := List.forall₂_iff_get.1 hf
  refine ⟨hlen ▸ h.complete, fun {k i} hi => ?_⟩
  obtain ⟨hk, rfl⟩ := List.getElem?_eq_some_iff.1 hi
  have hr := hget k (hlen ▸ hk) hk
  obtain ⟨⟨p, raw⟩, hat⟩ : ∃ at_, items[k]? = some at_ :=
    ⟨_, List.getElem?_eq_getElem (hlen ▸ hk)⟩
  obtain ⟨m, hm, rfl⟩ := h.reads hat
  rw [List.get_eq_getElem, List.get_eq_getElem, (List.getElem?_eq_some_iff.1 hat).2] at hr
  exact ⟨p, m, h.boundary hat, hm, (resolveBranch_ok_iff h).1 hr⟩

theorem Decoded.resolved {b : Bytes} {items : List (Nat × Instruction)}
    {code : List Instruction} (hd : Decoded b code) (h : Listed b 0 items)
    (hlen : items.length = code.length) :
    List.Forall₂ (fun at_ i => resolveBranch (offsetsOf b items) at_ = .ok i) items code := by
  refine List.forall₂_iff_get.2 ⟨hlen, fun k hk hk' => ?_⟩
  obtain ⟨p, m, hp, hm, hr⟩ := hd.instruction (List.getElem?_eq_getElem hk')
  obtain ⟨⟨q, raw⟩, hat⟩ : ∃ at_, items[k]? = some at_ := ⟨_, List.getElem?_eq_getElem hk⟩
  obtain ⟨n, hn, rfl⟩ := h.reads hat
  cases hp.unique (h.boundary hat)
  cases hm.unique hn
  rw [List.get_eq_getElem, List.get_eq_getElem, (List.getElem?_eq_some_iff.1 hat).2]
  exact (resolveBranch_ok_iff h).2 hr

/-- Decoding succeeds with exactly the code that the walk describes. -/
theorem decode_ok_iff {b : Bytes} {code : List Instruction} :
    decode b = .ok code ↔ Decoded b code := by
  constructor
  · intro hd
    rcases scan_spec b (Nat.zero_le _) with ⟨items, _, h⟩ | ⟨e, hs, _⟩
    · rw [h.decode] at hd
      exact .of_resolved h (mapM_ok_iff.1 hd)
    · rw [List.drop_zero] at hs
      rw [decode_eq, hs] at hd
      cases hd
  · intro hd
    obtain ⟨items, h, hlen⟩ := Walk.listed hd.complete
    rw [h.decode]
    exact mapM_ok_iff.2 (hd.resolved h hlen)

/-- What an error of decoding says of the bytes. -/
def DecodeError.Explains (b : Bytes) : DecodeError → Prop
  | .unknownOpcode op p => Reached b p ∧ b[p]? = some op.byte ∧ op.known = false
  | .truncated op p => Reached b p ∧ b[p]? = some op.byte ∧ op.known = true ∧
      b.length < p + op.size
  | .badBranch op p target => Reached b b.length ∧ Reached b p ∧ b[p]? = some op.byte ∧
      op.isBranch = true ∧ target = p + distanceAt b p ∧
      ∀ q : Nat, (q : Int) = target → ¬ Reached b q

theorem StuckFrom.explains {b : Bytes} {e : DecodeError} (h : StuckFrom b 0 e) :
    e.Explains b := by
  cases e with
  | unknownOpcode => exact h
  | truncated => exact h
  | badBranch => exact h.elim

theorem decode_error {b : Bytes} {e : DecodeError} (hd : decode b = .error e) :
    e.Explains b := by
  rcases scan_spec b (Nat.zero_le _) with ⟨items, _, h⟩ | ⟨e', hs, he⟩
  · rw [h.decode] at hd
    obtain ⟨⟨p, raw⟩, hmem, hr⟩ := mapM_error hd
    obtain ⟨k, hk⟩ := List.mem_iff_getElem?.1 hmem
    obtain ⟨m, hm, rfl⟩ := h.reads hk
    obtain ⟨hb, rfl, hn⟩ := resolveBranch_error hr
    have hop : (readAt b p m).op = m.opcode := op_instructionOf ..
    rw [hop] at hb ⊢
    rw [isBranch_opcode] at hb
    rw [a_readAt_branch hb] at hn ⊢
    refine ⟨⟨_, h.complete⟩, ⟨k, h.boundary hk⟩, hm.opcode, (isBranch_opcode m).trans hb, rfl, ?_⟩
    rintro q hq ⟨j, hj⟩
    rw [(indexAt?_eq_some_iff h).2 ⟨q, hj, hq⟩] at hn
    cases hn
  · rw [List.drop_zero] at hs
    rw [decode_eq, hs] at hd
    cases hd
    exact he.explains

theorem Resolved.eq_readAt {b : Bytes} {p : Nat} {m : Mnemonic} {i : Instruction}
    (h : Resolved b p m i) (hm : m.isBranch = false) : i = readAt b p m := by
  rwa [Resolved, hm, if_neg Bool.false_ne_true] at h

theorem readAt_eq_oneByte (b : Bytes) (p : Nat) {m : Mnemonic} (hm : m.operandBytes = 1) :
    readAt b p m = oneByte m (b.getD (p + 1) 0) := by
  rw [readAt, instructionOf, hm]
  rfl

theorem readAt_eq_twoBytes (b : Bytes) (p : Nat) {m : Mnemonic} (hm : m.operandBytes = 2) :
    readAt b p m = twoBytes m (b.getD (p + 1) 0) (b.getD (p + 2) 0) := by
  rw [readAt, instructionOf, hm]
  rfl

theorem toInt_ofInt_byte (x : UInt8) : (Int32.ofInt x.toNat).toInt = x.toNat := by
  have := x.toNat_lt
  exact Int32.toInt_ofInt_of_le (by omega) (by omega)

/-- The operand of a call is the index in the bytes. -/
theorem Resolved.call {b : Bytes} {p : Nat} {m : Mnemonic} {i : Instruction}
    (h : Resolved b p m i) (hm : m.isInvoke = true) :
    i.a = Int32.ofInt (unsigned16 (b.getD (p + 1) 0) (b.getD (p + 2) 0)) := by
  have hb : m.isBranch = false := by cases m <;> simp [Mnemonic.isInvoke] at hm <;> rfl
  have hn : m.operandBytes = 2 := by cases m <;> simp [Mnemonic.isInvoke] at hm <;> rfl
  rw [h.eq_readAt hb, readAt_eq_twoBytes b p hn]
  cases m <;> simp [Mnemonic.isInvoke] at hm <;> simp only [twoBytes]

theorem toInt_call {x y : UInt8} : (Int32.ofInt (unsigned16 x y)).toInt = unsigned16 x y := by
  have := unsigned16_lt x y
  exact Int32.toInt_ofInt_of_le (by omega) (by omega)

theorem Resolved.poolIndex {b : Bytes} {p : Nat} {m : Mnemonic} {i : Instruction}
    (h : Resolved b p m i) (hm : m.isInvoke = true) :
    i.poolIndex = UInt16.ofNat (unsigned16 (b.getD (p + 1) 0) (b.getD (p + 2) 0)) := by
  rw [Instruction.poolIndex, h.call hm, Int32.ofInt_eq_ofNat]
  apply UInt16.toNat_inj.1
  rw [UInt32.toNat_toUInt16]
  simp

/-! ## Laying out -/

def bytesAt (b : Bytes) (p : Nat) (m : Mnemonic) : Bytes :=
  m.byte :: [b.getD (p + 1) 0, b.getD (p + 2) 0].take m.operandBytes

theorem drop_eq_getD_cons {b : Bytes} {p : Nat} (h : p < b.length) :
    b.drop p = b.getD p 0 :: b.drop (p + 1) := by
  rw [List.drop_eq_getElem_cons h, List.getD_eq_getElem _ _ h]

theorem Reads.drop_eq {b : Bytes} {p : Nat} {m : Mnemonic} (h : Reads b p m) :
    b.drop p = bytesAt b p m ++ b.drop (p + 1 + m.operandBytes) := by
  obtain ⟨hp, hx⟩ := List.getElem?_eq_some_iff.1 h.opcode
  have hfit := h.fits
  rw [List.drop_eq_getElem_cons hp, hx, bytesAt, List.cons_append]
  congr 1
  rcases operandBytes_cases m with hn | hn | hn <;> rw [hn] at hfit ⊢
  · rfl
  · rw [drop_eq_getD_cons (by omega)]; rfl
  · rw [drop_eq_getD_cons (by omega), drop_eq_getD_cons (p := p + 1 + 1) (by omega)]; rfl

/-- A checked operand does not stop what comes after. -/
theorem checkOperand_bind_ok_iff {i : Instruction} {k : Nat} {v : Int32} {low high : Int}
    {next : Except EncodeError Bytes} {out : Bytes} :
    (checkOperand i k v low high >>= fun _ => next) = .ok out ↔
      (low ≤ v.toInt ∧ v.toInt ≤ high) ∧ next = .ok out := by
  simp only [checkOperand, Bool.or_eq_true, decide_eq_true_eq]
  split
  · constructor
    · intro h; cases h
    · intro h; omega
  · constructor
    · intro h; exact ⟨by omega, h⟩
    · intro h; exact h.2

theorem encodeOperands_instructionOf {m : Mnemonic} (hm : m.isBranch = false) (x y : UInt8)
    (offsets : Array Nat) (k : Nat) :
    encodeOperands offsets (instructionOf m x y) k = .ok ([x, y].take m.operandBytes) := by
  have hx := x.toNat_lt
  have h8 := signed8_range x
  have h8' := signed8_range y
  have h16 := signed16_range x y
  have hu := unsigned16_lt x y
  have t8 : (Int32.ofInt (signed8 x)).toInt = signed8 x :=
    Int32.toInt_ofInt_of_le (by omega) (by omega)
  have t8' : (Int32.ofInt (signed8 y)).toInt = signed8 y :=
    Int32.toInt_ofInt_of_le (by omega) (by omega)
  have t16 : (Int32.ofInt (signed16 x y)).toInt = signed16 x y :=
    Int32.toInt_ofInt_of_le (by omega) (by omega)
  have tu : (Int32.ofInt (unsigned16 x y)).toInt = unsigned16 x y :=
    Int32.toInt_ofInt_of_le (by omega) (by omega)
  have tn : (Int32.ofInt x.toNat).toInt = x.toNat :=
    Int32.toInt_ofInt_of_le (by omega) (by omega)
  unfold encodeOperands
  rw [op_instructionOf, Mnemonic.mnemonic?_opcode]
  unfold instructionOf oneByte twoBytes
  cases m <;> simp only [Mnemonic.isBranch, Bool.true_eq_false] at hm <;>
    simp only [Mnemonic.operandBytes, if_true, reduceCtorEq, if_false, t8, t8', t16, tu, tn]
  case bipush => exact checkOperand_bind_ok_iff.2 ⟨by omega, by rw [byteOf_signed8]; rfl⟩
  case sipush => exact checkOperand_bind_ok_iff.2 ⟨by omega, by rw [bytesOf16_signed16]; rfl⟩
  case iload | istore =>
    exact checkOperand_bind_ok_iff.2 ⟨by omega, by rw [byteOf_toNat]; rfl⟩
  case iinc =>
    refine checkOperand_bind_ok_iff.2 ⟨by omega, checkOperand_bind_ok_iff.2 ⟨by omega, ?_⟩⟩
    rw [byteOf_toNat, byteOf_signed8]; rfl
  case invokespecial | invokestatic =>
    exact checkOperand_bind_ok_iff.2 ⟨by omega, by rw [bytesOf16_unsigned16]; rfl⟩
  all_goals rfl

theorem opcode_inj {m n : Mnemonic} (h : m.opcode = n.opcode) : m = n := by
  have := congrArg Opcode.mnemonic? h
  rwa [Mnemonic.mnemonic?_opcode, Mnemonic.mnemonic?_opcode, Option.some.injEq] at this

theorem known_iff {op : Opcode} : op.known = true ↔ ∃ m : Mnemonic, op = m.opcode := by
  rw [Opcode.known, Option.isSome_iff_exists]
  constructor
  · rintro ⟨m, hm⟩
    exact ⟨m, congrArg Opcode.mk (byte_of_ofByte? hm)⟩
  · rintro ⟨m, rfl⟩
    exact ⟨m, Mnemonic.mnemonic?_opcode m⟩

theorem canonical_eq {i : Instruction} {m : Mnemonic} (h : i.op = m.opcode) :
    i.canonical =
      ⟨m.opcode, if m.operandBytes = 0 then 0 else i.a, if m = .iinc then i.b else 0⟩ := by
  have hn : i.op.operandBytes = m.operandBytes := by
    rw [h, Opcode.operandBytes, Mnemonic.mnemonic?_opcode]; rfl
  have hi : i.op = Mnemonic.iinc.opcode ↔ m = .iinc :=
    ⟨fun e => opcode_inj (h.symm.trans e), fun e => e ▸ h⟩
  have hb : (if i.op = Mnemonic.iinc.opcode then i.b else 0) = if m = .iinc then i.b else 0 :=
    if_congr hi rfl rfl
  rw [Instruction.canonical, hb, hn, h]

/-- Operand bytes that were laid out are read back. -/
theorem instructionOf_encodeOperands {i : Instruction} {m : Mnemonic} (hop : i.op = m.opcode)
    (hm : m.isBranch = false) {offsets : Array Nat} {k : Nat} {out : Bytes}
    (h : encodeOperands offsets i k = .ok out) :
    out.length = m.operandBytes ∧ instructionOf m (out.getD 0 0) (out.getD 1 0) = i.canonical := by
  unfold encodeOperands at h
  rw [hop, Mnemonic.mnemonic?_opcode] at h
  rw [canonical_eq hop]
  unfold instructionOf oneByte twoBytes
  cases m <;> simp only [Mnemonic.isBranch, Bool.true_eq_false] at hm <;> simp only at h
  case bipush =>
    obtain ⟨hr, h⟩ := checkOperand_bind_ok_iff.1 h
    cases h
    simp [Mnemonic.operandBytes, signed8_byteOf hr]
  case iinc =>
    obtain ⟨hr, h⟩ := checkOperand_bind_ok_iff.1 h
    obtain ⟨hr', h⟩ := checkOperand_bind_ok_iff.1 h
    cases h
    simp [Mnemonic.operandBytes, unsigned8_byteOf hr, signed8_byteOf hr']
  case sipush =>
    obtain ⟨hr, h⟩ := checkOperand_bind_ok_iff.1 h
    cases h
    simp [Mnemonic.operandBytes, bytesOf16, signed16_byteOf hr]
  case iload | istore =>
    obtain ⟨hr, h⟩ := checkOperand_bind_ok_iff.1 h
    cases h
    simp [Mnemonic.operandBytes, unsigned8_byteOf hr]
  case invokespecial | invokestatic =>
    obtain ⟨hr, h⟩ := checkOperand_bind_ok_iff.1 h
    cases h
    simp [Mnemonic.operandBytes, bytesOf16, unsigned16_byteOf hr]
  all_goals
    cases h
    exact ⟨rfl, rfl⟩

theorem encodeOperands_branch {i : Instruction} {m : Mnemonic} (hop : i.op = m.opcode)
    (hm : m.isBranch = true) (offsets : Array Nat) (k : Nat) :
    encodeOperands offsets i k = encodeBranch offsets i k := by
  unfold encodeOperands
  rw [hop, Mnemonic.mnemonic?_opcode]
  cases m <;> simp [Mnemonic.isBranch] at hm <;> rfl

theorem encodeBranch_ok_iff {offsets : Array Nat} {i : Instruction} {k : Nat} {out : Bytes} :
    encodeBranch offsets i k = .ok out ↔ ∃ j t p : Nat, i.a.toInt = j ∧ offsets[j]? = some t ∧
      offsets[k]? = some p ∧ (-32768 ≤ (t : Int) - p ∧ (t : Int) - p ≤ 32767) ∧
      out = bytesOf16 (t - p) := by
  unfold encodeBranch
  constructor
  · intro h
    dsimp only at h
    split at h
    · cases h
    · split at h
      · rename_i t p ht hp
        simp only [Bool.or_eq_true, decide_eq_true_eq] at h
        split at h
        · cases h
        · exact ⟨_, t, p, by omega, ht, hp, by omega, (Except.ok.inj h).symm⟩
      · cases h
  · rintro ⟨j, t, p, ha, ht, hp, hd, rfl⟩
    rw [ha, if_neg (by omega), Int.toNat_natCast]
    simp only [ht, hp, Bool.or_eq_true, decide_eq_true_eq]
    rw [if_neg (by omega)]

/-- `code`, whose first instruction has index `k`, is laid out in `b` from byte `p` to the end. -/
inductive LaidOut (offsets : Array Nat) (b : Bytes) : Nat → Nat → List Instruction → Prop where
  | done (k : Nat) : LaidOut offsets b k b.length []
  | cons {k p : Nat} {i : Instruction} {m : Mnemonic} {out : Bytes} {rest : List Instruction} :
      i.op = m.opcode → encodeOperands offsets i k = .ok out → Reads b p m →
      bytesAt b p m = m.byte :: out → LaidOut offsets b (k + 1) (p + 1 + m.operandBytes) rest →
      LaidOut offsets b k p (i :: rest)

theorem encodeAt_ok_iff {offsets : Array Nat} {i : Instruction} {k : Nat} {part : Bytes} :
    encodeAt offsets (i, k) = .ok part ↔
      ∃ out, encodeOperands offsets i k = .ok out ∧ part = i.op.byte :: out := by
  cases h : encodeOperands offsets i k <;>
    simp [encodeAt, h, bind, Except.bind, pure, Except.pure, eq_comm]

theorem length_encodeOperands {i : Instruction} {m : Mnemonic} (hop : i.op = m.opcode)
    {offsets : Array Nat} {k : Nat} {out : Bytes} (h : encodeOperands offsets i k = .ok out) :
    out.length = m.operandBytes := by
  cases hm : m.isBranch with
  | false => exact (instructionOf_encodeOperands hop hm h).1
  | true =>
    rw [encodeOperands_branch hop hm] at h
    obtain ⟨_, _, _, _, _, _, _, rfl⟩ := encodeBranch_ok_iff.1 h
    cases m <;> simp [Mnemonic.isBranch] at hm <;> rfl

theorem LaidOut.known {offsets : Array Nat} {b : Bytes} {k p : Nat} {code : List Instruction}
    (h : LaidOut offsets b k p code) : ∀ i ∈ code, i.op.known = true := by
  induction h with
  | done => simp
  | cons hop _ _ _ _ ih =>
    intro i hi
    rcases List.mem_cons.1 hi with rfl | hi
    · exact known_iff.2 ⟨_, hop⟩
    · exact ih i hi

/-- The offsets of the layout are the boundaries of the walk. -/
theorem LaidOut.walk_iff {offsets : Array Nat} {b : Bytes} {k p : Nat} {code : List Instruction}
    (h : LaidOut offsets b k p code) (n q : Nat) :
    Walk b p n q ↔ (offsetsFrom p code)[n]? = some q := by
  induction h generalizing n with
  | done k =>
    constructor
    · intro hw
      cases hw with
      | stay => rfl
      | step hr _ => have := hr.fits; omega
    · intro hn
      cases n with
      | zero => cases Option.some.inj hn; exact .stay _
      | succ n => simp [offsetsFrom] at hn
  | @cons k p i m out rest hop _ hr _ _ ih =>
    cases n with
    | zero =>
      constructor
      · intro hw; cases hw; rfl
      · intro hn; cases Option.some.inj hn; exact .stay _
    | succ n =>
      have hoff : (offsetsFrom p (i :: rest))[n + 1]? =
          (offsetsFrom (p + 1 + m.operandBytes) rest)[n]? := by
        rw [offsetsFrom, hop, size_opcode, List.getElem?_cons_succ, Nat.add_assoc]
      rw [hoff, ← ih]
      constructor
      · intro hw
        cases hw with
        | step hr' hw => rw [hr.unique hr']; exact hw
      · exact .step hr

/-- Each instruction stands in the bytes with its operands. -/
theorem LaidOut.get {offsets : Array Nat} {b : Bytes} {k p : Nat} {code : List Instruction}
    (h : LaidOut offsets b k p code) {n : Nat} {i : Instruction} (hi : code[n]? = some i) :
    ∃ q m out, Walk b p n q ∧ i.op = m.opcode ∧ encodeOperands offsets i (k + n) = .ok out ∧
      Reads b q m ∧ bytesAt b q m = m.byte :: out := by
  induction h generalizing n with
  | done => simp at hi
  | @cons k p j m out rest hop ho hr hb _ ih =>
    cases n with
    | zero =>
      cases Option.some.inj hi
      exact ⟨p, m, out, .stay p, hop, ho, hr, hb⟩
    | succ n =>
      obtain ⟨q, m', out', hw, hop', ho', hr', hb'⟩ := ih hi
      rw [Nat.add_assoc, Nat.add_comm 1 n] at ho'
      exact ⟨q, m', out', .step hr hw, hop', ho', hr', hb'⟩

theorem LaidOut.complete {offsets : Array Nat} {b : Bytes} {k p : Nat} {code : List Instruction}
    (h : LaidOut offsets b k p code) : Walk b p code.length b.length := by
  induction h with
  | done => exact .stay _
  | cons _ _ hr _ _ ih => exact .step hr ih

theorem LaidOut.of_get {offsets : Array Nat} {b : Bytes} {k p : Nat} {code : List Instruction}
    (hend : Walk b p code.length b.length)
    (h : ∀ {n : Nat} {i : Instruction}, code[n]? = some i → ∃ q m out, Walk b p n q ∧
      i.op = m.opcode ∧ encodeOperands offsets i (k + n) = .ok out ∧ Reads b q m ∧
      bytesAt b q m = m.byte :: out) : LaidOut offsets b k p code := by
  induction code generalizing k p with
  | nil => cases hend; exact .done k
  | cons i rest ih =>
    obtain ⟨q, m, out, hw, hop, ho, hr, hb⟩ := h (n := 0) rfl
    cases hw
    cases hend with
    | step hr' hend =>
      cases hr.unique hr'
      refine .cons hop ho hr hb (ih hend fun {n j} hj => ?_)
      obtain ⟨q, m', out', hw, hop', ho', hr', hb'⟩ := h (n := n + 1) hj
      cases hw with
      | step hr'' hw =>
        cases hr.unique hr''
        rw [Nat.add_comm n 1, ← Nat.add_assoc] at ho'
        exact ⟨q, m', out', hw, hop', ho', hr', hb'⟩

theorem LaidOut.parts {offsets : Array Nat} {b : Bytes} {k p : Nat} {code : List Instruction}
    (h : LaidOut offsets b k p code) :
    ∃ parts, (code.zipIdx k).mapM (encodeAt offsets) = .ok parts ∧ parts.flatten = b.drop p := by
  induction h with
  | done k => exact ⟨[], rfl, by simp⟩
  | @cons k p i m out rest hop ho hr hb _ ih =>
    obtain ⟨parts, hp, hflat⟩ := ih
    refine ⟨(i.op.byte :: out) :: parts, ?_, ?_⟩
    · rw [List.zipIdx_cons]
      exact mapM_ok_iff.2 (.cons (encodeAt_ok_iff.2 ⟨out, ho, rfl⟩) (mapM_ok_iff.1 hp))
    · rw [List.flatten_cons, hflat, hr.drop_eq, hb, hop]
      rfl

theorem LaidOut.of_parts {offsets : Array Nat} {b : Bytes} {k p : Nat} {code : List Instruction}
    {parts : List Bytes} (hknown : ∀ i ∈ code, i.op.known = true)
    (hm : (code.zipIdx k).mapM (encodeAt offsets) = .ok parts) (hp : p ≤ b.length)
    (hflat : parts.flatten = b.drop p) : LaidOut offsets b k p code := by
  induction code generalizing k p parts with
  | nil =>
    cases hm
    have hle : b.length ≤ p := List.drop_eq_nil_iff.1 hflat.symm
    exact Nat.le_antisymm hp hle ▸ .done k
  | cons i rest ih =>
    rw [List.zipIdx_cons, mapM_ok_iff] at hm
    obtain ⟨part, parts, hpart, hrest, rfl⟩ := List.forall₂_cons_left_iff.1 hm
    obtain ⟨out, ho, rfl⟩ := encodeAt_ok_iff.1 hpart
    obtain ⟨m, hop⟩ := known_iff.1 (hknown i List.mem_cons_self)
    have hlen := length_encodeOperands hop ho
    rw [List.flatten_cons, hop] at hflat
    have hr : Reads b p m := by
      constructor
      · have h0 : (b.drop p)[0]? = some m.opcode.byte := by rw [← hflat]; rfl
        rwa [List.getElem?_drop, Nat.add_zero] at h0
      · have := congrArg List.length hflat
        simp only [List.length_append, List.length_cons, hlen, List.length_drop] at this
        omega
    have hb : bytesAt b p m ++ b.drop (p + 1 + m.operandBytes) = (m.byte :: out) ++ parts.flatten :=
      hr.drop_eq.symm.trans hflat.symm
    obtain ⟨hb, htail⟩ := List.append_inj hb (by
      simp only [bytesAt, List.length_cons, hlen, List.length_take, List.length_nil]
      rcases operandBytes_cases m with h | h | h <;> omega)
    exact .cons hop ho hr hb
      (ih (fun i hi => hknown i (List.mem_cons_of_mem _ hi)) (mapM_ok_iff.2 hrest) hr.fits
        htail.symm)

theorem firstUnknown?_eq_none_iff {code : List Instruction} :
    firstUnknown? code = none ↔ ∀ i ∈ code, i.op.known = true := by
  simp only [firstUnknown?, List.find?_eq_none, Bool.not_eq_true, Bool.not_eq_false']
  constructor
  · intro h i hi
    obtain ⟨k, hk⟩ := List.mem_iff_getElem?.1 hi
    exact h (i, k) (List.mk_mem_zipIdx_iff_getElem?.2 hk)
  · intro h x hx
    exact h x.1 (List.fst_mem_of_mem_zipIdx hx)

theorem encode_eq (code : List Instruction) : encode code =
    match firstUnknown? code with
    | some (i, k) => .error (.unknownOpcode i.op k)
    | none => (code.zipIdx.mapM (encodeAt (offsetsFrom 0 code).toArray)).map List.flatten := rfl

/-- Encoding succeeds with exactly the bytes that the code is laid out in. -/
theorem encode_ok_iff {code : List Instruction} {b : Bytes} :
    encode code = .ok b ↔ LaidOut (offsetsFrom 0 code).toArray b 0 0 code := by
  rw [encode_eq]
  constructor
  · intro h
    split at h
    · cases h
    · rename_i hnone
      cases hm : code.zipIdx.mapM (encodeAt (offsetsFrom 0 code).toArray) with
      | error e => rw [hm] at h; cases h
      | ok parts =>
        rw [hm] at h
        exact .of_parts (firstUnknown?_eq_none_iff.1 hnone) hm (Nat.zero_le _) (Except.ok.inj h)
  · intro h
    obtain ⟨parts, hm, hflat⟩ := h.parts
    rw [firstUnknown?_eq_none_iff.2 h.known, hm]
    exact congrArg Except.ok hflat

/-! ## Round trips -/

theorem length_offsetsFrom (o : Nat) (code : List Instruction) :
    (offsetsFrom o code).length = code.length + 1 := by
  induction code generalizing o with
  | nil => rfl
  | cons i rest ih => rw [offsetsFrom, List.length_cons, ih, List.length_cons]

theorem offsetsFrom_succ {o k p : Nat} {code : List Instruction} {i : Instruction}
    (hi : code[k]? = some i) (hp : (offsetsFrom o code)[k]? = some p) :
    (offsetsFrom o code)[k + 1]? = some (p + i.op.size) := by
  induction code generalizing o k with
  | nil => cases hi
  | cons j rest ih =>
    rw [offsetsFrom, List.getElem?_cons_succ]
    cases k with
    | zero =>
      cases Option.some.inj hi
      cases Option.some.inj hp
      cases rest <;> rfl
    | succ k => exact ih hi hp

theorem getElem?_zero_offsetsFrom (o : Nat) (code : List Instruction) :
    (offsetsFrom o code)[0]? = some o := by
  cases code <;> rfl

theorem Decoded.boundary_of_offset {b : Bytes} {code : List Instruction} (h : Decoded b code)
    {k p : Nat} (hk : (offsetsFrom 0 code)[k]? = some p) : Boundary b k p := by
  induction k generalizing p with
  | zero =>
    rw [getElem?_zero_offsetsFrom] at hk
    cases hk
    exact .start b
  | succ k ih =>
    have hlt := (List.getElem?_eq_some_iff.1 hk).1
    rw [length_offsetsFrom] at hlt
    have hlt' : k < (offsetsFrom 0 code).length := by rw [length_offsetsFrom]; omega
    have hi : code[k]? = some code[k] := List.getElem?_eq_getElem (by omega)
    have hq := List.getElem?_eq_getElem hlt'
    obtain ⟨q, m, hb, hr, hres⟩ := h.instruction hi
    cases hb.unique (ih hq)
    rw [offsetsFrom_succ hi hq, hres.op, size_opcode, ← Nat.add_assoc] at hk
    cases hk
    exact hb.next hr

theorem Decoded.boundary_iff {b : Bytes} {code : List Instruction} (h : Decoded b code)
    {k p : Nat} : Boundary b k p ↔ (offsetsFrom 0 code)[k]? = some p := by
  refine ⟨fun hb => ?_, h.boundary_of_offset⟩
  have hk := h.complete.index_le_of_complete hb
  have hq := List.getElem?_eq_getElem (l := offsetsFrom 0 code) (i := k)
    (by rw [length_offsetsFrom]; omega)
  rw [hq, hb.unique (h.boundary_of_offset hq)]

/-- Decoded code is laid out in the bytes it was decoded from. -/
theorem Decoded.laidOut {b : Bytes} {code : List Instruction} (h : Decoded b code)
    (short : ∀ k p, Boundary b k p → k < 2 ^ 31) :
    LaidOut (offsetsFrom 0 code).toArray b 0 0 code := by
  refine .of_get h.complete fun {k i} hi => ?_
  obtain ⟨p, m, hp, hr, hres⟩ := h.instruction hi
  refine ⟨p, m, [b.getD (p + 1) 0, b.getD (p + 2) 0].take m.operandBytes, hp, hres.op, ?_, hr, rfl⟩
  rw [Nat.zero_add]
  cases hm : m.isBranch with
  | false =>
    rw [Resolved, hm] at hres
    rw [hres]
    exact encodeOperands_instructionOf hm ..
  | true =>
    rw [encodeOperands_branch hres.op hm]
    rw [Resolved, if_pos hm] at hres
    obtain ⟨j, t, hj, ht, rfl⟩ := hres
    have hd := signed16_range (b.getD (p + 1) 0) (b.getD (p + 2) 0)
    have hdist : (t : Int) - p = distanceAt b p := by omega
    refine encodeBranch_ok_iff.2 ⟨j, t, p, Int32.toInt_ofNat_of_lt (short j t hj), ?_, ?_, ?_, ?_⟩
    · rw [List.getElem?_toArray, h.boundary_iff.1 hj]
    · rw [List.getElem?_toArray, h.boundary_iff.1 hp]
    · rw [hdist]; exact hd
    · rw [hdist, distanceAt, bytesOf16_signed16]
      cases m <;> simp [Mnemonic.isBranch] at hm <;> rfl

/-- Encoding gives back the bytes that were decoded. -/
theorem encode_decoded {b : Bytes} {code : List Instruction}
    (short : ∀ k p, Boundary b k p → k < 2 ^ 31) (h : decode b = .ok code) :
    encode code = .ok b :=
  encode_ok_iff.2 ((decode_ok_iff.1 h).laidOut short)

theorem instructionOf_take (m : Mnemonic) (x y : UInt8) :
    instructionOf m (([x, y].take m.operandBytes).getD 0 0)
      (([x, y].take m.operandBytes).getD 1 0) = instructionOf m x y := by
  rcases operandBytes_cases m with h | h | h <;> simp [instructionOf, h]

theorem operandBytes_branch {m : Mnemonic} (hm : m.isBranch = true) : m.operandBytes = 2 := by
  cases m <;> simp [Mnemonic.isBranch] at hm <;> rfl

theorem LaidOut.decoded {b : Bytes} {code : List Instruction}
    (h : LaidOut (offsetsFrom 0 code).toArray b 0 0 code) :
    Decoded b (code.map Instruction.canonical) := by
  refine ⟨by rw [List.length_map]; exact h.complete, fun {k i} hi => ?_⟩
  rw [List.getElem?_map, Option.map_eq_some_iff] at hi
  obtain ⟨i, hi, rfl⟩ := hi
  obtain ⟨p, m, out, hw, hop, ho, hr, hb⟩ := h.get hi
  refine ⟨p, m, hw, hr, ?_⟩
  rw [Nat.zero_add] at ho
  have hout : out = [b.getD (p + 1) 0, b.getD (p + 2) 0].take m.operandBytes :=
    (List.cons.inj hb).2.symm
  cases hm : m.isBranch with
  | false =>
    have hc := (instructionOf_encodeOperands hop hm ho).2
    rw [hout, instructionOf_take] at hc
    rw [Resolved, hm, if_neg Bool.false_ne_true]
    exact hc.symm
  | true =>
    rw [Resolved, if_pos hm]
    rw [encodeOperands_branch hop hm] at ho
    obtain ⟨j, t, q, ha, ht, hq, hd, hbytes⟩ := encodeBranch_ok_iff.1 ho
    rw [List.getElem?_toArray, ← h.walk_iff] at ht hq
    cases hw.unique hq
    rw [hout, operandBytes_branch hm] at hbytes
    obtain ⟨hx, hy⟩ : b.getD (p + 1) 0 = byteOf (((t : Int) - p) / 256) ∧
        b.getD (p + 2) 0 = byteOf ((t : Int) - p) := by
      simpa [bytesOf16] using hbytes
    have hdist : distanceAt b p = (t : Int) - p := by
      rw [distanceAt, hx, hy, signed16_byteOf hd]
    refine ⟨j, t, ht, by omega, ?_⟩
    have hi : m ≠ .iinc := by rintro rfl; cases hm
    have ha' : i.a = Int32.ofNat j := by rw [← Int32.ofInt_toInt i.a, ha, Int32.ofInt_eq_ofNat]
    rw [canonical_eq hop, operandBytes_branch hm, if_neg (by decide), if_neg hi, ha']

/-- Decoding gives back the code that was encoded, with unused operands cleared. -/
theorem decode_encoded {b : Bytes} {code : List Instruction} (h : encode code = .ok b) :
    decode b = .ok (code.map Instruction.canonical) :=
  decode_ok_iff.2 (encode_ok_iff.1 h).decoded

/-- Encoding undoes decoding, decoding accepts exactly the bytes that some code encodes to, and
an error of decoding tells where the walk stops or which branch has no target. -/
theorem decode_inverse {b : Bytes} (short : ∀ k p, Boundary b k p → k < 2 ^ 31) :
    (∀ code, decode b = .ok code → encode code = .ok b) ∧
    ((∃ code, decode b = .ok code) ↔ ∃ code, encode code = .ok b) ∧
    ∀ e, decode b = .error e → e.Explains b := by
  refine ⟨fun code => encode_decoded short, ⟨?_, ?_⟩, fun e => decode_error⟩
  · rintro ⟨code, h⟩
    exact ⟨code, encode_decoded short h⟩
  · rintro ⟨code, h⟩
    exact ⟨_, decode_encoded h⟩

theorem short_of_length {b : Bytes} (h : b.length < 2 ^ 31) {k p : Nat} (hb : Boundary b k p) :
    k < 2 ^ 31 := by
  have := hb.index_le
  have := hb.le_length
  omega

/-- A loop that jumps backward over an `iinc`. -/
def backwardLoop : Bytes := [0x84, 0, 1, 0xA7, 0xFF, 0xFD]

theorem decode_inverse_backwardLoop :
    (∀ k p, Boundary backwardLoop k p → k < 2 ^ 31) ∧
    decode backwardLoop = .ok [.iinc 0 1, .goto 0] ∧
    encode [.iinc 0 1, .goto 0] = .ok backwardLoop := by
  have short : ∀ k p, Boundary backwardLoop k p → k < 2 ^ 31 :=
    fun k p => short_of_length (by decide)
  have hd : decode backwardLoop = .ok [.iinc 0 1, .goto 0] := by decide +kernel
  exact ⟨short, hd, (decode_inverse short).1 _ hd⟩

end Code

end MiniJvm
