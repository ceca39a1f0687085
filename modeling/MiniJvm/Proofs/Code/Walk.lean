import Mathlib
import MiniJvm.Code.Encoding

/-!
# The walk over code bytes

`Walk b p k q`: reading `k` whole instructions of `b` from byte `p` on leads to byte `q`.
`Boundary b k p` is the walk from the first byte: instruction `k` starts at byte `p`, or the
code ends there. `scan` lists the instructions of the walk when it comes to the end of the code,
and otherwise tells where it got stuck.
-/

namespace MiniJvm.Code

theorem byte_of_ofByte? {x : UInt8} {m : Mnemonic} (h : Mnemonic.ofByte? x = some m) :
    x = m.byte := by
  unfold Mnemonic.ofByte? at h
  split at h <;> cases h <;> rfl

/-- The instruction that `m` makes of the two bytes after its opcode. -/
def instructionOf (m : Mnemonic) (x y : UInt8) : Instruction :=
  match m.operandBytes with
  | 0 => .plain m
  | 1 => oneByte m x
  | _ => twoBytes m x y

@[simp] theorem op_instructionOf (m : Mnemonic) (x y : UInt8) :
    (instructionOf m x y).op = m.opcode := by
  cases m <;> rfl

/-- A whole instruction `m` stands at byte `p`. -/
structure Reads (b : Bytes) (p : Nat) (m : Mnemonic) : Prop where
  opcode : b[p]? = some m.byte
  fits : p + 1 + m.operandBytes ≤ b.length

theorem Reads.unique {b : Bytes} {p : Nat} {m n : Mnemonic} (hm : Reads b p m)
    (hn : Reads b p n) : m = n := by
  have h := hm.opcode.symm.trans hn.opcode
  have := congrArg Mnemonic.ofByte? (Option.some.inj h)
  rwa [Mnemonic.ofByte?_byte, Mnemonic.ofByte?_byte, Option.some.injEq] at this

/-- The instruction that stands at byte `p` when it is an `m`. -/
def readAt (b : Bytes) (p : Nat) (m : Mnemonic) : Instruction :=
  instructionOf m (b.getD (p + 1) 0) (b.getD (p + 2) 0)

inductive Walk (b : Bytes) : Nat → Nat → Nat → Prop where
  | stay (p : Nat) : Walk b p 0 p
  | step {p k q : Nat} {m : Mnemonic} : Reads b p m → Walk b (p + 1 + m.operandBytes) k q →
      Walk b p (k + 1) q

/-- Instruction `k` of `b` starts at byte `p`; after the last one comes the end. -/
def Boundary (b : Bytes) (k p : Nat) : Prop := Walk b 0 k p

theorem Walk.trans {b : Bytes} {p q r j k : Nat} (h : Walk b p j q) (h' : Walk b q k r) :
    Walk b p (j + k) r := by
  induction h with
  | stay => simpa using h'
  | step hr _ ih => rw [Nat.add_right_comm]; exact .step hr (ih h')

theorem Walk.unique {b : Bytes} {p k q r : Nat} (h : Walk b p k q) (h' : Walk b p k r) :
    q = r := by
  induction h with
  | stay => cases h'; rfl
  | step hr _ ih =>
    cases h' with
    | step hr' h' => exact ih (hr.unique hr' ▸ h')

theorem Walk.le {b : Bytes} {p k q : Nat} (h : Walk b p k q) : p + k ≤ q := by
  induction h with
  | stay => exact Nat.le_refl _
  | step _ _ ih => omega

theorem Walk.index_unique {b : Bytes} {p j k q : Nat} (h : Walk b p j q) (h' : Walk b p k q) :
    j = k := by
  induction h generalizing k with
  | stay =>
    cases h' with
    | stay => rfl
    | step _ h' => have := h'.le; omega
  | step hr h ih =>
    cases h' with
    | stay => have := h.le; omega
    | step hr' h' => rw [ih (hr.unique hr' ▸ h')]

theorem Walk.le_length {b : Bytes} {p k q : Nat} (h : Walk b p k q) (hp : p ≤ b.length) :
    q ≤ b.length := by
  induction h with
  | stay => exact hp
  | step hr _ ih => exact ih hr.fits

theorem Boundary.start (b : Bytes) : Boundary b 0 0 := .stay 0

theorem Boundary.next {b : Bytes} {k p : Nat} {m : Mnemonic} (h : Boundary b k p)
    (hr : Reads b p m) : Boundary b (k + 1) (p + 1 + m.operandBytes) :=
  h.trans (.step hr (.stay _))

theorem Boundary.le_length {b : Bytes} {k p : Nat} (h : Boundary b k p) : p ≤ b.length :=
  Walk.le_length h (Nat.zero_le _)

theorem Boundary.index_le {b : Bytes} {k p : Nat} (h : Boundary b k p) : k ≤ p := by
  have := Walk.le h
  omega

/-- The walk comes to byte `p`. -/
def Reached (b : Bytes) (p : Nat) : Prop := ∃ k, Boundary b k p

/-! ## Scanning -/

theorem operandBytes_cases (m : Mnemonic) :
    m.operandBytes = 0 ∨ m.operandBytes = 1 ∨ m.operandBytes = 2 := by
  cases m <;> simp [Mnemonic.operandBytes]

theorem map_eq_map {ε α β : Type} (f : α → β) (x : Except ε α) : f <$> x = x.map f := rfl

/-- One instruction of a scan. -/
theorem scan_cons (o : Nat) (m : Mnemonic) (rest : Bytes) :
    scan o (m.byte :: rest) =
      if rest.length < m.operandBytes then .error (.truncated m.opcode o)
      else (scan (o + 1 + m.operandBytes) (rest.drop m.operandBytes)).map
        ((o, instructionOf m (rest.getD 0 0) (rest.getD 1 0)) :: ·) := by
  rw [scan, Mnemonic.ofByte?_byte]
  unfold instructionOf
  rcases operandBytes_cases m with h | h | h
  · simp [h, map_eq_map]
  · cases rest with
    | nil => simp [h, Mnemonic.opcode]
    | cons x rest => simp [h, map_eq_map, Nat.add_assoc]
  · match rest with
    | [] => simp [h, Mnemonic.opcode]
    | [x] => simp [h, Mnemonic.opcode]
    | x :: y :: rest => simp [h, map_eq_map, Nat.add_assoc]

theorem getD_drop_succ (b : Bytes) (p n : Nat) :
    (b.drop (p + 1)).getD n 0 = b.getD (p + 1 + n) 0 := by
  simp [List.getD_eq_getElem?_getD, List.getElem?_drop]

/-- A scan of what is left from byte `p` on. -/
theorem scan_drop {b : Bytes} {p : Nat} {m : Mnemonic} (hm : b[p]? = some m.byte) :
    scan p (b.drop p) =
      if b.length < p + 1 + m.operandBytes then .error (.truncated m.opcode p)
      else (scan (p + 1 + m.operandBytes) (b.drop (p + 1 + m.operandBytes))).map
        ((p, readAt b p m) :: ·) := by
  obtain ⟨hp, hx⟩ := List.getElem?_eq_some_iff.1 hm
  rw [List.drop_eq_getElem_cons hp, hx, scan_cons, List.drop_drop, getD_drop_succ, getD_drop_succ]
  have hlen : (b.drop (p + 1)).length < m.operandBytes ↔ b.length < p + 1 + m.operandBytes := by
    rw [List.length_drop]; omega
  simp only [hlen, readAt, Nat.add_zero, Nat.add_assoc, Nat.reduceAdd]

/-- `items` are the instructions of the walk from byte `p` to the end, with their offsets. -/
inductive Listed (b : Bytes) : Nat → List (Nat × Instruction) → Prop where
  | done : Listed b b.length []
  | cons {p : Nat} {m : Mnemonic} {items : List (Nat × Instruction)} : Reads b p m →
      Listed b (p + 1 + m.operandBytes) items → Listed b p ((p, readAt b p m) :: items)

/-- What an error of the walk says of the bytes from `p` on. -/
def StuckFrom (b : Bytes) (p : Nat) : DecodeError → Prop
  | .unknownOpcode op q => (∃ k, Walk b p k q) ∧ b[q]? = some op.byte ∧ op.known = false
  | .truncated op q => (∃ k, Walk b p k q) ∧ b[q]? = some op.byte ∧ op.known = true ∧
      b.length < q + op.size
  | .badBranch .. => False

theorem size_opcode (m : Mnemonic) : m.opcode.size = 1 + m.operandBytes := by
  cases m <;> rfl

theorem StuckFrom.step {b : Bytes} {p : Nat} {m : Mnemonic} {e : DecodeError}
    (hr : Reads b p m) (h : StuckFrom b (p + 1 + m.operandBytes) e) : StuckFrom b p e := by
  cases e with
  | unknownOpcode => obtain ⟨⟨k, hk⟩, h⟩ := h; exact ⟨⟨k + 1, .step hr hk⟩, h⟩
  | truncated => obtain ⟨⟨k, hk⟩, h⟩ := h; exact ⟨⟨k + 1, .step hr hk⟩, h⟩
  | badBranch => exact h

/-- A scan lists the walk to the end, or tells where the walk gets stuck. -/
theorem scan_spec (b : Bytes) {p : Nat} (hp : p ≤ b.length) :
    (∃ items, scan p (b.drop p) = .ok items ∧ Listed b p items) ∨
      ∃ e, scan p (b.drop p) = .error e ∧ StuckFrom b p e := by
  by_cases hend : p = b.length
  · subst hend
    exact .inl ⟨[], by simp [scan], .done⟩
  have hx : b[p]? = some b[p] := List.getElem?_eq_getElem (by omega)
  cases hm : Mnemonic.ofByte? b[p] with
  | none =>
    refine .inr ⟨.unknownOpcode ⟨b[p]⟩ p, ?_, ⟨0, .stay p⟩, hx, ?_⟩
    · rw [List.drop_eq_getElem_cons (by omega), scan, hm]
    · simp [Opcode.known, Opcode.mnemonic?, hm]
  | some m =>
    rw [byte_of_ofByte? hm] at hx
    rw [scan_drop hx]
    by_cases hfit : b.length < p + 1 + m.operandBytes
    · refine .inr ⟨.truncated m.opcode p, if_pos hfit, ⟨0, .stay p⟩, hx, ?_, ?_⟩
      · simp [Opcode.known]
      · rw [size_opcode]; omega
    · have hr : Reads b p m := ⟨hx, by omega⟩
      rw [if_neg hfit]
      rcases scan_spec b hr.fits with ⟨items, hs, hl⟩ | ⟨e, hs, he⟩
      · exact .inl ⟨_, by rw [hs]; rfl, .cons hr hl⟩
      · exact .inr ⟨e, by rw [hs]; rfl, he.step hr⟩
termination_by b.length - p

/-! ## Offsets -/

/-- The offsets of the instructions and of the end. -/
def offsetsOf (b : Bytes) (items : List (Nat × Instruction)) : List Nat :=
  items.map Prod.fst ++ [b.length]

/-- The offsets are exactly the boundaries of the walk. -/
theorem Listed.walk_iff {b : Bytes} {p : Nat} {items : List (Nat × Instruction)}
    (h : Listed b p items) (k q : Nat) : Walk b p k q ↔ (offsetsOf b items)[k]? = some q := by
  induction h generalizing k with
  | done =>
    constructor
    · intro hw
      cases hw with
      | stay => simp [offsetsOf]
      | step hr _ => have := hr.fits; omega
    · intro hk
      simp only [offsetsOf, List.map_nil, List.nil_append] at hk
      cases k with
      | zero => cases Option.some.inj hk; exact .stay _
      | succ k => simp at hk
  | @cons p m items hr hl ih =>
    cases k with
    | zero =>
      constructor
      · intro hw; cases hw; simp [offsetsOf]
      · intro hk
        simp only [offsetsOf, List.map_cons, List.cons_append, List.getElem?_cons_zero,
          Option.some.injEq] at hk
        subst hk; exact .stay _
    | succ k =>
      have hoff : (offsetsOf b ((p, readAt b p m) :: items))[k + 1]? = (offsetsOf b items)[k]? := by
        simp [offsetsOf]
      rw [hoff, ← ih]
      constructor
      · intro hw
        cases hw with
        | step hr' hw => rw [hr.unique hr']; exact hw
      · exact .step hr

/-- Each listed instruction is the one that stands at its offset. -/
theorem Listed.reads {b : Bytes} {p : Nat} {items : List (Nat × Instruction)}
    (h : Listed b p items) {k q : Nat} {i : Instruction} (hk : items[k]? = some (q, i)) :
    ∃ m, Reads b q m ∧ i = readAt b q m := by
  induction h generalizing k with
  | done => simp at hk
  | @cons p m items hr _ ih =>
    cases k with
    | zero =>
      simp only [List.getElem?_cons_zero, Option.some.injEq, Prod.mk.injEq] at hk
      obtain ⟨rfl, rfl⟩ := hk
      exact ⟨m, hr, rfl⟩
    | succ k => exact ih (by simpa using hk)

theorem Listed.boundary {b : Bytes} {items : List (Nat × Instruction)} (h : Listed b 0 items)
    {k p : Nat} {i : Instruction} (hk : items[k]? = some (p, i)) : Boundary b k p := by
  have hlt := (List.getElem?_eq_some_iff.1 hk).1
  refine (h.walk_iff k p).2 ?_
  rw [offsetsOf, List.getElem?_append_left (by simpa using hlt), List.getElem?_map, hk]
  rfl

theorem Listed.complete {b : Bytes} {items : List (Nat × Instruction)} (h : Listed b 0 items) :
    Boundary b items.length b.length :=
  (h.walk_iff _ _).2 (by simp [offsetsOf])

theorem Walk.listed {b : Bytes} {p n : Nat} (h : Walk b p n b.length) :
    ∃ items, Listed b p items ∧ items.length = n := by
  generalize hq : b.length = q at h
  induction h with
  | stay => exact ⟨[], hq ▸ .done, rfl⟩
  | step hr _ ih =>
    obtain ⟨items, hl, hn⟩ := ih hq
    exact ⟨_, .cons hr hl, by rw [List.length_cons, hn]⟩

theorem Boundary.index_le_of_complete {b : Bytes} {n k p : Nat} (hn : Boundary b n b.length)
    (h : Boundary b k p) : k ≤ n := by
  obtain ⟨items, hl, rfl⟩ := Walk.listed hn
  have hlt := (List.getElem?_eq_some_iff.1 ((hl.walk_iff k p).1 h)).1
  rw [offsetsOf, List.length_append, List.length_map, List.length_singleton] at hlt
  omega

end MiniJvm.Code
