import Mathlib
import MiniJvm.Proofs.Assembly.Translation
import MiniJvm.Proofs.Machine.Load

/-!
# Code and its labels

The code of a method has one instruction for each line with a mnemonic, in their order, with the
integers as they are written. A branch to a label goes to the first instruction from the label on,
or to the end of the code. Where a label or an operand makes no sense there is no code at all
(`generate_positioned`).
-/

namespace MiniJvm.Assembly

/-! ## What the code says -/

/-- Control at index `n` of the code of a body goes on with the first instruction from line `k` on,
or with the end of the code when none follows. -/
def GoesOnAt (body : List BodyLine) (k n : Nat) : Prop :=
  match (body.drop k).find? BodyLine.hasInstruction with
  | some line => (instructionLines body)[n]? = some line
  | none => n = (instructionLines body).length

theorem goesOnAt_position (body : List BodyLine) (k : Nat) :
    GoesOnAt body k (position body k) := by
  unfold GoesOnAt
  split
  · rename_i line hline
    rw [getElem?_position, hline]
  · rename_i hnone
    exact (position_eq_length_iff body k).2 hnone

/-- The operand `a` of a branch is the position of the label that is declared in line `k` and
nowhere else. An operand has 32 bits. -/
structure BranchesTo (body : List BodyLine) (label : Bytes) (k : Nat) (a : Int32) : Prop where
  declared : LabelAt body label k
  once : ∀ j, LabelAt body label j → j = k
  target : a = Int32.ofNat (position body k)
  index : position body k < 2 ^ 31 → a.toInt = position body k
  next : GoesOnAt body k (position body k)

/-- The instruction is what the line says. -/
structure Says (body : List BodyLine) (line : BodyLine) (i : Instruction) : Prop where
  mnemonic : ∃ m, Mnemonic.ofName? line.mnemonic = some m ∧ i.op = m.opcode
  first : i.op.isInvoke = false → ∀ {t v}, line.operands[0]? = some t → t.kind = .integer v →
    i.a.toInt = v
  second : ∀ {t v}, line.operands[1]? = some t → t.kind = .integer v → i.b.toInt = v
  branch : i.op.isBranch = true → ∃ t, line.operands = [t] ∧
    (¬t.IsInteger → ∃ k, BranchesTo body t.literal k i.a)

/-- What makes no sense in a body. -/
inductive Flawed (body : List BodyLine) : Prop where
  | duplicateLabel {label : Bytes} {j k : Nat} : LabelAt body label j → LabelAt body label k →
      j ≠ k → Flawed body
  | undefinedLabel {line : BodyLine} {m : Mnemonic} {t : Token} : line ∈ body →
      Mnemonic.ofName? line.mnemonic = some m → m.isBranch = true → t ∈ line.operands →
      ¬t.IsInteger → (∀ k, ¬LabelAt body t.literal k) → Flawed body
  | unknownMnemonic {line : BodyLine} : line ∈ body → line.mnemonic ≠ [] →
      Mnemonic.ofName? line.mnemonic = none → Flawed body
  | operandCount {line : BodyLine} {m : Mnemonic} : line ∈ body →
      Mnemonic.ofName? line.mnemonic = some m → line.operands.length ≠ operandCount m → Flawed body
  | outOfRange {line : BodyLine} {m : Mnemonic} {k : Nat} {t : Token} {v low high : Int} :
      line ∈ body → Mnemonic.ofName? line.mnemonic = some m → line.operands[k]? = some t →
      m.integerBounds[k]? = some (low, high) → t.kind = .integer v → v < low ∨ high < v →
      Flawed body

/-! ## Integers -/

theorem Reads.length_eq {bounds : List (Int × Int)} {ts : List Token} {vs : List Int}
    (h : Reads bounds ts vs) : ts.length = bounds.length ∧ vs.length = bounds.length := by
  induction h with
  | nil => exact ⟨rfl, rfl⟩
  | cons _ _ _ _ ih => exact ⟨congrArg (· + 1) ih.1, congrArg (· + 1) ih.2⟩

theorem Reads.get {bounds : List (Int × Int)} {ts : List Token} {vs : List Int}
    (h : Reads bounds ts vs) {k : Nat} {t : Token} (ht : ts[k]? = some t) :
    ∃ low high v, bounds[k]? = some (low, high) ∧ vs[k]? = some v ∧ t.kind = .integer v ∧
      low ≤ v ∧ v ≤ high := by
  induction h generalizing k with
  | nil => cases ht
  | cons hkind hlow hhigh _ ih =>
    cases k with
    | zero =>
      cases ht
      exact ⟨_, _, _, rfl, rfl, hkind, hlow, hhigh⟩
    | succ k => exact ih ht

/-- The bounds of integers are within the 32 bits of an operand. -/
theorem integerBounds_range {m : Mnemonic} {low high : Int}
    (h : (low, high) ∈ m.integerBounds) : -2147483648 ≤ low ∧ high ≤ 2147483647 := by
  have hall : ∀ m : Mnemonic, ∀ r ∈ m.integerBounds, -2147483648 ≤ r.1 ∧ r.2 ≤ 2147483647 := by
    intro m
    cases m <;> decide
  exact hall m _ h

theorem Reads.toInt_getD {m : Mnemonic} {ts : List Token} {vs : List Int}
    (h : Reads m.integerBounds ts vs) {k : Nat} {t : Token} {v : Int} (ht : ts[k]? = some t)
    (hv : t.kind = .integer v) : (Int32.ofInt (vs.getD k 0)).toInt = v := by
  obtain ⟨low, high, v', hbounds, hget, hkind, hlow, hhigh⟩ := h.get ht
  cases hkind.symm.trans hv
  have hrange := integerBounds_range (List.mem_of_getElem? hbounds)
  rw [List.getD_eq_getElem?_getD, hget, Option.getD_some,
    Int32.toInt_ofInt_of_le (by omega) (by omega)]

/-! ## Lines -/

section

variable {self : Bytes} {pool : Pool} {body : List BodyLine} {m : Mnemonic}
  {operands : List Token} {i : Instruction}

theorem Translates.op (h : Translates self pool body m operands i) : i.op = m.opcode := by
  cases h <;> rfl

theorem operandCount_eq (hm : m.isInvoke = false) :
    operandCount m = m.integerBounds.length := by
  cases m <;> first | rfl | cases hm

theorem Translates.length_operands (h : Translates self pool body m operands i) :
    operands.length = operandCount m := by
  cases h with
  | integers hm hreads => rw [hreads.length_eq.1, operandCount_eq hm]
  | label hm _ _ => cases m <;> first | rfl | cases hm
  | call hm _ _ => cases m <;> first | rfl | cases hm

theorem isInvoke_of_isBranch (hm : m.isBranch = true) : m.isInvoke = false := by
  cases m <;> first | rfl | cases hm

/-- A word in the place of a target is a label of the body. -/
theorem Translates.labelAt (h : Translates self pool body m operands i) (hm : m.isBranch = true)
    {t : Token} (ht : t ∈ operands) (hnot : ¬t.IsInteger) : ∃ k, LabelAt body t.literal k := by
  cases h with
  | integers _ hreads =>
    obtain ⟨k, hk⟩ := List.mem_iff_getElem?.1 ht
    obtain ⟨_, _, v, _, _, hv, _, _⟩ := hreads.get hk
    exact absurd ⟨v, hv⟩ hnot
  | label _ _ hlabel => exact ⟨_, List.mem_singleton.1 ht ▸ hlabel⟩
  | call hcall _ _ => cases (isInvoke_of_isBranch hm).symm.trans hcall

/-- An integer is within the bounds of its place. -/
theorem Translates.within (h : Translates self pool body m operands i) {k : Nat} {t : Token}
    {v low high : Int} (ht : operands[k]? = some t) (hv : t.kind = .integer v)
    (hbounds : m.integerBounds[k]? = some (low, high)) : low ≤ v ∧ v ≤ high := by
  cases h with
  | integers _ hreads =>
    obtain ⟨low', high', v', hbounds', -, hv', hlow, hhigh⟩ := hreads.get ht
    cases hv.symm.trans hv'
    cases hbounds.symm.trans hbounds'
    exact ⟨hlow, hhigh⟩
  | label _ hnot _ =>
    have hmem := List.mem_of_getElem? ht
    exact absurd ⟨v, List.mem_singleton.1 hmem ▸ hv⟩ hnot
  | call hcall _ _ =>
    have hnone : m.integerBounds = [] := by
      cases m <;> first | rfl | cases hcall
    rw [hnone] at hbounds
    cases hbounds

theorem branchesTo_label (honce : LabelsOnce body) {label : Bytes} {k : Nat}
    (hk : LabelAt body label k) : BranchesTo body label k (Int32.ofNat (position body k)) where
  declared := hk
  once _ hj := honce hj hk
  target := rfl
  index hlt := Int32.toInt_ofNat_of_lt hlt
  next := goesOnAt_position body k

theorem isInvoke_opcode (m : Mnemonic) : m.opcode.isInvoke = m.isInvoke := by
  rw [Opcode.isInvoke, Mnemonic.mnemonic?_opcode]
  rfl

theorem Translates.faithful (honce : LabelsOnce body) {line : BodyLine}
    (hm : Mnemonic.ofName? line.mnemonic = some m)
    (h : Translates self pool body m line.operands i) : Says body line i := by
  generalize hoperands : line.operands = operands at h
  constructor
  case mnemonic => exact ⟨m, hm, h.op⟩
  case first =>
    intro hinvoke t v ht hv
    rw [hoperands] at ht
    rw [h.op, isInvoke_opcode] at hinvoke
    cases h with
    | integers _ hreads => exact hreads.toInt_getD ht hv
    | label _ hnot _ =>
      cases ht
      exact absurd ⟨v, hv⟩ hnot
    | call hcall _ _ => cases hinvoke.symm.trans hcall
  case second =>
    intro t v ht hv
    rw [hoperands] at ht
    cases h with
    | integers _ hreads => exact hreads.toInt_getD ht hv
    | label _ _ _ | call _ _ _ => cases ht
  case branch =>
    intro hbranch
    rw [h.op, Code.isBranch_opcode] at hbranch
    have hlength := h.length_operands
    have hcount : operandCount m = 1 := by
      rw [operandCount_eq (isInvoke_of_isBranch hbranch)]
      cases m <;> first | rfl | cases hbranch
    obtain ⟨t, rfl⟩ := List.length_eq_one_iff.1 (hlength.trans hcount)
    refine ⟨t, hoperands, fun hnot => ?_⟩
    cases h with
    | integers _ hreads =>
      obtain ⟨_, _, v, _, _, hv, _, _⟩ := hreads.get (k := 0) rfl
      exact absurd ⟨v, hv⟩ hnot
    | label _ _ hk => exact ⟨_, branchesTo_label honce hk⟩
    | call hcall _ _ => cases (isInvoke_of_isBranch hbranch).symm.trans hcall

end

theorem Says.isInvoke_of_isBranch {body : List BodyLine} {line : BodyLine} {i : Instruction}
    (h : Says body line i) (hi : i.op.isBranch = true) : i.op.isInvoke = false := by
  obtain ⟨m, -, hop⟩ := h.mnemonic
  rw [hop, Code.isBranch_opcode] at hi
  rw [hop, isInvoke_opcode, Assembly.isInvoke_of_isBranch hi]

/-! ## Flaws -/

theorem ofName?_nil : Mnemonic.ofName? [] = none := by decide +kernel

theorem TranslatesMethod.line {owner : Bytes} {pool : Pool} {m : MethodDecl}
    {code : List Instruction} (h : TranslatesMethod owner pool m code) {line : BodyLine}
    (hline : line ∈ m.body.toList) (hne : line.mnemonic ≠ []) :
    ∃ i, TranslatesLine owner pool m.body.toList line i := by
  have hmem : line ∈ instructionLines m.body.toList := by
    refine List.mem_filter.2 ⟨hline, ?_⟩
    rw [BodyLine.hasInstruction, Bool.not_eq_true', List.isEmpty_eq_false_iff]
    exact hne
  obtain ⟨i, -, hi⟩ := exists_of_forall₂ h.lines.flip hmem
  exact ⟨i, hi⟩

/-- A line with this mnemonic has an instruction. -/
theorem TranslatesMethod.mnemonic {owner : Bytes} {pool : Pool} {m : MethodDecl}
    {code : List Instruction} (h : TranslatesMethod owner pool m code) {line : BodyLine}
    (hline : line ∈ m.body.toList) {n : Mnemonic} (hn : Mnemonic.ofName? line.mnemonic = some n) :
    ∃ i, Translates owner pool m.body.toList n line.operands i := by
  have hne : line.mnemonic ≠ [] := by
    intro hempty
    rw [hempty, ofName?_nil] at hn
    cases hn
  obtain ⟨i, n', hn', hi⟩ := h.line hline hne
  cases hn.symm.trans hn'
  exact ⟨i, hi⟩

/-- What makes no sense is not translated. -/
theorem TranslatesMethod.not_flawed {owner : Bytes} {pool : Pool} {m : MethodDecl}
    {code : List Instruction} (h : TranslatesMethod owner pool m code) :
    ¬Flawed m.body.toList := by
  intro hflawed
  cases hflawed with
  | duplicateLabel hj hk hne => exact hne (h.once hj hk)
  | undefinedLabel hline hn hbranch ht hnot hnone =>
    obtain ⟨i, hi⟩ := h.mnemonic hline hn
    obtain ⟨k, hk⟩ := hi.labelAt hbranch ht hnot
    exact hnone k hk
  | unknownMnemonic hline hne hnone =>
    obtain ⟨i, n, hn, -⟩ := h.line hline hne
    cases hnone.symm.trans hn
  | operandCount hline hn hcount =>
    obtain ⟨i, hi⟩ := h.mnemonic hline hn
    exact hcount hi.length_operands
  | outOfRange hline hn ht hbounds hv hout =>
    obtain ⟨i, hi⟩ := h.mnemonic hline hn
    have hwithin := hi.within ht hv hbounds
    omega

/-! ## Whole sources -/

/-- The definition of a method has code that says what its lines say, one instruction a line. -/
def Positioned (m : MethodDecl) (d : MethodDef) : Prop :=
  ∃ code, d.code = some code ∧
    List.Forall₂ (Says m.body.toList) (instructionLines m.body.toList) code

theorem TranslatesMethod.positioned {owner : Bytes} {pool : Pool} {m : MethodDecl}
    {d : MethodDef} {code : List Instruction} (h : TranslatesMethod owner pool m code)
    (hcode : d.code = some code) : Positioned m d :=
  ⟨code, hcode, h.lines.imp fun _ _ ⟨_, hn, hi⟩ => hi.faithful h.once hn⟩

/-- The code of every method that is generated has an instruction for each line with a mnemonic:
its opcode, the integers as they are written, and for a label the place where it is declared. With
a flaw in any method nothing is generated. -/
theorem generate_positioned (classes : List ClassDecl) :
    (∀ defs, generate classes = .ok defs → List.Forall₂ (fun c d =>
      List.Forall₂ Positioned c.methods.toList d.methodList) classes defs) ∧
    ((∃ c ∈ classes, ∃ m ∈ c.methods, Flawed m.body.toList) →
      ∃ errors, generate classes = .error errors) := by
  constructor
  · intro defs h
    refine (translated_of_generate h).imp fun c d ⟨b, hd⟩ => ?_
    exact hd.methods.imp fun m md ⟨code, hcode, hm⟩ => hm.positioned hcode
  · rintro ⟨c, hc, m, hm, hflawed⟩
    cases h : generate classes with
    | error errors => exact ⟨errors, rfl⟩
    | ok defs =>
      obtain ⟨d, -, b, hd⟩ := exists_of_forall₂ (translated_of_generate h).flip hc
      obtain ⟨md, -, code, -, hcode⟩ :=
        exists_of_forall₂ hd.methods.flip (Array.mem_toList_iff.2 hm)
      exact absurd hflawed hcode.not_flawed

/-- Counts up to ten, with labels on lines of their own and on one line with an instruction, two in
one place and one at the end. -/
def counting : Bytes :=
  Bytes.join "\n"
    ["class A", "method static main ()V", "iconst_0", "istore_0", "goto test", "body:",
      "next: iinc 0 1", "test:", "again: iload_0", "bipush 10", "if_icmplt body", "goto done",
      "done:", "end", "end"]

/-- Two loops under one label. -/
def ambiguous : Bytes :=
  Bytes.join "\n"
    ["class A", "method static main ()V", "loop: goto loop", "loop: goto loop", "end", "end"]

theorem generate_positioned_counting :
    (∃ classes defs, parse counting = .ok classes ∧ generate classes = .ok defs ∧
      List.Forall₂ (fun c d => List.Forall₂ Positioned c.methods.toList d.methodList)
        classes defs) ∧
    ∃ classes, parse ambiguous = .ok classes ∧
      (∃ c ∈ classes, ∃ m ∈ c.methods, Flawed m.body.toList) ∧
      ∃ errors, generate classes = .error errors := by
  have hcounting : ∃ classes ∈ (parse counting).toOption,
      ∃ defs ∈ (generate classes).toOption, defs ≠ [] := by decide +kernel
  have hambiguous : ∃ classes ∈ (parse ambiguous).toOption, ∃ c ∈ classes, ∃ m ∈ c.methods,
      LabelAt m.body.toList "loop" 0 ∧ LabelAt m.body.toList "loop" 1 := by decide +kernel
  constructor
  · obtain ⟨classes, hparse, defs, hdefs, -⟩ := hcounting
    have hdefs := eq_ok_of_mem_toOption hdefs
    exact ⟨classes, defs, eq_ok_of_mem_toOption hparse, hdefs,
      (generate_positioned classes).1 defs hdefs⟩
  · obtain ⟨classes, hparse, c, hc, m, hm, hfirst, hsecond⟩ := hambiguous
    have hflawed : ∃ c ∈ classes, ∃ m ∈ c.methods, Flawed m.body.toList :=
      ⟨c, hc, m, hm, .duplicateLabel hfirst hsecond Nat.zero_ne_one⟩
    exact ⟨classes, eq_ok_of_mem_toOption hparse, hflawed,
      (generate_positioned classes).2 hflawed⟩

end MiniJvm.Assembly
