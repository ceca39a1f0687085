import Mathlib
import MiniJvm.Proofs.Assembly.Labels
import MiniJvm.Proofs.Pool.Interning

/-!
# Translated lines

`Translates` says by rules which instruction a line stands for: integers within the bounds of their
places, a label by the position of its line, a method by its index in the pool. The methods of an
accepted source are translated by these rules, with one instruction for each line that has one, in
order (`translated_of_generate`).
-/

namespace MiniJvm

/-- The bounds of the integers that an instruction is written with. A branch may be written with
the index of its target. -/
def Mnemonic.integerBounds : Mnemonic → List (Int × Int)
  | .bipush => [(-128, 127)]
  | .sipush => [(-32768, 32767)]
  | .iload | .istore => [(0, 255)]
  | .iinc => [(0, 255), (-128, 127)]
  | .goto | .ifIcmplt => [(0, 2147483647)]
  | _ => []

namespace Assembly

/-! ## The rules -/

def Token.IsInteger (t : Token) : Prop := ∃ v, t.kind = .integer v

instance (t : Token) : Decidable t.IsInteger :=
  match h : t.kind with
  | .integer v => isTrue ⟨v, h⟩
  | .endOfFile | .newline | .label | .word => isFalse fun ⟨_, hv⟩ => nomatch h.symm.trans hv

/-- Tokens that are integers within the bounds of their places, and their values. -/
inductive Reads : List (Int × Int) → List Token → List Int → Prop where
  | nil : Reads [] [] []
  | cons {low high v : Int} {bounds : List (Int × Int)} {t : Token} {ts : List Token}
      {vs : List Int} : t.kind = .integer v → low ≤ v → v ≤ high → Reads bounds ts vs →
      Reads ((low, high) :: bounds) (t :: ts) (v :: vs)

/-- The instruction that a mnemonic with operands stands for, in a method of the class `self` with
a body and a pool. -/
inductive Translates (self : Bytes) (pool : Pool) (body : List BodyLine) :
    Mnemonic → List Token → Instruction → Prop where
  | integers {m : Mnemonic} {operands : List Token} {values : List Int} : m.isInvoke = false →
      Reads m.integerBounds operands values →
      Translates self pool body m operands
        ⟨m.opcode, Int32.ofInt (values.getD 0 0), Int32.ofInt (values.getD 1 0)⟩
  | label {m : Mnemonic} {t : Token} {k : Nat} : m.isBranch = true → ¬t.IsInteger →
      LabelAt body t.literal k →
      Translates self pool body m [t] ⟨m.opcode, Int32.ofNat (position body k), 0⟩
  | call {m : Mnemonic} {t : Token} {owner name descriptor : Bytes} {index : UInt16} :
      m.isInvoke = true → splitReference t.literal self = .ok (owner, name, descriptor) →
      pool.MethodAt index owner name descriptor →
      Translates self pool body m [t] ⟨m.opcode, Int32.ofNat index.toNat, 0⟩

/-- The instruction that a line stands for. -/
def TranslatesLine (self : Bytes) (pool : Pool) (body : List BodyLine) (line : BodyLine)
    (i : Instruction) : Prop :=
  ∃ m, Mnemonic.ofName? line.mnemonic = some m ∧ Translates self pool body m line.operands i

/-- The code that a method of the class `owner` stands for. -/
structure TranslatesMethod (owner : Bytes) (pool : Pool) (m : MethodDecl)
    (code : List Instruction) : Prop where
  once : LabelsOnce m.body.toList
  lines : List.Forall₂ (TranslatesLine owner pool m.body.toList) (instructionLines m.body.toList)
    code

/-- The definition of a class with the constants of a builder. -/
structure TranslatesClass (c : ClassDecl) (d : ClassDef) (b : PoolBuilder) : Prop where
  name : d.name = c.name
  pool : d.pool = some b.entries.toList
  distinct : b.Distinct
  room : b.isFull = false
  methods : List.Forall₂ (fun m md => ∃ code, md.code = some code ∧
    TranslatesMethod c.name b.pool m code) c.methods.toList d.methodList

section

variable {self : Bytes} {p q : Pool} {body : List BodyLine}

theorem Translates.mono (h : p.Grows q) {m : Mnemonic} {operands : List Token} {i : Instruction}
    (hi : Translates self p body m operands i) : Translates self q body m operands i := by
  cases hi with
  | integers hm hreads => exact .integers hm hreads
  | label hm ht hlabel => exact .label hm ht hlabel
  | call hm hsplit hindex => exact .call hm hsplit (h.methodAt hindex)

theorem TranslatesLine.mono (h : p.Grows q) {line : BodyLine} {i : Instruction}
    (hi : TranslatesLine self p body line i) : TranslatesLine self q body line i := by
  obtain ⟨m, hm, hi⟩ := hi
  exact ⟨m, hm, hi.mono h⟩

theorem TranslatesMethod.mono (h : p.Grows q) {m : MethodDecl} {code : List Instruction}
    (hm : TranslatesMethod self p m code) : TranslatesMethod self q m code :=
  ⟨hm.once, hm.lines.imp fun _ _ hi => hi.mono h⟩

end

theorem TranslatesClass.pool_eq {c : ClassDecl} {d : ClassDef} {b : PoolBuilder}
    (h : TranslatesClass c d b) : Pool.ofEntries d.constants = b.pool := by
  rw [ClassDef.constants, h.pool, Option.getD_some]
  exact Pool.ofEntries_of_grows h.distinct.built.grows

/-! ## Operands -/

theorem intOperand_ok_iff {t : Token} {low high : Int} {a : Int32} :
    intOperand t low high = .ok a ↔
      ∃ v, t.kind = .integer v ∧ low ≤ v ∧ v ≤ high ∧ a = Int32.ofInt v := by
  unfold intOperand
  cases ht : t.kind with
  | integer v =>
    simp only [Bool.or_eq_true, decide_eq_true_eq, TokenKind.integer.injEq]
    constructor
    · intro h
      split at h
      · cases h
      · cases h
        exact ⟨v, rfl, by omega, by omega, rfl⟩
    · rintro ⟨_, rfl, hlow, hhigh, rfl⟩
      rw [if_neg (by omega)]
  | endOfFile | newline | label | word => simp

theorem declared_of_finds {body : List BodyLine} {labels : Labels} (h : Finds 0 body {} labels)
    {label : Bytes} {n : Nat} (hn : labelIndex? labels label = some n) :
    ∃ k, LabelAt body label k ∧ n = position body k := by
  by_cases hnone : ∀ k, ¬LabelAt body label k
  · rw [h.others hnone] at hn
    simp [labelIndex?] at hn
  · obtain ⟨k, hk⟩ := not_forall_not.1 hnone
    rw [h.found hk, Nat.zero_add] at hn
    exact ⟨k, hk, (Option.some.inj hn).symm⟩

theorem branchOperand_ok {body : List BodyLine} {labels : Labels} (hlabels : Finds 0 body {} labels)
    {t : Token} {a : Int32} (h : branchOperand labels t = .ok a) :
    (∃ v, t.kind = .integer v ∧ 0 ≤ v ∧ v ≤ 2147483647 ∧ a = Int32.ofInt v) ∨
      ¬t.IsInteger ∧ ∃ k, LabelAt body t.literal k ∧ a = Int32.ofNat (position body k) := by
  unfold branchOperand at h
  split at h
  · exact .inl (intOperand_ok_iff.1 h)
  · rename_i hkind
    split at h
    · rename_i n hn
      cases h
      obtain ⟨k, hk, rfl⟩ := declared_of_finds hlabels hn
      exact .inr ⟨fun ⟨v, hv⟩ => hkind v hv, k, hk, rfl⟩
    · cases h

/-- What a draft has of the line it is made from: the instruction, or the method to call. -/
def Draft.Follows (self : Bytes) (body : List BodyLine) (m : Mnemonic) (operands : List Token) :
    Draft → Prop
  | .plain i => ∀ pool, Translates self pool body m operands i
  | .call m' owner name descriptor => m' = m ∧ m.isInvoke = true ∧ ∃ t, operands = [t] ∧
      splitReference t.literal self = .ok (owner, name, descriptor)

section

variable {self : Bytes} {body : List BodyLine} {labels : Labels} {m : Mnemonic}

theorem follows_bare (hm : m.isInvoke = false) (hbounds : m.integerBounds = []) :
    Draft.Follows self body m [] (.plain (.plain m)) := by
  intro pool
  have hreads : Reads m.integerBounds [] [] := hbounds ▸ .nil
  exact .integers hm hreads

theorem follows_integer {t : Token} {low high : Int} {a : Int32} (hm : m.isInvoke = false)
    (hbounds : m.integerBounds = [(low, high)]) (h : intOperand t low high = .ok a) :
    Draft.Follows self body m [t] (.plain ⟨m.opcode, a, 0⟩) := by
  obtain ⟨v, hkind, hlow, hhigh, rfl⟩ := intOperand_ok_iff.1 h
  intro pool
  have hreads : Reads m.integerBounds [t] [v] := hbounds ▸ .cons hkind hlow hhigh .nil
  exact .integers hm hreads

theorem follows_branch (hlabels : Finds 0 body {} labels) {t : Token} {a : Int32}
    (hm : m.isBranch = true) (h : branchOperand labels t = .ok a) :
    Draft.Follows self body m [t] (.plain ⟨m.opcode, a, 0⟩) := by
  have hbounds : m.isInvoke = false ∧ m.integerBounds = [(0, 2147483647)] := by
    cases m <;> simp [Mnemonic.isBranch] at hm <;> exact ⟨rfl, rfl⟩
  intro pool
  rcases branchOperand_ok hlabels h with ⟨v, hkind, hlow, hhigh, rfl⟩ | ⟨ht, k, hk, rfl⟩
  · have hreads : Reads m.integerBounds [t] [v] := hbounds.2 ▸ .cons hkind hlow hhigh .nil
    exact .integers hbounds.1 hreads
  · exact .label hm ht hk

theorem follows_draft (hlabels : Finds 0 body {} labels) {operands : List Token} {d : Draft}
    (h : draft labels self m operands = .ok d) (hcount : operands.length = operandCount m) :
    d.Follows self body m operands := by
  unfold draft at h
  split at h
  case h_1 | h_2 | h_3 | h_4 =>
    obtain ⟨a, ha, h⟩ := bind_eq_ok.1 h
    cases h
    exact follows_integer rfl rfl ha
  case h_5 t u =>
    obtain ⟨a, ha, h⟩ := bind_eq_ok.1 h
    obtain ⟨b, hb, h⟩ := bind_eq_ok.1 h
    cases h
    obtain ⟨v, hv, hvlow, hvhigh, rfl⟩ := intOperand_ok_iff.1 ha
    obtain ⟨w, hw, hwlow, hwhigh, rfl⟩ := intOperand_ok_iff.1 hb
    intro pool
    exact .integers (m := .iinc) rfl (.cons hv hvlow hvhigh (.cons hw hwlow hwhigh .nil))
  case h_6 | h_7 =>
    obtain ⟨a, ha, h⟩ := bind_eq_ok.1 h
    cases h
    exact follows_branch hlabels rfl ha
  case h_8 t | h_9 t =>
    obtain ⟨⟨owner, name, descriptor⟩, hsplit, h⟩ := bind_eq_ok.1 h
    cases h
    exact ⟨rfl, rfl, t, rfl, hsplit⟩
  case h_10 =>
    cases h
    cases m <;> simp only [operandCount] at hcount
    case iinc =>
      obtain ⟨t, u, rfl⟩ := List.length_eq_two.1 hcount
      simp_all
    case bipush | sipush | iload | istore | goto | ifIcmplt | invokestatic | invokespecial =>
      obtain ⟨t, rfl⟩ := List.length_eq_one_iff.1 hcount
      simp_all
    all_goals
      cases List.length_eq_zero_iff.1 hcount
      exact follows_bare rfl rfl

theorem follows_draftLine (hlabels : Finds 0 body {} labels) {line : BodyLine} {d : Draft}
    (h : draftLine labels self line = .ok d) :
    ∃ m, Mnemonic.ofName? line.mnemonic = some m ∧ d.Follows self body m line.operands := by
  unfold draftLine at h
  split at h
  · cases h
  · rename_i m hm
    split at h
    · cases h
    · rename_i hcount
      split at h
      · rename_i hd
        cases h
        exact ⟨m, hm, follows_draft hlabels hd (not_not.1 hcount)⟩
      · cases h

end

/-! ## Instructions -/

theorem distinct_emit {s : GenState} (h : s.builder.Distinct) (d : Draft) :
    (s.emit d).1.builder.Distinct := by
  cases d with
  | plain i => exact h
  | call m owner name descriptor =>
    rw [emit_call]
    dsimp only
    exact h.addMethodRef owner name descriptor

theorem translates_emit {s : GenState} (hs : s.builder.Distinct) {self : Bytes}
    {body : List BodyLine} {m : Mnemonic} {operands : List Token} {d : Draft}
    (hd : d.Follows self body m operands) (hfits : (s.emit d).1.builder.Fits) :
    Translates self (s.emit d).1.builder.pool body m operands (s.emit d).2 := by
  cases d with
  | plain i => exact hd _
  | call m' owner name descriptor =>
    obtain ⟨rfl, hm, t, rfl, hsplit⟩ := hd
    rw [emit_call] at hfits ⊢
    dsimp only at hfits ⊢
    exact .call hm hsplit (hs.built.methodAt_addMethodRef owner name descriptor hfits)

theorem distinct_instructions {s t : GenState} {labels : Labels} {self : Bytes}
    {reversed code : List Instruction} {lines : List BodyLine} (hs : s.builder.Distinct)
    (h : instructions s labels self reversed lines = (t, code)) : t.builder.Distinct := by
  induction lines generalizing s reversed with
  | nil =>
    cases h
    exact hs
  | cons line rest ih =>
    rw [instructions] at h
    split at h
    · exact ih hs h
    · split at h
      · rename_i d _
        exact ih (distinct_emit hs d) h
      · exact ih (s := s.report ..) hs h

theorem translates_instructions {s t : GenState} {labels : Labels} {self : Bytes}
    {body : List BodyLine} (hlabels : Finds 0 body {} labels) {reversed code : List Instruction}
    {lines : List BodyLine} (hs : s.builder.Distinct)
    (h : instructions s labels self reversed lines = (t, code))
    (hclean : t.errors.size = s.errors.size) (hfits : t.builder.Fits) :
    ∃ new, code = reversed.reverse ++ new ∧
      List.Forall₂ (TranslatesLine self t.builder.pool body) (instructionLines lines) new := by
  induction lines generalizing s reversed with
  | nil =>
    cases h
    exact ⟨[], (List.append_nil _).symm, .nil⟩
  | cons line rest ih =>
    have hlines : instructionLines (line :: rest) =
        if line.mnemonic.isEmpty then instructionLines rest
        else line :: instructionLines rest := by
      rw [instructionLines, List.filter_cons, BodyLine.hasInstruction]
      cases line.mnemonic.isEmpty <;> rfl
    rw [instructions] at h
    rw [hlines]
    split at h
    · rename_i hempty
      rw [if_pos hempty]
      exact ih hs h hclean
    · rename_i hne
      rw [if_neg hne]
      split at h
      · rename_i d hd
        have hrest : instructions (s.emit d).1 labels self ((s.emit d).2 :: reversed) rest =
            (t, code) := h
        obtain ⟨-, hsame, -⟩ := emit_spec s (draftLine_proper hd)
        obtain ⟨hgrows, -⟩ := instructions_spec hrest
        obtain ⟨new, hcode, hnew⟩ := ih (distinct_emit hs d) hrest (hclean.trans hsame.symm)
        obtain ⟨m, hm, hfollows⟩ := follows_draftLine hlabels hd
        have hi := translates_emit hs hfollows (hfits.mono hgrows.pool)
        exact ⟨(s.emit d).2 :: new, by simp [hcode], .cons ⟨m, hm, hi.mono hgrows.pool⟩ hnew⟩
      · have herrors := (instructions_spec h).1.errors
        rw [size_report] at herrors
        omega

/-! ## Methods and classes -/

theorem builder_stackSize (s : GenState) (m : MethodDecl) (code : List Instruction) :
    (stackSize s m code).1.builder = s.builder := by
  unfold stackSize
  split
  · rfl
  · split <;> rfl

theorem translates_method {s t : GenState} {self : Bytes} {m : MethodDecl} {d : MethodDef}
    (hs : s.builder.Distinct) (h : method s self m = (t, d)) :
    t.builder.Distinct ∧ (t.errors.size = s.errors.size → t.builder.Fits →
      ∃ code, d.code = some code ∧ TranslatesMethod self t.builder.pool m code) := by
  have herrors := (method_spec h).1.errors
  unfold method at h
  dsimp only at h
  split at h
  · cases h
    refine ⟨hs, fun hclean => ?_⟩
    rw [size_report] at hclean
    omega
  · rcases hlabels : findLabels s {} 0 m.body.toList with ⟨s₁, labels⟩
    rcases hcode : instructions s₁ labels self [] m.body.toList with ⟨s₂, code⟩
    rw [hlabels] at h
    dsimp only at h
    rw [hcode] at h
    dsimp only at h
    have hs₁ : s₁.builder.Distinct := builder_findLabels hlabels ▸ hs
    have hs₂ := distinct_instructions hs₁ hcode
    have hle₁ := (grows_findLabels hlabels).errors
    have hle₂ := (instructions_spec hcode).1.errors
    split at h
    · cases h
      exact ⟨hs₂, fun hclean => by omega⟩
    · have hsize := builder_stackSize s₂ m code
      have hle₃ := (stackSize_spec s₂ m code).1.errors
      cases h
      rw [hsize]
      refine ⟨hs₂, fun hclean hfits => ⟨code, rfl, ?_, ?_⟩⟩
      · exact (findLabels_spec hlabels (by omega)).once
      · obtain ⟨new, rfl, hnew⟩ := translates_instructions (findLabels_spec hlabels (by omega)) hs₁
          hcode (by omega) hfits
        exact hnew

theorem distinct_namesOf (c : ClassDecl) : (namesOf c).Distinct := by
  unfold namesOf
  dsimp only
  split
  · exact PoolBuilder.Distinct.start.addClass c.name
  · exact (PoolBuilder.Distinct.start.addClass c.name).addClass c.superName

theorem GeneratedBy.translatesClass {c : ClassDecl} {d : ClassDef} {s t : GenState}
    (h : GeneratedBy c d s t) : TranslatesClass c d t.builder := by
  have hs : s.builder.Distinct := h.start ▸ distinct_namesOf c
  obtain ⟨-, ht, hall⟩ := methods_each (P := PoolBuilder.Distinct)
    (R := fun p m d => p.size ≤ 65536 → ∃ code, d.code = some code ∧
      TranslatesMethod c.name p m code)
    (fun hgrows hR hfits => by
      obtain ⟨code, hcode, hm⟩ := hR (hgrows.size_le.trans hfits)
      exact ⟨code, hcode, hm.mono hgrows⟩)
    (fun hs hm => ⟨(method_spec hm).1, translates_method hs hm⟩) hs h.methods
  obtain ⟨new, hnew, hall⟩ := hall h.clean
  refine ⟨h.name, h.pool, ht, h.room, ?_⟩
  rw [hnew]
  exact hall.imp fun m d hd => hd (PoolBuilder.fits_of_isFull h.room)

/-- The definitions of an accepted source are the translated classes. -/
theorem translated_of_generate {classes : List ClassDecl} {defs : List ClassDef}
    (h : generate classes = .ok defs) :
    List.Forall₂ (fun c d => ∃ b, TranslatesClass c d b) classes defs :=
  (generatedBy_of_generate h).imp fun _ _ ⟨_, t, hd⟩ => ⟨t.builder, hd.translatesClass⟩

end Assembly

end MiniJvm
