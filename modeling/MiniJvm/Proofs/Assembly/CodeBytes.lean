import Mathlib
import MiniJvm.Proofs.Assembly.Spelling
import MiniJvm.Proofs.Code.Encodable

/-!
# The bytes of assembled code

The operands of assembled code fit the fields of a class file, and the fields that an instruction
does not use are zero. So only a branch can keep the code of an accepted source from having bytes,
and there is none that does where labels are the only targets and the bytes are fewer than 32768
(`assemble_encodes`).
-/

namespace MiniJvm.Assembly

open Code

/-- The branches of a body go to labels. -/
def LabelsOnly (body : List BodyLine) : Prop :=
  ∀ line ∈ body, ∀ m, Mnemonic.ofName? line.mnemonic = some m → m.isBranch = true →
    ∀ t ∈ line.operands, ¬t.IsInteger

instance (body : List BodyLine) : Decidable (LabelsOnly body) :=
  inferInstanceAs (Decidable (∀ line ∈ body, ∀ m ∈ Mnemonic.ofName? line.mnemonic,
    m.isBranch = true → ∀ t ∈ line.operands, ¬t.IsInteger))

/-- Why the code of a body has no bytes. -/
inductive Refused (body : List BodyLine) (code : List Instruction) : EncodeError → Prop where
  | tooFar {k : Nat} {i : Instruction} {distance : Int} : code[k]? = some i →
      i.op.isBranch = true →
      distance = (offsetAt code i.a.toInt.toNat : Int) - offsetAt code k →
      ¬(-32768 ≤ distance ∧ distance ≤ 32767) → Refused body code (.jumpRange i.op k distance)
  | pastEnd {k : Nat} {line : BodyLine} {i : Instruction} {t : Token} {v : Int} :
      (instructionLines body)[k]? = some line → code[k]? = some i → i.op.isBranch = true →
      line.operands = [t] → t.kind = .integer v → code.length < v →
      Refused body code (.badBranch i.op k v)
  /-- A label that more instructions stand before than an operand can count. -/
  | uncounted {k p : Nat} {line : BodyLine} {i : Instruction} {t : Token} :
      (instructionLines body)[k]? = some line → code[k]? = some i → i.op.isBranch = true →
      line.operands = [t] → LabelAt body t.literal p → 2 ^ 31 ≤ position body p →
      Refused body code (.badBranch i.op k i.a.toInt)

/-- The code of a body has bytes that decode to it, unless a branch is in the way. -/
structure FitsClassFile (body : List BodyLine) (code : List Instruction) : Prop where
  encodes : LabelsOnly body → (code.map fun i => i.op.size).sum ≤ 32767 →
    ∃ b, encode code = .ok b ∧ decode b = .ok code
  refused : ∀ {e}, encode code = .error e → Refused body code e

/-! ## Operands -/

theorem Reads.value {m : Mnemonic} {ts : List Token} {vs : List Int}
    (h : Reads m.integerBounds ts vs) {k : Nat} {low high : Int}
    (hbounds : m.integerBounds[k]? = some (low, high)) :
    low ≤ (Int32.ofInt (vs.getD k 0)).toInt ∧ (Int32.ofInt (vs.getD k 0)).toInt ≤ high := by
  have hk : k < ts.length := by
    rw [h.length_eq.1]
    exact (List.getElem?_eq_some_iff.1 hbounds).1
  have ht := List.getElem?_eq_getElem hk
  obtain ⟨low', high', v, hbounds', -, hkind, hlow, hhigh⟩ := h.get ht
  cases hbounds.symm.trans hbounds'
  rw [h.toInt_getD ht hkind]
  exact ⟨hlow, hhigh⟩

section

variable {self : Bytes} {pool : Pool} {body : List BodyLine} {m : Mnemonic}
  {operands : List Token} {i : Instruction}

theorem Translates.operandsFit (h : Translates self pool body m operands i) :
    OperandsFit m i := by
  cases h with
  | integers hm hreads =>
    refine ⟨fun {low high} hrange => hreads.value ?_, fun hiinc => hreads.value ?_⟩
    · cases m <;> first | exact hrange | (cases hrange; done) | cases hm
    · subst hiinc
      rfl
  | label hm _ _ => exact operandsFit_of_isBranch hm _
  | @call t owner name descriptor index hm _ _ =>
    have hlt := index.toNat_lt
    have hrange : m.operandRange? = some (0, 65535) ∧ m ≠ .iinc := by
      cases m <;> first | exact ⟨rfl, nofun⟩ | cases hm
    refine ⟨fun {low high} hlow => ?_, fun hiinc => absurd hiinc hrange.2⟩
    cases hrange.1.symm.trans hlow
    rw [Int32.toInt_ofNat_of_lt (by omega)]
    omega

/-- An instruction has no more integers than it has operand fields in a class file. -/
theorem length_integerBounds (hm : m.isInvoke = false) :
    (m.operandBytes = 0 → m.integerBounds.length = 0) ∧
      (m ≠ .iinc → m.integerBounds.length ≤ 1) := by
  cases m <;> first | exact ⟨nofun, fun h => absurd rfl h⟩ | decide

/-- The fields that an instruction does not use are zero. -/
theorem Translates.canonical (h : Translates self pool body m operands i) : i.canonical = i := by
  rw [canonical_eq h.op]
  cases h with
  | @integers _ values hm hreads =>
    obtain ⟨hnone, hone⟩ := length_integerBounds hm
    rw [← hreads.length_eq.2] at hnone hone
    congr 1
    · split
      · rename_i hbytes
        rw [List.getD_eq_default _ _ (hnone hbytes).le]
        rfl
      · rfl
    · split
      · rfl
      · rename_i hiinc
        rw [List.getD_eq_default _ _ (hone hiinc)]
        rfl
  | label hm _ _ => cases m <;> first | rfl | cases hm
  | call hm _ _ => cases m <;> first | rfl | cases hm

end

/-! ## Code -/

theorem offsetAt_le (code : List Instruction) (k : Nat) :
    offsetAt code k ≤ (code.map fun i => i.op.size).sum := by
  have hsplit := congrArg (fun code : List Instruction => (code.map fun i => i.op.size).sum)
    (List.take_append_drop k code)
  simp only [List.map_append, List.sum_append] at hsplit
  rw [offsetAt]
  omega

theorem length_le_sum_size (code : List Instruction) :
    code.length ≤ (code.map fun i => i.op.size).sum := by
  have hone : ∀ n ∈ code.map fun i => i.op.size, 1 ≤ n := by
    intro n hn
    obtain ⟨i, -, rfl⟩ := List.mem_map.1 hn
    exact Nat.le_add_right 1 _
  have hle := List.length_le_sum_of_one_le _ hone
  rwa [List.length_map] at hle

section

variable {owner : Bytes} {pool : Pool} {m : MethodDecl} {code : List Instruction}

/-- Each instruction of translated code comes from the line in its place. -/
theorem TranslatesMethod.at (h : TranslatesMethod owner pool m code) {k : Nat} {i : Instruction}
    (hi : code[k]? = some i) : ∃ line n, (instructionLines m.body.toList)[k]? = some line ∧
      Mnemonic.ofName? line.mnemonic = some n ∧
      Translates owner pool m.body.toList n line.operands i := by
  obtain ⟨line, hline, n, hn, htranslates⟩ := exists_getElem?_of_forall₂ h.lines hi
  exact ⟨line, n, hline, hn, htranslates⟩

theorem TranslatesMethod.of_mem (h : TranslatesMethod owner pool m code) {i : Instruction}
    (hi : i ∈ code) : ∃ n : Mnemonic, i.op = n.opcode ∧ OperandsFit n i ∧ i.canonical = i := by
  obtain ⟨k, hk⟩ := List.mem_iff_getElem?.1 hi
  obtain ⟨line, n, -, -, htranslates⟩ := h.at hk
  exact ⟨n, htranslates.op, htranslates.operandsFit, htranslates.canonical⟩

theorem TranslatesMethod.known (h : TranslatesMethod owner pool m code) :
    ∀ i ∈ code, i.op.known = true := by
  intro i hi
  obtain ⟨n, hop, -⟩ := h.of_mem hi
  exact known_iff.2 ⟨n, hop⟩

theorem TranslatesMethod.operandsFit (h : TranslatesMethod owner pool m code) :
    ∀ i ∈ code, ∀ n : Mnemonic, i.op = n.opcode → OperandsFit n i := by
  intro i hi n hn
  obtain ⟨n', hop, hfit, -⟩ := h.of_mem hi
  exact opcode_inj (hop.symm.trans hn) ▸ hfit

theorem TranslatesMethod.length_eq (h : TranslatesMethod owner pool m code) :
    (instructionLines m.body.toList).length = code.length := h.lines.length_eq

/-- What a branch of translated code goes to: an index that is written, or a label. -/
theorem TranslatesMethod.branch (h : TranslatesMethod owner pool m code) {k : Nat}
    {i : Instruction} (hi : code[k]? = some i) (hbranch : i.op.isBranch = true) :
    ∃ line n t, (instructionLines m.body.toList)[k]? = some line ∧
      Mnemonic.ofName? line.mnemonic = some n ∧ n.isBranch = true ∧ line.operands = [t] ∧
      ((∃ v, t.kind = .integer v ∧ 0 ≤ v ∧ i.a.toInt = v) ∨
        ¬t.IsInteger ∧ ∃ p, BranchesTo m.body.toList t.literal p i.a) := by
  obtain ⟨line, n, hline, hn, htranslates⟩ := h.at hi
  have hmeans := htranslates.faithful h.once hn
  obtain ⟨t, ht, hlabel⟩ := hmeans.branch hbranch
  have hinvoke := hmeans.isInvoke_of_isBranch hbranch
  rw [htranslates.op, isBranch_opcode] at hbranch
  refine ⟨line, n, t, hline, hn, hbranch, ht, ?_⟩
  by_cases hinteger : t.IsInteger
  · obtain ⟨v, hv⟩ := hinteger
    have hbounds : n.integerBounds[0]? = some (0, 2147483647) := by
      cases n <;> first | rfl | cases hbranch
    have hget : line.operands[0]? = some t := by rw [ht]; rfl
    exact .inl ⟨v, hv, (htranslates.within hget hv hbounds).1, hmeans.first hinvoke hget hv⟩
  · exact .inr ⟨hinteger, hlabel hinteger⟩

theorem TranslatesMethod.encodable (h : TranslatesMethod owner pool m code)
    (hlabels : LabelsOnly m.body.toList) (hsize : (code.map fun i => i.op.size).sum ≤ 32767) :
    Encodable code where
  known := h.known
  operands := h.operandsFit
  branches {k i} hi hbranch := by
    obtain ⟨line, n, t, hline, hn, hnbranch, ht, htarget⟩ := h.branch hi hbranch
    have hmem : line ∈ m.body.toList := List.mem_of_mem_filter (List.mem_of_getElem? hline)
    have hnot : ¬t.IsInteger :=
      hlabels line hmem n hn hnbranch t (ht ▸ List.mem_singleton_self t)
    obtain ⟨v, hv, -⟩ | ⟨-, p, hp⟩ := htarget
    · exact absurd ⟨v, hv⟩ hnot
    · have hposition := position_le m.body.toList p
      have hlength := length_le_sum_size code
      rw [h.length_eq] at hposition
      have ha := hp.index (by omega)
      have hthere := offsetAt_le code i.a.toInt.toNat
      have hhere := offsetAt_le code k
      exact ⟨by omega, by omega⟩

end

/-- Why a branch has no bytes: its target is not in the code, or too far. -/
theorem encodeBranch_error {code : List Instruction} {k : Nat} {i : Instruction} {e : EncodeError}
    (hk : k ≤ code.length) (h : encodeBranch (offsetsFrom 0 code).toArray i k = .error e) :
    e = .badBranch i.op k i.a.toInt ∧ (i.a.toInt < 0 ∨ code.length < i.a.toInt) ∨
      ∃ distance, e = .jumpRange i.op k distance ∧
        distance = (offsetAt code i.a.toInt.toNat : Int) - offsetAt code k ∧
        ¬(-32768 ≤ distance ∧ distance ≤ 32767) := by
  unfold encodeBranch at h
  dsimp only at h
  split at h
  · rename_i hnegative
    cases h
    exact .inl ⟨rfl, .inl hnegative⟩
  · rename_i hnegative
    split at h
    · rename_i there here hthere hhere
      obtain ⟨-, rfl⟩ := getElem?_offsets.1 hthere
      obtain ⟨-, rfl⟩ := getElem?_offsets.1 hhere
      split at h
      · rename_i hfar
        cases h
        rw [Bool.or_eq_true, decide_eq_true_eq, decide_eq_true_eq] at hfar
        exact .inr ⟨_, rfl, rfl, by omega⟩
      · cases h
    · rename_i hnone
      cases h
      refine .inl ⟨rfl, .inr (Int.not_le.1 fun hle => ?_)⟩
      exact hnone _ _ (getElem?_offsets.2 ⟨by omega, rfl⟩) (getElem?_offsets.2 ⟨hk, rfl⟩)

/-- Of known instructions with operands in their ranges only a branch has no bytes. -/
theorem encode_error {code : List Instruction} {e : EncodeError}
    (hknown : ∀ i ∈ code, i.op.known = true)
    (hfits : ∀ i ∈ code, ∀ m : Mnemonic, i.op = m.opcode → OperandsFit m i)
    (h : encode code = .error e) : ∃ k i, code[k]? = some i ∧ i.op.isBranch = true ∧
      encodeBranch (offsetsFrom 0 code).toArray i k = .error e := by
  rw [encode_eq, firstUnknown?_eq_none_iff.2 hknown] at h
  dsimp only at h
  cases hparts : code.zipIdx.mapM (encodeAt (offsetsFrom 0 code).toArray) with
  | ok parts =>
    rw [hparts] at h
    cases h
  | error e' =>
    rw [hparts] at h
    cases h
    obtain ⟨⟨i, k⟩, hmem, herror⟩ := mapM_error hparts
    have hi := List.mk_mem_zipIdx_iff_getElem?.1 hmem
    have hmem := List.mem_of_getElem? hi
    obtain ⟨m, hop⟩ := known_iff.1 (hknown i hmem)
    have hoperands : encodeOperands (offsetsFrom 0 code).toArray i k = .error e := by
      cases hout : encodeOperands (offsetsFrom 0 code).toArray i k with
      | ok out => cases herror.symm.trans (encodeAt_ok_iff.2 ⟨out, hout, rfl⟩)
      | error e' =>
        rw [encodeAt, hout] at herror
        cases herror
        rfl
    have hbranch : m.isBranch = true := by
      by_contra hnot
      obtain ⟨out, hout⟩ := (encodeOperands_exists_iff hop (Bool.eq_false_iff.2 hnot) _ k).2
        (hfits i hmem m hop)
      cases hout.symm.trans hoperands
    refine ⟨k, i, hi, by rw [hop, isBranch_opcode, hbranch], ?_⟩
    rwa [encodeOperands_branch hop hbranch] at hoperands

theorem TranslatesMethod.refused {owner : Bytes} {pool : Pool} {m : MethodDecl}
    {code : List Instruction} (h : TranslatesMethod owner pool m code) {e : EncodeError}
    (he : encode code = .error e) : Refused m.body.toList code e := by
  obtain ⟨k, i, hi, hbranch, herror⟩ := encode_error h.known h.operandsFit he
  have hk : k ≤ code.length := (List.getElem?_eq_some_iff.1 hi).1.le
  obtain ⟨line, n, t, hline, -, -, ht, htarget⟩ := h.branch hi hbranch
  obtain ⟨rfl, hout⟩ | ⟨distance, rfl, hdistance, hfar⟩ := encodeBranch_error hk herror
  · obtain ⟨v, hv, hpos, ha⟩ | ⟨-, p, hp⟩ := htarget
    · rw [ha] at hout ⊢
      exact .pastEnd hline hi hbranch ht hv (by omega)
    · refine .uncounted hline hi hbranch ht hp.declared (Nat.le_of_not_lt fun hlt => ?_)
      have hposition := position_le m.body.toList p
      rw [h.length_eq] at hposition
      rw [hp.index hlt] at hout
      omega
  · exact .tooFar hi hbranch hdistance hfar

theorem TranslatesMethod.fitsClassFile {owner : Bytes} {pool : Pool} {m : MethodDecl}
    {code : List Instruction} (h : TranslatesMethod owner pool m code) :
    FitsClassFile m.body.toList code where
  encodes hlabels hsize := by
    obtain ⟨b, hb⟩ := (encode_exists_iff code).2 (h.encodable hlabels hsize)
    have hsame : code.map Instruction.canonical = code := by
      refine (List.map_congr_left fun i hi => ?_).trans (List.map_id code)
      obtain ⟨n, -, -, hcanonical⟩ := h.of_mem hi
      exact hcanonical
    have hdecode := decode_encoded hb
    rw [hsame] at hdecode
    exact ⟨b, hb, hdecode⟩
  refused := h.refused

/-- The code of every method of an accepted source fits a class file if its branches name labels
and it has at most 32767 bytes. Otherwise a branch is refused, and nothing else. -/
theorem assemble_encodes {source : Bytes} {defs : List ClassDef} (h : assemble source = .ok defs) :
    ∃ classes, parse source = .ok classes ∧
      List.Forall₂ (fun c d => List.Forall₂ (fun m md => ∃ code, md.code = some code ∧
        FitsClassFile m.body.toList code) c.methods.toList d.methodList) classes defs := by
  obtain ⟨classes, hparse, htranslated⟩ := translated_of_assemble h
  refine ⟨classes, hparse, htranslated.imp fun c d ⟨_, b, hd⟩ => ?_⟩
  exact hd.methods.imp fun m md ⟨code, hcode, hm⟩ => ⟨code, hcode, hm.fitsClassFile⟩

theorem assemble_encodes_counting :
    ∃ classes defs, parse counting = .ok classes ∧ assemble counting = .ok defs ∧
      ∃ c ∈ classes, ∃ d ∈ defs, ∃ m ∈ c.methods, ∃ md ∈ d.methodList,
      ∃ code, md.code = some code ∧ LabelsOnly m.body.toList ∧
        (code.map fun i => i.op.size).sum ≤ 32767 ∧
        ∃ b, encode code = .ok b ∧ decode b = .ok code := by
  have hsource : ∃ classes : List ClassDecl, classes ∈ (parse counting).toOption ∧
      ∃ c : ClassDecl, c ∈ classes[0]? ∧ ∃ m : MethodDecl, m ∈ c.methods.toList[0]? ∧
      LabelsOnly m.body.toList := by decide +kernel
  have hcode : ∃ defs : List ClassDef, defs ∈ (assemble counting).toOption ∧
      ∃ d : ClassDef, d ∈ defs[0]? ∧ ∃ md : MethodDef, md ∈ d.methodList[0]? ∧
      ∃ code : List Instruction, code ∈ md.code ∧
        (code.map fun i => i.op.size).sum ≤ 32767 := by decide +kernel
  obtain ⟨classes, hparse, c, hc, m, hm, hlabels⟩ := hsource
  obtain ⟨defs, hdefs, d, hd, md, hmd, code, hcode, hsize⟩ := hcode
  have hparse := eq_ok_of_mem_toOption hparse
  have hdefs := eq_ok_of_mem_toOption hdefs
  obtain ⟨classes', hparse', hall⟩ := assemble_encodes hdefs
  cases hparse.symm.trans hparse'
  obtain ⟨code', hcode', hfits⟩ := forall₂_getElem? (forall₂_getElem? hall hc hd) hm hmd
  cases hcode.symm.trans hcode'
  exact ⟨classes, defs, hparse, hdefs, c, List.mem_of_getElem? hc, d, List.mem_of_getElem? hd, m,
    Array.mem_toList_iff.1 (List.mem_of_getElem? hm), md, List.mem_of_getElem? hmd, code, hcode,
    hlabels, hsize, hfits.encodes hlabels hsize⟩

end MiniJvm.Assembly
