import Mathlib
import MiniJvm.Proofs.Assembly.CallEffect
import MiniJvm.Proofs.Assembly.Spelling
import MiniJvm.Proofs.Machine.LastDefinition

/-!
# Calls and their constants

The pool of an accepted class has each constant once, and every call of the class leads through it
to the method that its operand names (`assemble_linked`). Two calls have one index exactly when
their operands name the same class, method and descriptor (`TranslatesClass.index_eq_iff`).
-/

namespace MiniJvm.Assembly

/-- The signature that a reference in the class `self` names: the text itself when it has a dot
before its first colon. -/
def signatureOf (self text : Bytes) : Bytes :=
  if 46 ∈ text.takeWhile (· != 58) then text else self ++ "." ++ text

/-- A call of a class: the text of its operand and the instruction that it became. -/
inductive Call (c : ClassDecl) (d : ClassDef) : Bytes → Instruction → Prop where
  | mk {n k : Nat} {m : MethodDecl} {md : MethodDef} {code : List Instruction} {line : BodyLine}
      {i : Instruction} {t : Token} : c.methods.toList[n]? = some m → d.methodList[n]? = some md →
      md.code = some code → (instructionLines m.body.toList)[k]? = some line →
      code[k]? = some i → i.op.isInvoke = true → line.operands = [t] → Call c d t.written i

/-- The operand of the instruction is the index of a method, and its text is the signature. -/
structure CallsThrough (pool : Pool) (signature : Bytes) (i : Instruction) : Prop where
  index : i.a.toInt = i.poolIndex.toNat
  methodRef : ∃ e, pool.entry i.poolIndex = .ok e ∧ e.tag? = some .methodRef
  resolves : pool.resolve i.poolIndex = .ok signature

/-- The pool of a class is interned, and its calls lead to what is written. -/
structure Linked (c : ClassDecl) (d : ClassDef) : Prop where
  pool : d.pool = some d.constants
  placeholder : d.constants.head? = some .placeholder
  room : d.constants.length < 65535
  distinct : d.constants.Nodup
  written : ∀ md ∈ d.methodList, ∃ code, md.code = some code ∧
    ∀ i ∈ code, i.op.isInvoke = true → ∃ text, Call c d text i
  resolves : ∀ {text i}, Call c d text i →
    CallsThrough (Pool.ofEntries d.constants) (signatureOf d.name text) i
  shared : ∀ {text i j}, Call c d text i → Call c d text j → i.a = j.a
  separate : ∀ {text text' i j}, Call c d text i → Call c d text' j →
    signatureOf d.name text ≠ signatureOf d.name text' → i.a ≠ j.a

/-! ## References -/

theorem split_of_dropWhile {x b : UInt8} {s rest : Bytes}
    (h : s.dropWhile (· != x) = b :: rest) : s = s.takeWhile (· != x) ++ x :: rest := by
  have hb : b = x := by
    have hhead := List.head?_dropWhile_not (· != x) s
    rw [h] at hhead
    simpa using hhead
  rw [← hb, ← h, hb, List.takeWhile_append_dropWhile]

theorem eq_of_cut? {x : UInt8} {s before after : Bytes}
    (h : Bytes.cut? x s = some (before, after)) :
    s = before ++ x :: after ∧ before = s.takeWhile (· != x) := by
  unfold Bytes.cut? at h
  split at h
  · cases h
  · rename_i hdrop
    cases h
    exact ⟨split_of_dropWhile hdrop, rfl⟩

theorem eq_of_splitLastDot? {s before after : Bytes}
    (h : splitLastDot? s = some (before, after)) : s = before ++ 46 :: after := by
  unfold splitLastDot? at h
  split at h
  · cases h
  · rename_i rest hdrop
    cases h
    have hs := congrArg List.reverse (split_of_dropWhile hdrop)
    rwa [List.reverse_reverse, List.reverse_append, List.reverse_cons, List.append_assoc] at hs

theorem not_mem_of_splitLastDot? {s : Bytes} (h : splitLastDot? s = none) : 46 ∉ s := by
  unfold splitLastDot? at h
  split at h
  · rename_i hdrop
    intro hdot
    have hall := List.dropWhile_eq_nil_iff.1 hdrop 46 (List.mem_reverse.2 hdot)
    cases hall
  · cases h

/-- The parts of a reference make up the signature that it names. -/
theorem signature_of_splitReference {text self owner name descriptor : Bytes}
    (h : splitReference text self = .ok (owner, name, descriptor)) :
    58 ∈ text ∧ signature owner name descriptor = signatureOf self text := by
  obtain ⟨head, -, hcut, hparts, -⟩ := splitReference_ok h
  obtain ⟨htext, hhead⟩ := eq_of_cut? hcut
  have hcolon : 58 ∈ text := htext ▸ List.mem_append_right _ List.mem_cons_self
  refine ⟨hcolon, ?_⟩
  rw [signatureOf, ← hhead]
  cases hdot : splitLastDot? head with
  | none =>
    rw [hdot] at hparts
    cases hparts
    rw [if_neg (not_mem_of_splitLastDot? hdot), htext, Registry.signature_eq, List.append_assoc]
    rfl
  | some parts =>
    rw [hdot] at hparts
    cases hparts
    have hsplit := eq_of_splitLastDot? hdot
    have hmem : 46 ∈ head := hsplit ▸ List.mem_append_right _ List.mem_cons_self
    rw [if_pos hmem, htext, hsplit, Registry.signature_eq, List.append_assoc, List.cons_append]

/-- What has a colon inside is not written as a label. -/
theorem Token.Spelled.written_eq {t : Token} (h : t.Spelled) (hcolon : 58 ∈ t.literal) :
    t.written = t.literal := by
  rw [Token.written, if_neg]
  intro hlabel
  have hcount := (h.isLabel hlabel).count
  have hpos := List.count_pos_iff.2 hcolon
  have hlast : (":" : Bytes).count 58 = 1 := rfl
  rw [List.count_append, hlast] at hcount
  omega

/-! ## Calls -/

theorem Translates.callee {self : Bytes} {pool : Pool} {body : List BodyLine} {m : Mnemonic}
    {operands : List Token} {i : Instruction} (h : Translates self pool body m operands i)
    (hi : i.op.isInvoke = true) :
    ∃ t owner name descriptor, operands = [t] ∧
      splitReference t.literal self = .ok (owner, name, descriptor) ∧
      pool.MethodAt i.poolIndex owner name descriptor ∧ i.a.toInt = i.poolIndex.toNat := by
  rw [h.op, isInvoke_opcode] at hi
  cases h with
  | integers hm _ => cases hm.symm.trans hi
  | label hm _ _ => cases (isInvoke_of_isBranch hm).symm.trans hi
  | @call t owner name descriptor index _ hsplit hmethod =>
    have hlt := index.toNat_lt
    refine ⟨t, owner, name, descriptor, rfl, hsplit, ?_, ?_⟩
    · rwa [poolIndex_ofNat]
    · rw [poolIndex_ofNat]
      exact Int32.toInt_ofNat_of_lt (by omega)

section

variable {c : ClassDecl} {d : ClassDef} {b : PoolBuilder} {text : Bytes} {i : Instruction}

/-- A call has the index of the method that its operand names. -/
theorem TranslatesClass.callee (h : TranslatesClass c d b)
    (hspelled : c.Spelled) (hcall : Call c d text i) :
    ∃ owner name descriptor, splitReference text c.name = .ok (owner, name, descriptor) ∧
      b.pool.MethodAt i.poolIndex owner name descriptor ∧ i.a.toInt = i.poolIndex.toNat := by
  obtain @⟨n, k, m, md, code, line, i, t, hm, hmd, hcode, hline, hi, hinvoke, ht⟩ := hcall
  obtain ⟨code', hcode', hmethod⟩ := forall₂_getElem? h.methods hm hmd
  cases hcode.symm.trans hcode'
  obtain ⟨mnemonic, -, htranslates⟩ := forall₂_getElem? hmethod.lines hline hi
  obtain ⟨t', owner, name, descriptor, ht', hsplit, hindex⟩ := htranslates.callee hinvoke
  cases ht.symm.trans ht'
  have hmem : line ∈ m.body.toList := List.mem_of_mem_filter (List.mem_of_getElem? hline)
  have hspelled : t.Spelled :=
    (hspelled m (Array.mem_toList_iff.1 (List.mem_of_getElem? hm)) line
      (Array.mem_toList_iff.1 hmem)).operands t (ht ▸ List.mem_singleton_self t)
  rw [← hspelled.written_eq (signature_of_splitReference hsplit).1] at hsplit
  exact ⟨owner, name, descriptor, hsplit, hindex⟩

/-- Two calls have one index exactly when their operands have the same parts. -/
theorem TranslatesClass.index_eq_iff (h : TranslatesClass c d b)
    (hspelled : c.Spelled) {text' : Bytes} {j : Instruction}
    (hi : Call c d text i) (hj : Call c d text' j) :
    i.a = j.a ↔ splitReference text c.name = splitReference text' c.name := by
  obtain ⟨owner, name, descriptor, hsplit, hmethod, hindex⟩ := h.callee hspelled hi
  obtain ⟨owner', name', descriptor', hsplit', hmethod', hindex'⟩ := h.callee hspelled hj
  rw [hsplit, hsplit', Except.ok.injEq, Prod.mk.injEq, Prod.mk.injEq]
  constructor
  · intro ha
    have hsame : i.poolIndex = j.poolIndex := by rw [Instruction.poolIndex, ha]; rfl
    exact hmethod.unique (hsame ▸ hmethod')
  · rintro ⟨rfl, rfl, rfl⟩
    have hsame := h.distinct.nodup.methodAt_unique hmethod hmethod'
    rw [← Int32.toInt_inj, hindex, hindex', hsame]

theorem TranslatesClass.callsThrough (h : TranslatesClass c d b)
    (hspelled : c.Spelled) (hcall : Call c d text i) :
    CallsThrough (Pool.ofEntries d.constants) (signatureOf d.name text) i := by
  obtain ⟨owner, name, descriptor, hsplit, hmethod, hindex⟩ := h.callee hspelled hcall
  rw [h.pool_eq, h.name, ← (signature_of_splitReference hsplit).2]
  obtain ⟨e, he, htag⟩ := hmethod.methodRef
  exact ⟨hindex, ⟨e, Pool.holds_iff.1 he, htag⟩, hmethod.denotes.resolve⟩

/-- Every invocation in the code of a class is a call that is written. -/
theorem TranslatesClass.call_of_mem (h : TranslatesClass c d b) {md : MethodDef}
    (hmd : md ∈ d.methodList) : ∃ code, md.code = some code ∧
      ∀ i ∈ code, i.op.isInvoke = true → ∃ text, Call c d text i := by
  obtain ⟨n, hn⟩ := List.mem_iff_getElem?.1 hmd
  obtain ⟨m, hm, code, hcode, hmethod⟩ := exists_getElem?_of_forall₂ h.methods hn
  refine ⟨code, hcode, fun i hi hinvoke => ?_⟩
  obtain ⟨k, hk⟩ := List.mem_iff_getElem?.1 hi
  obtain ⟨line, hline, mnemonic, -, htranslates⟩ := exists_getElem?_of_forall₂ hmethod.lines hk
  obtain ⟨t, -, -, -, ht, -⟩ := htranslates.callee hinvoke
  exact ⟨t.written, .mk hm hn hcode hline hk hinvoke ht⟩

theorem TranslatesClass.linked (h : TranslatesClass c d b) (hspelled : c.Spelled) :
    Linked c d := by
  have hconstants : d.constants = b.entries.toList := by
    rw [ClassDef.constants, h.pool, Option.getD_some]
  constructor
  case pool => rw [h.pool, hconstants]
  case placeholder =>
    obtain ⟨rest, hrest⟩ := h.distinct.built.grows
    have hentries : b.entries.toList = .placeholder :: rest := hrest.symm
    rw [hconstants, hentries, List.head?_cons]
  case room =>
    rw [hconstants, Array.length_toList]
    exact Nat.lt_of_not_le (of_decide_eq_false h.room)
  case distinct => exact hconstants ▸ h.distinct.nodup
  case written => exact fun md hmd => h.call_of_mem hmd
  case resolves => exact fun hcall => h.callsThrough hspelled hcall
  case shared => exact fun hi hj => (h.index_eq_iff hspelled hi hj).2 rfl
  case separate =>
    intro text text' i j hi hj hne ha
    rw [h.name] at hne
    have hsame := (h.index_eq_iff hspelled hi hj).1 ha
    obtain ⟨owner, name, descriptor, hsplit, -⟩ := h.callee hspelled hi
    have hsignature := (signature_of_splitReference hsplit).2
    rw [hsame] at hsplit
    exact hne (hsignature.symm.trans (signature_of_splitReference hsplit).2)

end

/-- In the classes of an accepted source the pool has each constant once, and every call leads
through its index to the signature that its operand names. -/
theorem assemble_linked {source : Bytes} {defs : List ClassDef} (h : assemble source = .ok defs) :
    ∃ classes, parse source = .ok classes ∧ List.Forall₂ Linked classes defs := by
  obtain ⟨classes, hparse, htranslated⟩ := translated_of_assemble h
  exact ⟨classes, hparse, htranslated.imp fun c d ⟨hspelled, b, hd⟩ => hd.linked hspelled⟩

/-- Calls of two methods, one of them under both of its names. -/
def calling : Bytes :=
  Bytes.join "\n"
    ["class A", "method static f ()V", "return", "end", "method static main ()V",
      "invokestatic f:()V", "invokestatic A.f:()V", "invokestatic B.f:()V",
      "invokestatic f:()V", "return", "end", "end"]

theorem assemble_linked_calling :
    ∃ defs classes, assemble calling = .ok defs ∧ parse calling = .ok classes ∧
      List.Forall₂ Linked classes defs ∧ ∃ c ∈ classes[0]?, ∃ d ∈ defs[0]?, ∃ i j,
        Call c d "A.f:()V" i ∧ Call c d "B.f:()V" j ∧
        (Pool.ofEntries d.constants).resolve i.poolIndex = .ok "A.f:()V" ∧
        (Pool.ofEntries d.constants).resolve j.poolIndex = .ok "B.f:()V" ∧ i.a ≠ j.a := by
  have hsource : ∃ classes ∈ (parse calling).toOption, ∃ c ∈ classes[0]?,
      ∃ m ∈ c.methods.toList[1]?,
        (instructionLines m.body.toList).map (fun line => line.operands.map Token.written) =
          [[("f:()V" : Bytes)], ["A.f:()V"], ["B.f:()V"], ["f:()V"], []] := by decide +kernel
  have hcode : ∃ defs ∈ (assemble calling).toOption, ∃ d ∈ defs[0]?, ∃ md ∈ d.methodList[1]?,
      ∃ code ∈ md.code, code.map (fun i => i.op.isInvoke) = [true, true, true, true, false] := by
    decide +kernel
  obtain ⟨classes, hparse, c, hc, m, hm, htexts⟩ := hsource
  obtain ⟨defs, hdefs, d, hd, md, hmd, code, hcode, hinvokes⟩ := hcode
  have hparse := eq_ok_of_mem_toOption hparse
  have hdefs := eq_ok_of_mem_toOption hdefs
  obtain ⟨classes', hparse', hlinked⟩ := assemble_linked hdefs
  cases hparse.symm.trans hparse'
  have hcall {k : Nat} {text : Bytes}
      (htext : [[("f:()V" : Bytes)], ["A.f:()V"], ["B.f:()V"], ["f:()V"], []][k]? = some [text])
      (hinvoke : [true, true, true, true, false][k]? = some true) : ∃ i, Call c d text i := by
    rw [← htexts, List.getElem?_map] at htext
    rw [← hinvokes, List.getElem?_map] at hinvoke
    obtain ⟨line, hline, htext⟩ := Option.map_eq_some_iff.1 htext
    obtain ⟨i, hi, hinvoke⟩ := Option.map_eq_some_iff.1 hinvoke
    obtain ⟨t, ht, rfl⟩ := List.map_eq_singleton_iff.1 htext
    exact ⟨i, .mk hm hmd hcode hline hi hinvoke ht⟩
  have hlink := forall₂_getElem? hlinked hc hd
  obtain ⟨i, hi⟩ := hcall (k := 1) rfl rfl
  obtain ⟨j, hj⟩ := hcall (k := 2) rfl rfl
  exact ⟨defs, classes, hdefs, hparse, hlinked, c, hc, d, hd, i, j, hi, hj,
    (hlink.resolves hi).resolves, (hlink.resolves hj).resolves, hlink.separate hi hj nofun⟩

end MiniJvm.Assembly
