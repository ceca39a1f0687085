import Mathlib
import MiniJvm.Proofs.Assembly.Generate
import MiniJvm.Proofs.Assembly.Parse
import MiniJvm.Proofs.Descriptor
import MiniJvm.Proofs.Machine.Load
import MiniJvm.Proofs.Machine.Soundness

/-!
# Assembled code is sound

Where sizes are left to inference, the classes of an accepted source load. If their methods
return what their descriptors say and a receiver is only passed to methods that have one, the
registry is sound, so no frame of any run breaks a rule.
-/

namespace MiniJvm.Assembly

open Registry

/-! ## Sizes -/

/-- The method leaves both of its sizes to inference. -/
structure MethodDecl.Open (m : MethodDecl) : Prop where
  maxStack : m.maxStack = none
  maxLocals : m.maxLocals = none

/-- The sizes of a definition are the inferred ones. -/
structure Inferred (m : MethodDecl) (pool : Pool) (d : MethodDef) (p : Descriptor)
    (code : List Instruction) (stack : Nat) : Prop where
  generated : GeneratedFrom m pool d p code stack
  balanced : ∃ depth, Balanced pool code.toArray stack depth
  maxStack : d.maxStack.toInt = stack
  maxLocals : d.maxLocals.toInt = Assembly.maxLocals code p.slots m.static
  slots : p.slots + 1 < 2 ^ 63

theorem GeneratedFrom.sizes {m : MethodDecl} {pool : Pool} {d : MethodDef} {p : Descriptor}
    {code : List Instruction} {stack size n : Nat} (h : GeneratedFrom m pool d p code stack)
    (hopen : m.Open) (hm : m.Within size n) (hsize : size < 2 ^ 62) (hn : n < 2 ^ 63) :
    Inferred m pool d p code stack := by
  obtain ⟨small, hsmall, hstack⟩ := h.inferred hopen.maxStack
  obtain ⟨hle, depth, hdepth⟩ := maxStack_spec hstack
  have hslots := Descriptor.slots_le h.parsed
  have hdescriptor := hm.descriptor
  have hlocals := maxLocals_le h.proper p.slots m.static
  have hlength := h.length.trans hm.body
  refine ⟨h, ⟨depth, hdepth.mono hsmall⟩, ?_, ?_, by omega⟩
  · rw [h.sizeStack, Int64.toInt_ofNat_of_lt (by omega)]
  · rw [h.sizeLocals, hopen.maxLocals, Option.getD_none, Int64.toInt_ofNat_of_lt (by omega)]

theorem Inferred.loadable {m : MethodDecl} {pool : Pool} {d : MethodDef} {p : Descriptor}
    {code : List Instruction} {stack : Nat} (h : Inferred m pool d p code stack) :
    Loadable d := by
  refine ⟨?_, Frame.not_neg_of_toInt h.maxStack, Frame.not_neg_of_toInt h.maxLocals⟩
  rw [h.generated.descriptor, h.generated.parsed]
  rfl

/-! ## Declarations of definitions -/

/-- The last declared class of a name. -/
def lastDeclared (classes : List ClassDecl) (name : Bytes) : Option ClassDecl :=
  classes.reverse.find? fun c => c.name == name

theorem find?_generated {classes : List ClassDecl} {defs : List ClassDef}
    (h : List.Forall₂ GeneratedClass classes defs) {name : Bytes} {d : ClassDef}
    (hd : defs.find? (fun d => d.name == name) = some d) :
    ∃ c, classes.find? (fun c => c.name == name) = some c ∧ GeneratedClass c d := by
  induction h with
  | nil => cases hd
  | @cons c d' classes defs hc _ ih =>
    rw [List.find?_cons] at hd ⊢
    rw [← hc.name]
    cases hname : d'.name == name with
    | true =>
      rw [hname] at hd
      cases hd
      exact ⟨c, rfl, hc⟩
    | false =>
      rw [hname] at hd
      exact ih hd

theorem lastNamed_generated {classes : List ClassDecl} {defs : List ClassDef}
    (h : List.Forall₂ GeneratedClass classes defs) {name : Bytes} {d : ClassDef}
    (hd : lastNamed defs name = some d) :
    ∃ c, lastDeclared classes name = some c ∧ GeneratedClass c d :=
  find?_generated (List.forall₂_reverse_iff.2 h) hd

/-! ## Accepted sources -/

/-- The classes of an accepted source with open sizes, and their definitions. -/
structure Accepted (classes : List ClassDecl) (defs : List ClassDef) (size n : Nat) : Prop where
  generated : List.Forall₂ GeneratedClass classes defs
  within : ∀ c ∈ classes, c.Within size n
  sizes : ∀ c ∈ classes, ∀ m ∈ c.methods, m.Open
  small : size < 2 ^ 62
  lines : n < 2 ^ 63

namespace Accepted

variable {classes : List ClassDecl} {defs : List ClassDef} {size n : Nat}

/-- Each definition of a method comes from a declared one, with inferred sizes. -/
theorem inferred (h : Accepted classes defs size n) {c : ClassDecl} {d : ClassDef}
    (hc : c ∈ classes) (hd : GeneratedClass c d) {md : MethodDef} (hmd : md ∈ d.methodList) :
    ∃ m ∈ c.methods, ∃ p code stack,
      Inferred m (Pool.ofEntries d.constants) md p code stack := by
  obtain ⟨m, hm, p, code, stack, hgen⟩ := exists_of_forall₂ hd.methods hmd
  rw [Array.mem_toList_iff] at hm
  exact ⟨m, hm, p, code, stack,
    hgen.sizes (h.sizes c hc m hm) ((h.within c hc).methods m hm) h.small h.lines⟩

theorem loadable (h : Accepted classes defs size n) : ∀ d ∈ defs, LoadableClass d := by
  intro d hd
  obtain ⟨c, hc, hgen⟩ := exists_of_forall₂ h.generated hd
  refine ⟨hgen.name ▸ (h.within c hc).name, fun md hmd => ?_⟩
  obtain ⟨m, -, p, code, stack, hm⟩ := h.inferred hc hgen hmd
  exact hm.loadable

end Accepted

theorem accepted_of_assemble {source : Bytes} {classes : List ClassDecl} {defs : List ClassDef}
    (hparse : parse source = .ok classes) (h : assemble source = .ok defs)
    (hsize : source.length < 2 ^ 62) (hopen : ∀ c ∈ classes, ∀ m ∈ c.methods, m.Open) :
    Accepted classes defs source.length (source.length + 2) := by
  obtain ⟨classes', hparse', hgen⟩ := assemble_ok_iff.1 h
  cases hparse.symm.trans hparse'
  exact ⟨generate_spec hgen, parse_within hparse, hopen, hsize, by omega⟩

/-- The method of the registry, with what it was declared as and what was inferred for it. -/
structure Origin (classes : List ClassDecl) (r : Registry) (m : Method) (decl : MethodDecl)
    (pool : Pool) (p : Descriptor) (stack : Nat) : Prop where
  runs : ∃ c, r.classes.get? m.owner = some c ∧ c.pool = some pool
  declared : ∃ c ∈ lastDeclared classes m.owner, decl ∈ c.methods
  name : decl.name = m.name
  descriptor : decl.descriptor = m.descriptor
  parsed : Descriptor.parse? m.descriptor = some p
  void : m.void = p.void
  argSlots : m.argSlots = Int64.ofNat p.slots
  slots : p.slots + 1 < 2 ^ 63
  maxStack : m.maxStack.toInt = stack
  maxLocals : m.maxLocals.toInt = Assembly.maxLocals m.code.toList p.slots decl.static
  proper : ∀ i ∈ m.code, Proper i
  balanced : ∃ depth, Balanced pool m.code stack depth

theorem Accepted.origin {classes : List ClassDecl} {defs : List ClassDef} {size n : Nat}
    (h : Accepted classes defs size n) {r : Registry} (hload : load defs = .ok r)
    {signature : Bytes} {m : Method} (hm : r.methods.get? signature = some m) :
    m.signature = signature ∧ ∃ decl pool p stack, Origin classes r m decl pool p stack := by
  have howned := load_owned hload
  obtain ⟨cls, hcls, hown⟩ := howned.methods hm
  obtain ⟨d, hlast, hof⟩ := howned.classes hcls
  obtain ⟨hsig, md, hmd, hmakes⟩ := hof.methods hown
  obtain ⟨c, hc, hgen⟩ := lastNamed_generated h.generated hlast
  have hmem : c ∈ classes := List.mem_reverse.1 (List.mem_of_find?_eq_some hc)
  obtain ⟨decl, hdecl, p, code, stack, hinf⟩ := h.inferred hmem hgen hmd
  obtain ⟨p', hp', hslots, hvoid⟩ := hmakes.parsed
  have hparsed := hinf.generated.parsed
  rw [← hinf.generated.descriptor] at hparsed
  cases hp'.symm.trans hparsed
  have hcode : m.code = code.toArray := by
    rw [hmakes.code, hinf.generated.body]
    rfl
  refine ⟨hsig, decl, _, p, stack, ⟨cls, hcls, hof.pool⟩, ⟨c, hc, hdecl⟩, ?_, ?_, ?_, hvoid, hslots,
    hinf.slots, ?_, ?_, ?_, ?_⟩
  · rw [hmakes.name, hinf.generated.name]
  · rw [hmakes.descriptor, hinf.generated.descriptor]
  · rw [hmakes.descriptor, hparsed]
  · rw [hmakes.maxStack, hinf.maxStack]
  · rw [hmakes.maxLocals, hinf.maxLocals, hcode]
  · rw [hcode]
    exact fun i hi => hinf.generated.proper i (List.mem_toArray.1 hi)
  · rw [hcode]
    exact hinf.balanced

/-! ## Disciplined code -/

/-- The declaration that a registered method comes from says `static`. -/
def DeclaredStatic (classes : List ClassDecl) (m : Method) : Prop :=
  ∃ c ∈ lastDeclared classes m.owner, ∃ decl ∈ c.methods,
    decl.name = m.name ∧ decl.descriptor = m.descriptor ∧ decl.static = true

/-- The registered methods return what their descriptors say, and pass a receiver only to methods
that have one. -/
structure Disciplined (classes : List ClassDecl) (r : Registry) : Prop where
  noValue : ∀ {signature m}, r.methods.get? signature = some m → m.void = true →
    ∀ i ∈ m.code, i.op ≠ Mnemonic.ireturn.opcode
  value : ∀ {signature m}, r.methods.get? signature = some m → m.void = false →
    ∀ pc, Reachable m.code pc →
      ∃ i, m.code[pc]? = some i ∧ i.op ≠ Mnemonic.returnVoid.opcode
  receiver : ∀ {signature m c pool i target callee}, r.methods.get? signature = some m →
    r.classes.get? m.owner = some c → c.pool = some pool → i ∈ m.code →
    i.op = Mnemonic.invokespecial.opcode → pool.resolve i.poolIndex = .ok target →
    r.methods.get? target = some callee → ¬DeclaredStatic classes callee

instance (classes : List ClassDecl) (m : Method) : Decidable (DeclaredStatic classes m) := by
  unfold DeclaredStatic
  infer_instance

/-- Every instruction leads to instructions, and none returns without a value. -/
def Closed (code : Array Instruction) : Prop :=
  0 < code.size ∧ ∀ pc < code.size, ∀ i ∈ code[pc]?,
    i.op ≠ Mnemonic.returnVoid.opcode ∧ ∀ t ∈ successors pc i, 0 ≤ t ∧ t < code.size

instance (code : Array Instruction) : Decidable (Closed code) := by
  unfold Closed
  infer_instance

theorem Closed.lt {code : Array Instruction} (h : Closed code) {pc : Nat}
    (hpc : Reachable code pc) : pc < code.size := by
  induction hpc with
  | start => exact h.1
  | step _ hi ht ih =>
    obtain ⟨-, hsucc⟩ := h.2 _ ih _ hi
    exact Int.ofNat_lt.1 (hsucc _ (mem_successors_iff.2 ht)).2

/-- What can be computed: code that is disciplined even where it is not reachable. -/
def Checked (classes : List ClassDecl) (r : Registry) : Prop :=
  ∀ item ∈ r.methods.items,
    (item.2.void = true → ∀ i ∈ item.2.code, i.op ≠ Mnemonic.ireturn.opcode) ∧
    (item.2.void = false → Closed item.2.code) ∧
    ∀ i ∈ item.2.code, i.op = Mnemonic.invokespecial.opcode →
      ∀ c ∈ r.classes.get? item.2.owner, ∀ pool ∈ c.pool,
        ∀ target ∈ (pool.resolve i.poolIndex).toOption, ∀ callee ∈ r.methods.get? target,
          ¬DeclaredStatic classes callee

instance (classes : List ClassDecl) (r : Registry) : Decidable (Checked classes r) := by
  unfold Checked
  infer_instance

theorem Checked.disciplined {classes : List ClassDecl} {r : Registry} (h : Checked classes r) :
    Disciplined classes r where
  noValue hm := (h _ (mem_of_get? hm)).1
  value hm hvoid pc hpc := by
    have hclosed := (h _ (mem_of_get? hm)).2.1 hvoid
    have hlt := hclosed.lt hpc
    have hget := Array.getElem?_eq_getElem hlt
    exact ⟨_, hget, (hclosed.2 pc hlt _ hget).1⟩
  receiver hm hc hpool hi hop hr hcallee :=
    (h _ (mem_of_get? hm)).2.2 _ hi hop _ hc _ hpool _ (by rw [hr]; rfl) _ hcallee

/-! ## Soundness -/

theorem toInt_callSlots {m : Method} {slots : Nat} (h : m.argSlots = Int64.ofNat slots)
    (hslots : slots + 1 < 2 ^ 63) (special : Bool) :
    (m.callSlots special).toInt = (slots + if special then 1 else 0 : Nat) := by
  have hone : Int64.ofNat slots + 1 = Int64.ofNat (slots + 1) := (Int64.ofNat_add ..).symm
  unfold Method.callSlots
  rw [h]
  split
  · rw [hone, Int64.toInt_ofNat_of_lt hslots]
  · exact Int64.toInt_ofNat_of_lt (by omega)

namespace Origin

variable {classes : List ClassDecl} {r : Registry} {m : Method} {decl : MethodDecl} {pool : Pool}
  {p : Descriptor} {stack : Nat}

theorem callSlots (h : Origin classes r m decl pool p stack) (special : Bool) :
    (m.callSlots special).toInt = (p.slots + if special then 1 else 0 : Nat) :=
  toInt_callSlots h.argSlots h.slots special

/-- A call by the descriptor of the method fits when a receiver is passed to none that lacks one. -/
theorem callFits (h : Origin classes r m decl pool p stack) {special : Bool}
    (hspecial : special = true → decl.static = false) :
    CallFits m special ⟨p.slots + if special then 1 else 0, if p.void then 0 else 1⟩ := by
  refine ⟨h.callSlots special, ?_, ?_⟩
  · have hle := argSlots_le_maxLocals m.code.toList p.slots decl.static
    rw [h.maxLocals]
    cases special with
    | true =>
      rw [hspecial rfl] at hle ⊢
      exact_mod_cast hle
    | false =>
      have hargs : p.slots ≤ if decl.static then p.slots else p.slots + 1 := by
        split
        · exact Nat.le_refl _
        · exact Nat.le_succ _
      exact_mod_cast hargs.trans hle
  · rw [Method.pushes, h.void]

end Origin

theorem stackEffect_invoke {pool : Pool} {pc : Nat} {i : Instruction} {e : Effect}
    {signature : Bytes} {p : Descriptor} (hi : i.op.isInvoke = true)
    (hr : pool.resolve i.poolIndex = .ok signature)
    (hp : Descriptor.parse? (descriptorPart signature) = some p)
    (he : stackEffect pool pc i = .ok e) :
    e = ⟨p.slots + if decide (i.op = Mnemonic.invokespecial.opcode) then 1 else 0,
      if p.void then 0 else 1⟩ := by
  rw [stackEffect_call hi hr, hp] at he
  cases he
  rfl

/-- The registry of an accepted source whose code is disciplined is sound. -/
theorem Accepted.sound {classes : List ClassDecl} {defs : List ClassDef} {size n : Nat}
    (h : Accepted classes defs size n)
    (hcolon : ∀ c ∈ classes, ∀ m ∈ c.methods, 58 ∉ m.descriptor) {r : Registry}
    (hload : load defs = .ok r) (hr : Disciplined classes r) : r.Sound := by
  intro signature m hm
  obtain ⟨-, decl, pool, p, stack, horigin⟩ := h.origin hload hm
  obtain ⟨c, hc, hpool⟩ := horigin.runs
  obtain ⟨depth, hdepth⟩ := horigin.balanced
  refine ⟨c, pool, depth, hc, hpool, ?_⟩
  refine ⟨?_, ?_, fun i hi => (horigin.proper i hi).known, fun i hi slot hs => ?_,
    hr.noValue hm, hr.value hm, ?_⟩
  · rw [horigin.maxStack]
    exact Int.natCast_nonneg _
  · rwa [horigin.maxStack]
  · rw [horigin.maxLocals]
    exact ⟨((horigin.proper i hi).slot hs).1, slot_lt_maxLocals (Array.mem_toList_iff.2 hi) hs ..⟩
  · intro pc i e target callee hi hinvoke he hresolve hcallee
    obtain ⟨hsig, decl', pool', p', stack', horigin'⟩ := h.origin hload hcallee
    obtain ⟨c', hc', hdecl'⟩ := horigin'.declared
    have hmem : c' ∈ classes := List.mem_reverse.1 (List.mem_of_find?_eq_some hc')
    have hpart : descriptorPart target = callee.descriptor := by
      rw [← hsig, ← horigin'.descriptor, Method.signature, ← horigin'.descriptor]
      rw [descriptorPart_signature, descriptorPart_of_not_mem (hcolon c' hmem decl' hdecl')]
    rw [stackEffect_invoke hinvoke hresolve (hpart ▸ horigin'.parsed) he]
    refine horigin'.callFits fun hspecial => ?_
    by_contra hstatic
    refine hr.receiver hm hc hpool hi (of_decide_eq_true hspecial) hresolve hcallee ?_
    exact ⟨c', hc', decl', hdecl', horigin'.name, horigin'.descriptor, by simpa using hstatic⟩

/-- Where all sizes are left to inference and no colon makes a signature ambiguous, the classes of
an accepted source load. In disciplined code no frame of any run breaks a rule: not the running
one, not a caller that is handed a value, and not the frame that a call or the start makes. The
bound on the source keeps the inferred sizes within 64 bits. -/
theorem assemble_sound {source : Bytes} {classes : List ClassDecl} {defs : List ClassDef}
    (hparse : parse source = .ok classes) (h : assemble source = .ok defs)
    (hsize : source.length < 2 ^ 62) (hopen : ∀ c ∈ classes, ∀ m ∈ c.methods, m.Open)
    (hcolon : ∀ c ∈ classes, ∀ m ∈ c.methods, 58 ∉ m.descriptor) :
    ∃ r, load defs = .ok r ∧ (Disciplined classes r →
      ∀ {entry m}, r.methods.get? entry = some m →
      ∀ {args : List Int32}, args.length ≤ m.maxLocals.toInt → ∀ fuel trace {status},
        (r.execute fuel entry args trace).outcome = .ended status →
        ∀ x, status.fault ≠ some (.frame x)) := by
  have haccepted := accepted_of_assemble hparse h hsize hopen
  obtain ⟨r, hload⟩ := load_ok haccepted.loadable
  refine ⟨r, hload, fun hr entry m hm args hargs fuel trace status hended x => ?_⟩
  exact execute_sound (haccepted.sound hcolon hload hr) hm hargs fuel trace hended x

/-- A method with a receiver, and one that calls it. -/
def doubling : Bytes :=
  Bytes.join "\n"
    ["class A", "method twice (I)I", "iload_1", "iload_1", "iadd", "ireturn", "end",
      "method static main ()V", "iconst_0", "bipush 7", "invokespecial A.twice:(I)I", "istore_0",
      "return", "end", "end"]

theorem assemble_sound_doubling :
    ∃ classes defs r m, parse doubling = .ok classes ∧ assemble doubling = .ok defs ∧
      doubling.length < 2 ^ 62 ∧ (∀ c ∈ classes, ∀ m ∈ c.methods, m.Open) ∧
      (∀ c ∈ classes, ∀ m ∈ c.methods, 58 ∉ m.descriptor) ∧ load defs = .ok r ∧
      Disciplined classes r ∧ r.methods.get? "A.main:()V" = some m ∧
      ∀ fuel trace status, (r.execute fuel "A.main:()V" [] trace).outcome = .ended status →
        ∀ x, status.fault ≠ some (.frame x) := by
  have hshape : ∃ classes ∈ (parse doubling).toOption,
      (∀ c ∈ classes, ∀ m ∈ c.methods, m.maxStack = none ∧ m.maxLocals = none) ∧
      ∀ c ∈ classes, ∀ m ∈ c.methods, 58 ∉ m.descriptor := by decide +kernel
  have hchecked : ∃ classes ∈ (parse doubling).toOption, ∃ defs ∈ (assemble doubling).toOption,
      ∃ r ∈ (load defs).toOption, Checked classes r ∧
      ∃ m ∈ r.methods.get? "A.main:()V", 0 ≤ m.maxLocals.toInt := by decide +kernel
  obtain ⟨classes, hparse, hopen, hcolon⟩ := hshape
  obtain ⟨classes', hparse', defs, hdefs, r, hload, hcheck, m, hm, hlocals⟩ := hchecked
  cases hparse.symm.trans hparse'
  have hopen' : ∀ c ∈ classes, ∀ m ∈ c.methods, m.Open :=
    fun c hc m hm => ⟨(hopen c hc m hm).1, (hopen c hc m hm).2⟩
  have hparse := eq_ok_of_mem_toOption hparse
  have hdefs := eq_ok_of_mem_toOption hdefs
  have hload := eq_ok_of_mem_toOption hload
  have hsize : doubling.length < 2 ^ 62 := by decide +kernel
  obtain ⟨r', hload', hsound⟩ := assemble_sound hparse hdefs hsize hopen' hcolon
  cases hload.symm.trans hload'
  have hargs : ([] : List Int32).length ≤ m.maxLocals.toInt := hlocals
  exact ⟨classes, defs, r, m, hparse, hdefs, hsize, hopen', hcolon, hload, hcheck.disciplined, hm,
    fun fuel trace status hended => hsound hcheck.disciplined hm hargs fuel trace hended⟩

end MiniJvm.Assembly
