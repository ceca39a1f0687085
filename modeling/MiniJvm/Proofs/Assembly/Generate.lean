import Mathlib
import MiniJvm.Assembly.Generate
import MiniJvm.Proofs.Assembly.StackDepth
import MiniJvm.Proofs.Code.RoundTrip
import MiniJvm.Proofs.Machine.Frame
import MiniJvm.Proofs.Pool.Growth

/-!
# What generation gives

Generation only adds problems and constants, so a source without problems had none at any point.
Each of its classes is then the definition of a declared one (`generate_spec`): every instruction
is known and addresses a small slot, and every size is the one of the header or the inferred one.
-/

namespace MiniJvm.Assembly

/-- A supported instruction with a slot that fits a byte. -/
structure Proper (i : Instruction) : Prop where
  known : i.op.known = true
  slot : ∀ {slot}, i.slot? = some slot → 0 ≤ slot ∧ slot ≤ 255

theorem known_opcode (m : Mnemonic) : m.opcode.known = true := Code.known_iff.2 ⟨m, rfl⟩

/-- An instruction that addresses the slot in its operand or none. -/
theorem proper_mk {m : Mnemonic} {a b : Int32} (ha : 0 ≤ a.toInt ∧ a.toInt ≤ 255) :
    Proper ⟨m.opcode, a, b⟩ := by
  refine ⟨known_opcode m, fun {slot} hs => ?_⟩
  rw [Instruction.slot?_eq (m := m) rfl] at hs
  cases m <;> cases hs <;> first | exact ha | decide

/-- An instruction whose operand is no slot. -/
theorem proper_of_slot?_none {i : Instruction} {m : Mnemonic} (hop : i.op = m.opcode)
    (hs : i.slot? = none) : Proper i :=
  ⟨hop ▸ known_opcode m, fun h => absurd (hs.symm.trans h) nofun⟩

theorem intOperand_ok {t : Token} {low high : Int} {a : Int32} (hlow : -2147483648 ≤ low)
    (hhigh : high ≤ 2147483647) (h : intOperand t low high = .ok a) :
    low ≤ a.toInt ∧ a.toInt ≤ high := by
  unfold intOperand at h
  split at h
  · split at h
    · cases h
    · rename_i v _ hv
      simp only [Bool.or_eq_true, decide_eq_true_eq] at hv
      cases h
      rw [Int32.toInt_ofInt_of_le (by omega) (by omega)]
      omega
  · cases h

/-- What a draft turns into is proper. -/
def Draft.Proper : Draft → Prop
  | .plain i => Assembly.Proper i
  | .call m _ _ _ => m.isInvoke = true

theorem draft_proper {labels : Labels} {self : Bytes} {m : Mnemonic} {operands : List Token}
    {d : Draft} (h : draft labels self m operands = .ok d) : d.Proper := by
  unfold draft at h
  split at h
  · obtain ⟨a, -, h⟩ := bind_eq_ok.1 h
    cases h
    exact proper_of_slot?_none (m := .bipush) rfl rfl
  · obtain ⟨a, -, h⟩ := bind_eq_ok.1 h
    cases h
    exact proper_of_slot?_none (m := .sipush) rfl rfl
  · obtain ⟨a, ha, h⟩ := bind_eq_ok.1 h
    cases h
    exact proper_mk (m := .iload) (intOperand_ok (by decide) (by decide) ha)
  · obtain ⟨a, ha, h⟩ := bind_eq_ok.1 h
    cases h
    exact proper_mk (m := .istore) (intOperand_ok (by decide) (by decide) ha)
  · obtain ⟨a, ha, h⟩ := bind_eq_ok.1 h
    obtain ⟨b, -, h⟩ := bind_eq_ok.1 h
    cases h
    exact proper_mk (m := .iinc) (intOperand_ok (by decide) (by decide) ha)
  · obtain ⟨a, -, h⟩ := bind_eq_ok.1 h
    cases h
    exact proper_of_slot?_none (m := .goto) rfl rfl
  · obtain ⟨a, -, h⟩ := bind_eq_ok.1 h
    cases h
    exact proper_of_slot?_none (m := .ifIcmplt) rfl rfl
  · obtain ⟨⟨owner, name, descriptor⟩, -, h⟩ := bind_eq_ok.1 h
    cases h
    rfl
  · obtain ⟨⟨owner, name, descriptor⟩, -, h⟩ := bind_eq_ok.1 h
    cases h
    rfl
  · cases h
    exact proper_mk (by decide)

theorem draftLine_proper {labels : Labels} {self : Bytes} {line : BodyLine} {d : Draft}
    (h : draftLine labels self line = .ok d) : d.Proper := by
  unfold draftLine at h
  split at h
  · cases h
  · split at h
    · cases h
    · split at h
      · rename_i hd
        cases h
        exact draft_proper hd
      · cases h

/-! ## Instructions -/

/-- Generation goes from `s` to `t`: constants and problems are only added. -/
structure GenState.Grows (s t : GenState) : Prop where
  pool : s.builder.pool.Grows t.builder.pool
  errors : s.errors.size ≤ t.errors.size

theorem GenState.Grows.refl (s : GenState) : s.Grows s := ⟨.refl _, Nat.le_refl _⟩

theorem GenState.Grows.trans {s t u : GenState} (h : s.Grows t) (h' : t.Grows u) : s.Grows u :=
  ⟨h.pool.trans h'.pool, h.errors.trans h'.errors⟩

theorem size_report (s : GenState) (pos : Position) (problem : Problem) :
    (s.report pos problem).errors.size = s.errors.size + 1 := Array.size_push _

theorem grows_report (s : GenState) (pos : Position) (problem : Problem) :
    s.Grows (s.report pos problem) :=
  ⟨.refl _, by rw [size_report]; exact Nat.le_succ _⟩

theorem grows_findLabels {s t : GenState} {labels labels' : Labels} {n : Nat}
    {lines : List BodyLine} (h : findLabels s labels n lines = (t, labels')) : s.Grows t := by
  induction lines generalizing s labels n with
  | nil =>
    cases h
    exact .refl _
  | cons line rest ih =>
    rw [findLabels] at h
    dsimp only at h
    split at h
    · exact ih h
    · split at h
      · exact (grows_report ..).trans (ih h)
      · exact ih h

theorem emit_call (s : GenState) (m : Mnemonic) (owner name descriptor : Bytes) :
    s.emit (.call m owner name descriptor) =
      (⟨(s.builder.addMethodRef owner name descriptor).2, s.errors⟩,
        ⟨m.opcode, Int32.ofNat (s.builder.addMethodRef owner name descriptor).1.toNat, 0⟩) := by
  rw [GenState.emit]

/-- Emitting a proper draft adds no problem and gives a proper instruction. -/
theorem emit_spec (s : GenState) {d : Draft} (hd : d.Proper) :
    s.Grows (s.emit d).1 ∧ (s.emit d).1.errors.size = s.errors.size ∧ Proper (s.emit d).2 := by
  cases d with
  | plain i => exact ⟨.refl s, rfl, hd⟩
  | call m owner name descriptor =>
    have hgrows := s.builder.grows_addMethodRef owner name descriptor
    have hm : m.isInvoke = true := hd
    rw [emit_call]
    generalize s.builder.addMethodRef owner name descriptor = added at hgrows
    refine ⟨⟨hgrows, Nat.le_refl _⟩, rfl, proper_of_slot?_none (m := m) rfl ?_⟩
    rw [Instruction.slot?_eq (m := m) rfl]
    cases m <;> simp [Mnemonic.isInvoke] at hm ⊢

theorem instructions_spec {s t : GenState} {labels : Labels} {self : Bytes}
    {reversed code : List Instruction} {lines : List BodyLine}
    (h : instructions s labels self reversed lines = (t, code)) :
    s.Grows t ∧ (t.errors.size = s.errors.size → (∀ i ∈ reversed, Proper i) →
      (∀ i ∈ code, Proper i) ∧ code.length ≤ reversed.length + lines.length) := by
  induction lines generalizing s reversed with
  | nil =>
    cases h
    exact ⟨.refl _, fun _ hrev => ⟨fun i hi => hrev i (List.mem_reverse.1 hi), by simp⟩⟩
  | cons line rest ih =>
    rw [instructions] at h
    split at h
    · obtain ⟨hgrows, hcode⟩ := ih h
      refine ⟨hgrows, fun hclean hrev => ?_⟩
      obtain ⟨hproper, hlen⟩ := hcode hclean hrev
      exact ⟨hproper, by rw [List.length_cons]; omega⟩
    · split at h
      · rename_i d hd
        obtain ⟨hemit, hsame, hi⟩ := emit_spec s (draftLine_proper hd)
        obtain ⟨hgrows, hcode⟩ := ih h
        refine ⟨hemit.trans hgrows, fun hclean hrev => ?_⟩
        obtain ⟨hproper, hlen⟩ := hcode (hclean.trans hsame.symm)
          (List.forall_mem_cons.2 ⟨hi, hrev⟩)
        exact ⟨hproper, by rw [List.length_cons] at hlen ⊢; omega⟩
      · obtain ⟨hgrows, -⟩ := ih h
        have herrors := hgrows.errors
        rw [size_report] at herrors
        exact ⟨(grows_report ..).trans hgrows, fun hclean _ => by omega⟩

/-! ## Sizes -/

/-- The slots up to the one that an instruction addresses. -/
def slotsOf (i : Instruction) : Nat := (i.slot?.getD (-1) + 1).toNat

theorem maxLocals_eq (code : List Instruction) (argSlots : Nat) (static : Bool) :
    maxLocals code argSlots static =
      code.foldl (fun n i => max n (slotsOf i)) (if static then argSlots else argSlots + 1) := rfl

theorem le_foldl_max (code : List Instruction) (n : Nat) :
    n ≤ code.foldl (fun n i => max n (slotsOf i)) n := by
  induction code generalizing n with
  | nil => exact Nat.le_refl n
  | cons i rest ih => exact (Nat.le_max_left ..).trans (ih _)

theorem slotsOf_le_foldl_max {code : List Instruction} {i : Instruction} (hi : i ∈ code)
    (n : Nat) : slotsOf i ≤ code.foldl (fun n i => max n (slotsOf i)) n := by
  induction code generalizing n with
  | nil => cases hi
  | cons j rest ih =>
    rcases List.mem_cons.1 hi with rfl | hi
    · exact (Nat.le_max_right ..).trans (le_foldl_max ..)
    · exact ih hi _

theorem foldl_max_le {code : List Instruction} {n bound : Nat} (hn : n ≤ bound)
    (h : ∀ i ∈ code, slotsOf i ≤ bound) :
    code.foldl (fun n i => max n (slotsOf i)) n ≤ bound := by
  induction code generalizing n with
  | nil => exact hn
  | cons i rest ih =>
    obtain ⟨hi, hrest⟩ := List.forall_mem_cons.1 h
    exact ih (Nat.max_le.2 ⟨hn, hi⟩) hrest

theorem argSlots_le_maxLocals (code : List Instruction) (argSlots : Nat) (static : Bool) :
    (if static then argSlots else argSlots + 1) ≤ maxLocals code argSlots static :=
  maxLocals_eq .. ▸ le_foldl_max ..

theorem slot_lt_maxLocals {code : List Instruction} {i : Instruction} (hi : i ∈ code) {slot : Int}
    (hs : i.slot? = some slot) (argSlots : Nat) (static : Bool) :
    slot < maxLocals code argSlots static := by
  have hle := slotsOf_le_foldl_max hi (if static then argSlots else argSlots + 1)
  rw [slotsOf, hs, ← maxLocals_eq] at hle
  simp only [Option.getD_some] at hle
  omega

/-- Beyond the arguments no more slots are inferred than a byte can tell apart. -/
theorem maxLocals_le {code : List Instruction} (h : ∀ i ∈ code, Proper i) (argSlots : Nat)
    (static : Bool) : maxLocals code argSlots static ≤ max (argSlots + 1) 256 := by
  rw [maxLocals_eq]
  refine foldl_max_le (by split <;> omega) fun i hi => ?_
  rw [slotsOf]
  cases hs : i.slot? with
  | none => simp
  | some slot =>
    have hslot := (h i hi).slot hs
    rw [Option.getD_some]
    omega

/-! ## Methods and classes -/

theorem exists_getElem?_of_forall₂ {α β : Type} {R : α → β → Prop} {xs : List α} {ys : List β}
    (h : List.Forall₂ R xs ys) {k : Nat} {y : β} (hy : ys[k]? = some y) :
    ∃ x, xs[k]? = some x ∧ R x y := by
  obtain ⟨hlength, hget⟩ := List.forall₂_iff_get.1 h
  obtain ⟨hk, rfl⟩ := List.getElem?_eq_some_iff.1 hy
  exact ⟨_, List.getElem?_eq_getElem (hlength ▸ hk), hget k _ hk⟩

theorem forall₂_getElem? {α β : Type} {R : α → β → Prop} {xs : List α} {ys : List β}
    (h : List.Forall₂ R xs ys) {k : Nat} {x : α} {y : β} (hx : xs[k]? = some x)
    (hy : ys[k]? = some y) : R x y := by
  obtain ⟨x', hx', hR⟩ := exists_getElem?_of_forall₂ h hy
  cases hx.symm.trans hx'
  exact hR

theorem exists_of_forall₂ {α β : Type} {R : α → β → Prop} {xs : List α} {ys : List β}
    (h : List.Forall₂ R xs ys) {y : β} (hy : y ∈ ys) : ∃ x ∈ xs, R x y := by
  obtain ⟨k, hk⟩ := List.mem_iff_getElem?.1 hy
  obtain ⟨x, hx, hR⟩ := exists_getElem?_of_forall₂ h hk
  exact ⟨x, List.mem_of_getElem? hx, hR⟩

/-- `d` is the definition of `m` in a class with these constants. -/
structure GeneratedFrom (m : MethodDecl) (pool : Pool) (d : MethodDef) (p : Descriptor)
    (code : List Instruction) (stack : Nat) : Prop where
  name : d.name = m.name
  descriptor : d.descriptor = m.descriptor
  parsed : Descriptor.parse? m.descriptor = some p
  body : d.code = some code
  proper : ∀ i ∈ code, Proper i
  length : code.length ≤ m.body.size
  sizeLocals : d.maxLocals = Int64.ofNat (m.maxLocals.getD (maxLocals code p.slots m.static))
  sizeStack : d.maxStack = Int64.ofNat stack
  inferred : m.maxStack = none → ∃ small : Pool, small.Grows pool ∧ maxStack code small = .ok stack

def Generated (m : MethodDecl) (pool : Pool) (d : MethodDef) : Prop :=
  ∃ p code stack, GeneratedFrom m pool d p code stack

theorem Generated.mono {m : MethodDecl} {pool pool' : Pool} {d : MethodDef}
    (hp : pool.Grows pool') (h : Generated m pool d) : Generated m pool' d := by
  obtain ⟨p, code, stack, h⟩ := h
  refine ⟨p, code, stack, { h with inferred := fun hnone => ?_ }⟩
  obtain ⟨small, hsmall, hok⟩ := h.inferred hnone
  exact ⟨small, hsmall.trans hp, hok⟩

theorem stackSize_spec (s : GenState) (m : MethodDecl) (code : List Instruction) :
    s.Grows (stackSize s m code).1 ∧
      ((stackSize s m code).1.errors.size = s.errors.size → m.maxStack = none →
        maxStack code s.builder.pool = .ok (stackSize s m code).2) := by
  unfold stackSize
  cases m.maxStack with
  | some n => exact ⟨.refl s, fun _ => nofun⟩
  | none =>
    dsimp only
    cases hn : maxStack code s.builder.pool with
    | ok n => exact ⟨.refl s, fun _ _ => rfl⟩
    | error problem =>
      refine ⟨grows_report .., fun hclean => ?_⟩
      rw [size_report] at hclean
      omega

theorem method_spec {s t : GenState} {self : Bytes} {m : MethodDecl} {d : MethodDef}
    (h : method s self m = (t, d)) :
    s.Grows t ∧ (t.errors.size = s.errors.size → Generated m t.builder.pool d) := by
  unfold method at h
  dsimp only at h
  split at h
  · cases h
    refine ⟨grows_report .., fun hclean => ?_⟩
    rw [size_report] at hclean
    omega
  · rename_i p hp
    rcases hlabels : findLabels s {} 0 m.body.toList with ⟨s₁, labels⟩
    rcases hcode : instructions s₁ labels self [] m.body.toList with ⟨s₂, code⟩
    rw [hlabels] at h
    dsimp only at h
    rw [hcode] at h
    dsimp only at h
    have hgrows₁ := grows_findLabels hlabels
    obtain ⟨hgrows₂, hproper⟩ := instructions_spec hcode
    split at h
    · cases h
      refine ⟨hgrows₁.trans hgrows₂, fun hclean => ?_⟩
      have := hgrows₁.errors
      omega
    · rename_i hfound
      have hclean₂ : s₂.errors.size = s₁.errors.size := by
        have := hgrows₂.errors
        omega
      obtain ⟨hall, hlen⟩ := hproper hclean₂ nofun
      obtain ⟨hgrows₃, hstack⟩ := stackSize_spec s₂ m code
      cases h
      refine ⟨(hgrows₁.trans hgrows₂).trans hgrows₃, fun hclean => ⟨p, code, _, rfl, rfl, hp, rfl,
        hall, ?_, rfl, rfl, fun hnone => ⟨_, hgrows₃.pool, hstack ?_ hnone⟩⟩⟩
      · rw [List.length_nil, Nat.zero_add, Array.length_toList] at hlen
        exact hlen
      · have := hgrows₁.errors
        have := hgrows₃.errors
        omega

/-- What each method has when it is generated without a problem, they all have in the final pool.
The invariant of the builder is what the methods before it keep. -/
theorem methods_each {self : Bytes} {P : PoolBuilder → Prop}
    {R : Pool → MethodDecl → MethodDef → Prop}
    (mono : ∀ {p q : Pool} {m d}, p.Grows q → R p m d → R q m d)
    (each : ∀ {s t m d}, P s.builder → method s self m = (t, d) →
      s.Grows t ∧ P t.builder ∧ (t.errors.size = s.errors.size → R t.builder.pool m d))
    {s t : GenState} {seen : List Bytes} {reversed defs : List MethodDef}
    {decls : List MethodDecl} (hs : P s.builder)
    (h : methods s self seen reversed decls = (t, defs)) :
    s.Grows t ∧ P t.builder ∧ (t.errors.size = s.errors.size →
      ∃ new, defs = reversed.reverse ++ new ∧ List.Forall₂ (R t.builder.pool) decls new) := by
  induction decls generalizing s seen reversed with
  | nil =>
    cases h
    exact ⟨.refl _, hs, fun _ => ⟨[], (List.append_nil _).symm, .nil⟩⟩
  | cons m rest ih =>
    rw [methods] at h
    dsimp only at h
    split at h
    · obtain ⟨hgrows, ht, -⟩ := ih (s := s.report ..) hs h
      refine ⟨(grows_report ..).trans hgrows, ht, fun hclean => ?_⟩
      have herrors := hgrows.errors
      rw [size_report] at herrors
      omega
    · rcases hm : method s self m with ⟨s₁, d⟩
      rw [hm] at h
      dsimp only at h
      obtain ⟨hgrows₁, hs₁, hd⟩ := each hs hm
      obtain ⟨hgrows, ht, hrest⟩ := ih hs₁ h
      refine ⟨hgrows₁.trans hgrows, ht, fun hclean => ?_⟩
      have h₁ := hgrows₁.errors
      have h₂ := hgrows.errors
      obtain ⟨new, rfl, hall⟩ := hrest (by omega)
      exact ⟨d :: new, by simp, .cons (mono hgrows.pool (hd (by omega))) hall⟩

theorem methods_spec {s t : GenState} {self : Bytes} {seen : List Bytes}
    {reversed defs : List MethodDef} {decls : List MethodDecl}
    (h : methods s self seen reversed decls = (t, defs)) :
    s.Grows t ∧ (t.errors.size = s.errors.size → ∃ new, defs = reversed.reverse ++ new ∧
      List.Forall₂ (fun m d => Generated m t.builder.pool d) decls new) := by
  obtain ⟨hgrows, -, hall⟩ := methods_each (P := fun _ => True)
    (R := fun p m d => Generated m p d) (fun hp hd => hd.mono hp)
    (fun _ hm => ⟨(method_spec hm).1, trivial, (method_spec hm).2⟩) trivial h
  exact ⟨hgrows, hall⟩

structure GeneratedClass (c : ClassDecl) (d : ClassDef) : Prop where
  name : d.name = c.name
  methods : List.Forall₂ (fun m md => Generated m (Pool.ofEntries d.constants) md)
    c.methods.toList d.methodList

theorem methodList_given {c : ClassDef} {defs : List MethodDef}
    (h : c.methods = ClassDef.given defs) : c.methodList = defs := by
  rw [ClassDef.methodList, h, ClassDef.given]
  cases defs <;> rfl

def namesOf (c : ClassDecl) : PoolBuilder :=
  let builder := (PoolBuilder.start.addClass c.name).2
  if c.superName.isEmpty then builder else (builder.addClass c.superName).2

theorem grows_namesOf (c : ClassDecl) : PoolBuilder.start.pool.Grows (namesOf c).pool := by
  unfold namesOf
  dsimp only
  split
  · exact PoolBuilder.grows_addClass ..
  · exact (PoolBuilder.grows_addClass ..).trans (PoolBuilder.grows_addClass ..)

theorem classDef_eq (errors : Array SourceError) (c : ClassDecl) :
    classDef errors c =
      let (s, defs) := methods ⟨namesOf c, errors⟩ c.name [] [] c.methods.toList
      let t := if s.builder.isFull then s.report c.pos (.poolOverflow c.name) else s
      (t.errors, { name := c.name, superName := c.superName,
                   pool := some t.builder.entries.toList, methods := ClassDef.given defs }) := rfl

/-- `d` is generated from `c` without a problem: its methods take the generator from `s` to `t`,
which leaves the pool of the class. -/
structure GeneratedBy (c : ClassDecl) (d : ClassDef) (s t : GenState) : Prop where
  name : d.name = c.name
  start : s.builder = namesOf c
  methods : Assembly.methods s c.name [] [] c.methods.toList = (t, d.methodList)
  clean : t.errors.size = s.errors.size
  room : t.builder.isFull = false
  pool : d.pool = some t.builder.entries.toList

theorem GeneratedBy.pool_eq {c : ClassDecl} {d : ClassDef} {s t : GenState}
    (h : GeneratedBy c d s t) (hgrows : s.Grows t) :
    Pool.ofEntries d.constants = t.builder.pool := by
  have hpool := hgrows.pool
  rw [h.start] at hpool
  rw [ClassDef.constants, h.pool, Option.getD_some]
  exact Pool.ofEntries_of_grows ((grows_namesOf c).trans hpool)

theorem classDef_spec {errors errors' : Array SourceError} {c : ClassDecl} {d : ClassDef}
    (h : classDef errors c = (errors', d)) :
    errors.size ≤ errors'.size ∧ (errors'.size = errors.size → ∃ s t, GeneratedBy c d s t) := by
  rw [classDef_eq] at h
  rcases hm : methods ⟨namesOf c, errors⟩ c.name [] [] c.methods.toList with ⟨t, defs⟩
  rw [hm] at h
  dsimp only at h
  have herrors : errors.size ≤ t.errors.size := (methods_spec hm).1.errors
  split at h
  · cases h
    rw [size_report]
    exact ⟨by omega, fun hclean => by omega⟩
  · rename_i hroom
    cases h
    refine ⟨herrors, fun hclean => ⟨⟨namesOf c, errors⟩, t, rfl, rfl, ?_, hclean, ?_, rfl⟩⟩
    · rw [methodList_given rfl]
      exact hm
    · exact Bool.not_eq_true _ ▸ hroom

theorem classDefs_spec {errors errors' : Array SourceError} {classes : List ClassDecl}
    {defs : List ClassDef} (h : classDefs errors classes = (errors', defs)) :
    errors.size ≤ errors'.size ∧ (errors'.size = errors.size →
      List.Forall₂ (fun c d => ∃ s t, GeneratedBy c d s t) classes defs) := by
  induction classes generalizing errors defs with
  | nil =>
    cases h
    exact ⟨Nat.le_refl _, fun _ => .nil⟩
  | cons c rest ih =>
    rw [classDefs] at h
    rcases hc : classDef errors c with ⟨errors₁, d⟩
    rcases hrest : classDefs errors₁ rest with ⟨errors₂, ds⟩
    rw [hc] at h
    dsimp only at h
    rw [hrest] at h
    cases h
    obtain ⟨hle₁, hd⟩ := classDef_spec hc
    obtain ⟨hle₂, hds⟩ := ih hrest
    exact ⟨hle₁.trans hle₂, fun hclean => .cons (hd (by omega)) (hds (by omega))⟩

/-- Each definition of an accepted source is generated from the declared class in its place. -/
theorem generatedBy_of_generate {classes : List ClassDecl} {defs : List ClassDef}
    (h : generate classes = .ok defs) :
    List.Forall₂ (fun c d => ∃ s t, GeneratedBy c d s t) classes defs := by
  unfold generate at h
  rcases hdefs : classDefs #[] classes with ⟨errors, ds⟩
  rw [hdefs] at h
  dsimp only at h
  split at h
  · rename_i hempty
    cases h
    have hsize : errors.size = 0 := by simpa using hempty
    exact (classDefs_spec hdefs).2 hsize
  · cases h

/-- Each definition of an accepted source is the one of the declared class in its place. -/
theorem generate_spec {classes : List ClassDecl} {defs : List ClassDef}
    (h : generate classes = .ok defs) : List.Forall₂ GeneratedClass classes defs := by
  refine (generatedBy_of_generate h).imp fun c d ⟨s, t, hd⟩ => ⟨hd.name, ?_⟩
  obtain ⟨hgrows, hall⟩ := methods_spec hd.methods
  obtain ⟨new, hnew, hall⟩ := hall hd.clean
  rw [hd.pool_eq hgrows, hnew]
  exact hall

theorem assemble_ok_iff {source : Bytes} {defs : List ClassDef} :
    assemble source = .ok defs ↔ ∃ classes, parse source = .ok classes ∧
      generate classes = .ok defs :=
  bind_eq_ok

end MiniJvm.Assembly
