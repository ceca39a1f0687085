import Mathlib
import MiniJvm.Assembly.StackDepth
import MiniJvm.ClassFile.Reader
import MiniJvm.Proofs.Code.RoundTrip
import MiniJvm.Proofs.Pool.Growth

/-!
# The depth of the operand stack

The pass over the paths of a method ends with a depth for every instruction it reached, and these
depths fit together: each instruction finds the values it takes, leaves no more than the result,
and leads to instructions that expect what it leaves (`maxStack_spec`).
-/

namespace MiniJvm.Assembly

/-- Control goes from the instruction at `pc` to an index: to the next one, unless the instruction
returns or always jumps, and to the operand of a jump. -/
inductive Goes (pc : Nat) (i : Instruction) : Int → Prop where
  | next : i.op ≠ Mnemonic.returnVoid.opcode → i.op ≠ Mnemonic.ireturn.opcode →
      i.op ≠ Mnemonic.goto.opcode → Goes pc i (pc + 1)
  | jump : i.op = Mnemonic.goto.opcode ∨ i.op = Mnemonic.ifIcmplt.opcode → Goes pc i i.a.toInt

theorem isReturn_iff {op : Opcode} :
    op.isReturn = true ↔ op = Mnemonic.returnVoid.opcode ∨ op = Mnemonic.ireturn.opcode := by
  constructor
  · intro h
    have hknown : op.known = true := by
      rw [Opcode.isReturn] at h
      rw [Opcode.known]
      cases hm : op.mnemonic? with
      | none => rw [hm] at h; cases h
      | some m => rfl
    obtain ⟨m, rfl⟩ := Code.known_iff.1 hknown
    rw [Opcode.isReturn, Mnemonic.mnemonic?_opcode] at h
    cases m with
    | ireturn => exact .inr rfl
    | returnVoid => exact .inl rfl
    | _ => cases h
  · rintro (rfl | rfl) <;> rfl

/-- The pass goes on where control goes. -/
theorem mem_successors_iff {pc : Nat} {i : Instruction} {t : Int} :
    t ∈ successors pc i ↔ Goes pc i t := by
  have hgoes : Goes pc i t ↔ (¬i.op.isReturn = true ∧ i.op ≠ Mnemonic.goto.opcode ∧ t = pc + 1) ∨
      ((i.op = Mnemonic.goto.opcode ∨ i.op = Mnemonic.ifIcmplt.opcode) ∧ t = i.a.toInt) := by
    rw [isReturn_iff, not_or]
    constructor
    · rintro (⟨hvoid, hvalue, hgoto⟩ | hjump)
      · exact .inl ⟨⟨hvoid, hvalue⟩, hgoto, rfl⟩
      · exact .inr ⟨hjump, rfl⟩
    · rintro (⟨⟨hvoid, hvalue⟩, hgoto, rfl⟩ | ⟨hjump, rfl⟩)
      · exact .next hvoid hvalue hgoto
      · exact .jump hjump
  rw [hgoes, successors]
  by_cases hgoto : i.op = Mnemonic.goto.opcode
  · simp [hgoto, show Mnemonic.goto.opcode.isReturn = false from rfl]
  by_cases hif : i.op = Mnemonic.ifIcmplt.opcode
  · simp [hif, show Mnemonic.ifIcmplt.opcode.isReturn = false from rfl,
      show Mnemonic.ifIcmplt.opcode ≠ Mnemonic.goto.opcode from nofun]
  by_cases hreturn : i.op.isReturn = true
  · simp [hgoto, hif, hreturn]
  · simp [hgoto, hif, hreturn]

/-- Control can come to an index, the end of the code included. -/
inductive Reachable (code : Array Instruction) : Nat → Prop where
  | start : Reachable code 0
  | step {pc t : Nat} {i : Instruction} : Reachable code pc → code[pc]? = some i →
      Goes pc i t → Reachable code t

/-- Control comes to index `t`, the end of the code included, with `d` values. -/
def Arrives (size : Nat) (depth : Nat → Option Nat) (d : Nat) (t : Int) : Prop :=
  ∃ k : Nat, t = k ∧ k ≤ size ∧ (k < size → depth k = some d)

/-- Instruction `pc`, when it is reached with `d` values, finds and leaves what it should. -/
def Respects (pool : Pool) (code : Array Instruction) (limit : Nat) (depth : Nat → Option Nat)
    (pc : Nat) : Prop :=
  ∀ {d : Nat} {i : Instruction}, depth pc = some d → code[pc]? = some i →
    ∃ e, stackEffect pool pc i = .ok e ∧ e.pops ≤ d ∧ d - e.pops + e.pushes ≤ limit ∧
      ∀ t ∈ successors pc i, Arrives code.size depth (d - e.pops + e.pushes) t

/-- Depths that fit together, none above the limit. -/
structure Balanced (pool : Pool) (code : Array Instruction) (limit : Nat)
    (depth : Nat → Option Nat) : Prop where
  start : 0 < code.size → depth 0 = some 0
  respects : ∀ pc, Respects pool code limit depth pc

namespace Exploration

/-- The depth before an instruction, if it was reached. -/
def depthAt (x : Exploration) (pc : Nat) : Option Nat := (x.depths[pc]?).getD none

/-- The number of instructions not reached yet. -/
def unknown (x : Exploration) : Nat := x.depths.toList.count none

/-- `y` keeps what `x` has found. -/
structure Extends (x y : Exploration) : Prop where
  depth : ∀ {pc d}, x.depthAt pc = some d → y.depthAt pc = some d
  deepest : x.deepest ≤ y.deepest

theorem Extends.refl (x : Exploration) : Extends x x := ⟨id, Nat.le_refl _⟩

theorem Extends.trans {x y z : Exploration} (h : Extends x y) (h' : Extends y z) : Extends x z :=
  ⟨fun hd => h'.depth (h.depth hd), h.deepest.trans h'.deepest⟩

end Exploration

open Exploration

theorem Arrives.mono {size d : Nat} {t : Int} {x y : Exploration} (h : Extends x y)
    (ha : Arrives size x.depthAt d t) : Arrives size y.depthAt d t := by
  obtain ⟨k, rfl, hk, hd⟩ := ha
  exact ⟨k, rfl, hk, fun hlt => h.depth (hd hlt)⟩

/-- What reaching targets with depth `d` adds: instructions at that depth that are to be
followed. -/
structure Reaching (x y : Exploration) (d : Nat) : Prop where
  ext : Extends x y
  size : y.depths.size = x.depths.size
  deepest : y.deepest = x.deepest
  work : ∀ pc ∈ x.work, pc ∈ y.work
  found : ∀ {pc e}, y.depthAt pc = some e →
    x.depthAt pc = some e ∨ e = d ∧ pc ∈ y.work ∧ y.unknown < x.unknown
  unknown : y.unknown ≤ x.unknown
  count : y.unknown + y.work.length = x.unknown + x.work.length

theorem Reaching.refl (x : Exploration) (d : Nat) : Reaching x x d :=
  ⟨.refl x, rfl, rfl, fun _ => id, .inl, Nat.le_refl _, rfl⟩

theorem Reaching.trans {x y z : Exploration} {d : Nat} (h : Reaching x y d)
    (h' : Reaching y z d) : Reaching x z d where
  ext := h.ext.trans h'.ext
  size := h'.size.trans h.size
  deepest := h'.deepest.trans h.deepest
  work pc hpc := h'.work pc (h.work pc hpc)
  found hd := by
    rcases h'.found hd with hd | ⟨he, hw, hu⟩
    · rcases h.found hd with hd | ⟨he, hw, hu⟩
      · exact .inl hd
      · exact .inr ⟨he, h'.work _ hw, h'.unknown.trans_lt hu⟩
    · exact .inr ⟨he, hw, hu.trans_le h.unknown⟩
  unknown := h'.unknown.trans h.unknown
  count := h'.count.trans h.count

theorem depthAt_set {x : Exploration} {k : Nat} (hk : k < x.depths.size) (d pc : Nat)
    (work : List Nat) :
    Exploration.depthAt { x with depths := x.depths.set! k (some d), work := work } pc =
      if k = pc then some d else x.depthAt pc := by
  unfold Exploration.depthAt
  rw [Array.set!_eq_setIfInBounds, Array.getElem?_setIfInBounds]
  by_cases h : k = pc
  · subst h
    simp [hk]
  · simp [h]

theorem unknown_set {x : Exploration} {k : Nat} (hk : x.depths[k]? = some none) (d : Nat)
    (work : List Nat) :
    Exploration.unknown { x with depths := x.depths.set! k (some d), work := work } + 1 =
      x.unknown := by
  obtain ⟨hlt, hnone⟩ := Array.getElem?_eq_some_iff.1 hk
  have hlen : k < x.depths.toList.length := by rwa [Array.length_toList]
  have hget : x.depths.toList[k] = none := by rw [Array.getElem_toList, hnone]
  have hpos : 0 < x.depths.toList.count none :=
    List.count_pos_iff.2 (hget ▸ List.getElem_mem hlen)
  unfold Exploration.unknown
  rw [Array.set!_eq_setIfInBounds, Array.toList_setIfInBounds, List.count_set hlen, hget]
  simp only [beq_self_eq_true, if_true, Option.beq_none, Option.isNone_some, Bool.false_eq_true,
    if_false]
  omega

theorem reach_spec {pc d : Nat} {i : Instruction} {x y : Exploration} {t : Int}
    (h : reach pc i d x t = .ok y) :
    Reaching x y d ∧ Arrives x.depths.size y.depthAt d t := by
  have stay := Reaching.refl x d
  unfold reach at h
  split at h
  · rename_i hend
    cases h
    exact ⟨stay, _, hend, Nat.le_refl _, fun hlt => absurd hlt (Nat.lt_irrefl _)⟩
  split at h
  · cases h
  obtain ⟨k, rfl⟩ : ∃ k : Nat, t = k := Int.eq_ofNat_of_zero_le (by omega)
  rw [Int.toNat_natCast] at h
  split at h
  · cases h
  · rename_i hk
    cases h
    obtain ⟨hlt, -⟩ := Array.getElem?_eq_some_iff.1 hk
    have hnone : x.depthAt k = none := by rw [Exploration.depthAt, hk]; rfl
    have hunknown := unknown_set hk d (k :: x.work)
    refine ⟨⟨⟨fun {pc e} hd => ?_, Nat.le_refl _⟩, by simp, rfl, fun pc => List.mem_cons_of_mem _,
      fun {pc e} hd => ?_, by omega, ?_⟩, k, rfl, hlt.le, fun _ => ?_⟩
    · rw [depthAt_set hlt, if_neg (fun heq => by rw [← heq, hnone] at hd; cases hd)]
      exact hd
    · rw [depthAt_set hlt] at hd
      split at hd
      · rename_i heq
        cases hd
        exact .inr ⟨rfl, heq ▸ List.mem_cons_self, by omega⟩
      · exact .inl hd
    · rw [List.length_cons]
      omega
    · rw [depthAt_set hlt, if_pos rfl]
  · rename_i known hk
    split at h
    · rename_i heq
      cases h
      obtain ⟨hlt, -⟩ := Array.getElem?_eq_some_iff.1 hk
      refine ⟨stay, k, rfl, hlt.le, fun _ => ?_⟩
      rw [Exploration.depthAt, hk, heq]
      rfl
    · cases h

theorem reachAll_spec {pc d : Nat} {i : Instruction} {targets : List Int} {x y : Exploration}
    (h : targets.foldlM (reach pc i d) x = .ok y) :
    Reaching x y d ∧ ∀ t ∈ targets, Arrives x.depths.size y.depthAt d t := by
  induction targets generalizing x with
  | nil => cases h; exact ⟨.refl _ d, nofun⟩
  | cons t rest ih =>
    rw [List.foldlM_cons] at h
    cases hr : reach pc i d x t with
    | error e => rw [hr] at h; cases h
    | ok z =>
      rw [hr] at h
      obtain ⟨hz, ht⟩ := reach_spec hr
      obtain ⟨hy, hrest⟩ := ih h
      refine ⟨hz.trans hy, fun u hu => ?_⟩
      rcases List.mem_cons.1 hu with rfl | hu
      · exact ht.mono hy.ext
      · rw [← hz.size]
        exact hrest u hu

theorem follow_eq {code : Array Instruction} {pool : Pool} {pc d : Nat} {i : Instruction}
    {x : Exploration} (hi : code[pc]? = some i) (hx : x.depths[pc]? = some (some d)) :
    follow code pool pc x =
      match stackEffect pool pc i with
      | .error problem => .error problem
      | .ok e =>
        if d < e.pops then .error (.underflow pc i)
        else (successors pc i).foldlM (reach pc i (d - e.pops + e.pushes))
          { x with deepest := max x.deepest (d - e.pops + e.pushes) } := by
  unfold follow
  rw [hi, hx]
  dsimp only
  cases stackEffect pool pc i with
  | error problem => rfl
  | ok e =>
    simp only [bind, Except.bind]

/-- A followed instruction respects the depths. -/
theorem follow_spec {code : Array Instruction} {pool : Pool} {pc d : Nat} {i : Instruction}
    {x y : Exploration} (hi : code[pc]? = some i) (hd : x.depthAt pc = some d)
    (h : follow code pool pc x = .ok y) :
    ∃ e, stackEffect pool pc i = .ok e ∧ e.pops ≤ d ∧
      Reaching { x with deepest := max x.deepest (d - e.pops + e.pushes) } y
        (d - e.pops + e.pushes) ∧
      ∀ t ∈ successors pc i, Arrives x.depths.size y.depthAt (d - e.pops + e.pushes) t := by
  have hx : x.depths[pc]? = some (some d) := by
    rw [Exploration.depthAt] at hd
    cases hx : x.depths[pc]? with
    | none => rw [hx] at hd; cases hd
    | some o => rw [hx] at hd; exact congrArg some hd
  rw [follow_eq hi hx] at h
  cases he : stackEffect pool pc i with
  | error problem => simp only [he] at h; cases h
  | ok e =>
    simp only [he] at h
    split at h
    · cases h
    · obtain ⟨hreach, harrive⟩ := reachAll_spec h
      exact ⟨e, rfl, by omega, hreach, harrive⟩

theorem follow_unknown {code : Array Instruction} {pool : Pool} {pc : Nat} {x y : Exploration}
    (hd : x.depthAt pc = none) (h : follow code pool pc x = .ok y) : y = x := by
  unfold follow at h
  split at h
  · rename_i hx
    rw [Exploration.depthAt, hx] at hd
    cases hd
  · exact (Except.ok.inj h).symm

/-- A call leaves at most one value, as every other instruction does. -/
theorem pushes_le_one {pool : Pool} {pc : Nat} {i : Instruction} {e : Effect}
    (h : stackEffect pool pc i = .ok e) : e.pushes ≤ 1 := by
  unfold stackEffect at h
  split at h
  · split at h
    · cases h
    · dsimp only at h
      split at h
      · cases h
      · cases h
        dsimp only
        split <;> omega
  · cases h
    cases i.op.mnemonic? with
    | none => exact Nat.zero_le 1
    | some m => cases m <;> decide

/-- What holds between two instructions that are followed, with at most `most` of them left. -/
structure Explored (pool : Pool) (code : Array Instruction) (most : Nat) (x : Exploration) :
    Prop where
  size : x.depths.size = code.size
  start : x.depthAt 0 = some 0
  pending : ∀ pc, pc ∈ x.work ∨ Respects pool code x.deepest x.depthAt pc
  bounded : ∀ {pc d}, x.depthAt pc = some d → d + 1 + x.unknown ≤ code.size
  deepest : x.deepest ≤ code.size
  count : x.unknown + x.work.length ≤ most

/-- An instruction that is taken from the work without being followed. -/
theorem Explored.skip {pool : Pool} {code : Array Instruction} {most pc : Nat}
    {work : List Nat} {x : Exploration} (hx : Explored pool code (most + 1) x)
    (hwork : x.work = pc :: work) (hr : Respects pool code x.deepest x.depthAt pc) :
    Explored pool code most { x with work } where
  size := hx.size
  start := hx.start
  pending k := by
    rcases hx.pending k with hk | hk
    · rw [hwork, List.mem_cons] at hk
      rcases hk with rfl | hk
      · exact .inr hr
      · exact .inl hk
    · exact .inr hk
  bounded := hx.bounded
  deepest := hx.deepest
  count := by
    have hcount := hx.count
    rw [hwork, List.length_cons] at hcount
    exact Nat.le_of_succ_le_succ hcount

theorem Explored.follow {pool : Pool} {code : Array Instruction} {most pc : Nat}
    {work : List Nat} {x y : Exploration} (hx : Explored pool code (most + 1) x)
    (hwork : x.work = pc :: work) (h : follow code pool pc { x with work } = .ok y) :
    Explored pool code most y := by
  cases hi : code[pc]? with
  | none =>
    have hy : y = { x with work } := by
      rw [Assembly.follow, hi] at h
      exact (Except.ok.inj h).symm
    exact hy ▸ hx.skip hwork fun _ hi' => absurd (hi.symm.trans hi') nofun
  | some i =>
    cases hd : x.depthAt pc with
    | none =>
      have hy : y = { x with work } := follow_unknown (x := { x with work }) hd h
      exact hy ▸ hx.skip hwork fun hd' _ => absurd (hd.symm.trans hd') nofun
    | some d =>
      obtain ⟨e, he, hpops, hreach, harrive⟩ := follow_spec (x := { x with work }) hi hd h
      have hpush := pushes_le_one he
      have hbound := hx.bounded hd
      have hunknown := hreach.unknown
      have hcount := hreach.count
      have hcount' := hx.count
      rw [hwork, List.length_cons] at hcount'
      refine ⟨hreach.size.trans hx.size, hreach.ext.depth hx.start, fun k => ?_, fun {k c} hk => ?_,
        ?_, ?_⟩
      · refine or_iff_not_imp_left.2 fun hk {c j} hc hj => ?_
        have hlimit : max x.deepest (d - e.pops + e.pushes) ≤ y.deepest := hreach.ext.deepest
        have hext : Extends x y := ⟨hreach.ext.depth, (le_max_left _ _).trans hlimit⟩
        rcases hreach.found hc with hc | ⟨-, hk', -⟩
        · by_cases heq : k = pc
          · subst heq
            cases hi.symm.trans hj
            cases hd.symm.trans hc
            refine ⟨e, he, hpops, (le_max_right _ _).trans hlimit, fun t ht => ?_⟩
            rw [← hx.size]
            exact harrive t ht
          · rcases hx.pending k with hw | hr
            · rw [hwork, List.mem_cons] at hw
              exact absurd (hreach.work k (hw.resolve_left heq)) hk
            · obtain ⟨e', he', hpops', hle, ht⟩ := hr hc hj
              exact ⟨e', he', hpops', hle.trans hext.deepest, fun t htm => (ht t htm).mono hext⟩
        · exact absurd hk' hk
      · rcases hreach.found hk with hk | ⟨rfl, -, hlt⟩
        · have := hx.bounded hk
          simp only [Exploration.unknown] at *
          omega
        · simp only [Exploration.unknown] at *
          omega
      · rw [hreach.deepest]
        have := hx.deepest
        simp only
        omega
      · simp only [Exploration.unknown] at *
        omega

theorem explore_spec {pool : Pool} {code : Array Instruction} {most : Nat} {x y : Exploration}
    (hx : Explored pool code most x) (h : explore code pool most x = .ok y) :
    ∃ left, Explored pool code left y ∧ y.work = [] := by
  induction most generalizing x with
  | zero =>
    cases h
    have hcount := hx.count
    exact ⟨0, hx, List.eq_nil_of_length_eq_zero (by omega)⟩
  | succ most ih =>
    rw [explore] at h
    cases hwork : x.work with
    | nil =>
      rw [hwork] at h
      cases h
      exact ⟨most + 1, hx, hwork⟩
    | cons pc work =>
      rw [hwork] at h
      dsimp only at h
      cases hf : follow code pool pc { x with work } with
      | error problem => rw [hf] at h; cases h
      | ok z =>
        rw [hf] at h
        exact ih (hx.follow hwork hf) h

theorem Explored.balanced {pool : Pool} {code : Array Instruction} {left : Nat} {x : Exploration}
    (h : Explored pool code left x) (hwork : x.work = []) :
    Balanced pool code x.deepest x.depthAt where
  start _ := h.start
  respects pc := (h.pending pc).resolve_left (by rw [hwork]; exact List.not_mem_nil)

/-- Where the paths of a method start. -/
def startOf (n : Nat) : Exploration :=
  ⟨(Array.replicate n (none : Option Nat)).set! 0 (some 0), [0], 0⟩

theorem depthAt_startOf {n : Nat} (h : 0 < n) (pc : Nat) :
    (startOf n).depthAt pc = if 0 = pc then some 0 else none := by
  let blank : Exploration := ⟨Array.replicate n none, [], 0⟩
  have hlt : 0 < blank.depths.size := by rwa [Array.size_replicate]
  rw [← show blank.depthAt pc = none by
    unfold Exploration.depthAt
    rw [Array.getElem?_replicate]
    split <;> rfl]
  exact depthAt_set hlt 0 pc [0]

theorem startOf_explored (pool : Pool) (code : Array Instruction) (h : 0 < code.size) :
    Explored pool code code.size (startOf code.size) := by
  let blank : Exploration := ⟨Array.replicate code.size none, [], 0⟩
  have hdepth := depthAt_startOf h
  have hunknown : (startOf code.size).unknown + 1 = code.size := by
    have hblank : blank.unknown = code.size := by
      rw [Exploration.unknown, Array.toList_replicate, List.count_replicate_self]
    have hnone : blank.depths[0]? = some none := by rw [Array.getElem?_replicate, if_pos h]
    have hset := unknown_set hnone 0 [0]
    rwa [hblank] at hset
  refine ⟨?_, by rw [hdepth, if_pos rfl], fun pc => ?_, fun {pc d} hd => ?_, Nat.zero_le _, ?_⟩
  · simp [startOf]
  · by_cases hpc : pc = 0
    · exact .inl (hpc ▸ List.mem_singleton_self 0)
    · refine .inr fun {d i} hd => ?_
      rw [hdepth, if_neg (Ne.symm hpc)] at hd
      cases hd
  · rw [hdepth] at hd
    split at hd
    · cases hd
      omega
    · cases hd
  · exact hunknown.le

/-- The greatest depth is one that the code can run with, and there is an instruction for every
value in it. -/
theorem maxStack_spec {code : List Instruction} {pool : Pool} {n : Nat}
    (h : maxStack code pool = .ok n) :
    n ≤ code.length ∧ ∃ depth, Balanced pool code.toArray n depth := by
  cases code with
  | nil =>
    cases h
    exact ⟨Nat.le_refl 0, fun _ => none, fun hlt => absurd hlt (Nat.lt_irrefl 0), fun _ => nofun⟩
  | cons i rest =>
    have hexplore : (explore (i :: rest).toArray pool (i :: rest).length
        (startOf (i :: rest).length)).map Exploration.deepest = .ok n := h
    cases hy : explore (i :: rest).toArray pool (i :: rest).length
        (startOf (i :: rest).length) with
    | error problem => rw [hy] at hexplore; cases hexplore
    | ok y =>
      rw [hy] at hexplore
      cases hexplore
      have hstart := startOf_explored pool (i :: rest).toArray (Nat.succ_pos _)
      obtain ⟨left, hleft, hwork⟩ := explore_spec hstart hy
      exact ⟨hleft.deepest, _, hleft.balanced hwork⟩

/-! ## Calls -/

/-- The effect of a call by a descriptor; a special call takes a receiver, too. -/
def callEffect (special : Bool) (d : Descriptor) : Effect :=
  ⟨d.slots + if special then 1 else 0, if d.void then 0 else 1⟩

theorem callEffect_injective (special : Bool) : Function.Injective (callEffect special) := by
  rintro ⟨slots, void⟩ ⟨slots', void'⟩ h
  obtain ⟨hpops, hpushes⟩ := Effect.mk.inj h
  obtain rfl := Nat.add_right_cancel hpops
  cases void <;> cases void' <;> first | rfl | cases hpushes

theorem stackEffect_call {pool : Pool} {i : Instruction} {signature : Bytes}
    (hi : i.op.isInvoke = true) (hr : pool.resolve i.poolIndex = .ok signature) (pc : Nat) :
    stackEffect pool pc i =
      match Descriptor.parse? (descriptorPart signature) with
      | none => .error (.badDescriptor pc i (descriptorPart signature))
      | some d => .ok (callEffect (decide (i.op = Mnemonic.invokespecial.opcode)) d) := by
  rw [stackEffect, if_pos hi, hr]
  dsimp only
  cases Descriptor.parse? (descriptorPart signature) with
  | none => rfl
  | some d => simp only [callEffect, decide_eq_true_eq]

theorem stackEffect_mono {p q : Pool} (h : p.Grows q) {pc : Nat} {i : Instruction} {e : Effect}
    (he : stackEffect p pc i = .ok e) : stackEffect q pc i = .ok e := by
  unfold stackEffect at he ⊢
  split at he
  · rename_i hinvoke
    rw [if_pos hinvoke]
    cases hr : p.resolve i.poolIndex with
    | error _ => rw [hr] at he; cases he
    | ok signature =>
      rw [hr] at he
      rw [h.resolve hr]
      exact he
  · rename_i hinvoke
    rwa [if_neg hinvoke]

/-- Depths that fit together still do when the pool has grown. -/
theorem Balanced.mono {p q : Pool} (h : p.Grows q) {code : Array Instruction} {limit : Nat}
    {depth : Nat → Option Nat} (hb : Balanced p code limit depth) :
    Balanced q code limit depth := by
  refine ⟨hb.start, fun pc {d i} hd hi => ?_⟩
  obtain ⟨e, he, hrest⟩ := hb.respects pc hd hi
  exact ⟨e, stackEffect_mono h he, hrest⟩

theorem descriptorPart_of_not_mem {descriptor : Bytes} (h : 58 ∉ descriptor) :
    descriptorPart descriptor = descriptor := by
  have hall : ∀ b ∈ descriptor.reverse, (b != 58) = true := by
    intro b hb
    rw [List.mem_reverse] at hb
    rw [bne_iff_ne]
    rintro rfl
    exact h hb
  rw [descriptorPart, List.takeWhile_eq_self_iff.2 hall, List.reverse_reverse]

/-- The last colon of a signature is one of its descriptor, unless that has none. -/
theorem descriptorPart_signature (owner name descriptor : Bytes) :
    descriptorPart (signature owner name descriptor) = descriptorPart descriptor := by
  have hcolon : (owner ++ "." ++ name ++ ":" : Bytes).reverse =
      58 :: (owner ++ "." ++ name : Bytes).reverse := List.reverse_append
  rw [descriptorPart, signature, List.reverse_append, hcolon, List.takeWhile_append,
    List.takeWhile_cons_of_neg (by decide), List.append_nil]
  split
  · rename_i hlength
    rw [descriptorPart, (List.takeWhile_prefix _).eq_of_length hlength]
  · rfl

end MiniJvm.Assembly
