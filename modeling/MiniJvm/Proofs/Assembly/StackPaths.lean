import Mathlib
import MiniJvm.Proofs.Assembly.StackDepth

/-!
# Depths on all paths

`Flows` adds up the effects along every path through a method, with no regard to an order in which
the paths are followed. The pass over the method, which follows each instruction once, succeeds
exactly when these depths fit together, and then gives the greatest of them, whichever pending
instruction it follows next (`maxStack_iff_consistent`).
-/

namespace MiniJvm.Assembly

/-! ## Paths -/

/-- A path leads to an instruction with a number of values, which is what the effects on the way
add up to. -/
inductive Flows (pool : Pool) (code : Array Instruction) : Nat → Int → Prop where
  | start : 0 < code.size → Flows pool code 0 0
  | step {pc t : Nat} {d : Int} {i : Instruction} {e : Effect} : Flows pool code pc d →
      code[pc]? = some i → stackEffect pool pc i = .ok e → Goes pc i t →
      t < code.size → Flows pool code t (d - e.pops + e.pushes)

/-- An instruction to which a path leads leaves a number of values. -/
def Leaves (pool : Pool) (code : Array Instruction) (d : Int) : Prop :=
  ∃ pc b i e, Flows pool code pc b ∧ code[pc]? = some i ∧ stackEffect pool pc i = .ok e ∧
    d = b - e.pops + e.pushes

/-- Every path finds the values that its instructions take, stays in the code, and agrees with all
others on the depth before an instruction. -/
structure Consistent (pool : Pool) (code : Array Instruction) : Prop where
  effects : ∀ {pc d i}, Flows pool code pc d → code[pc]? = some i →
    ∃ e, stackEffect pool pc i = .ok e ∧ (e.pops : Int) ≤ d
  targets : ∀ {pc d i}, Flows pool code pc d → code[pc]? = some i →
    ∀ {t}, Goes pc i t → 0 ≤ t ∧ t ≤ code.size
  depths : ∀ {pc d d'}, Flows pool code pc d → Flows pool code pc d' → d = d'

/-! ## Orders -/

/-- `y` is `x` without one of its pending instructions. -/
def Picks (x : Exploration) (pc : Nat) (y : Exploration) : Prop :=
  ∃ before after, x.work = before ++ pc :: after ∧ y = { x with work := before ++ after }

/-- Following a number of instructions leads from one state to another, whichever of the pending
ones is taken each time. -/
inductive FollowsN (code : Array Instruction) (pool : Pool) : Nat → Exploration → Exploration → Prop
    where
  | refl (x : Exploration) : FollowsN code pool 0 x x
  | step {n pc : Nat} {x x' y z : Exploration} : Picks x pc x' → follow code pool pc x' = .ok y →
      FollowsN code pool n y z → FollowsN code pool (n + 1) x z

/-- How following instructions in some order ends: with nothing left, or with a problem. -/
inductive Explores (code : Array Instruction) (pool : Pool) (x : Exploration) :
    Except StackProblem Nat → Prop where
  | done {n : Nat} {y : Exploration} : FollowsN code pool n x y → y.work = [] →
      Explores code pool x (.ok y.deepest)
  | stuck {n pc : Nat} {y z : Exploration} {problem : StackProblem} : FollowsN code pool n x y →
      Picks y pc z → follow code pool pc z = .error problem → Explores code pool x (.error problem)

/-- Before any instruction is followed. Code without instructions has none to follow. -/
def entryOf (code : List Instruction) : Exploration :=
  match code with
  | [] => ⟨#[], [], 0⟩
  | _ => startOf code.length

variable {pool : Pool} {code : Array Instruction}

/-! ## What was found lies on paths -/

/-- What exploration has found so far stands on paths. -/
structure Traced (pool : Pool) (code : Array Instruction) (x : Exploration) : Prop where
  flows : ∀ {pc d}, x.depthAt pc = some d → Flows pool code pc d
  deepest : x.deepest = 0 ∨ Leaves pool code x.deepest

theorem reach_target {pc d k c : Nat} {i : Instruction} {x y : Exploration} {t : Int}
    (h : reach pc i d x t = .ok y) (hk : y.depthAt k = some c) :
    x.depthAt k = some c ∨ k = t ∧ k < x.depths.size := by
  unfold reach at h
  split at h
  · cases h
    exact .inl hk
  split at h
  · cases h
  obtain ⟨n, rfl⟩ : ∃ n : Nat, t = n := Int.eq_ofNat_of_zero_le (by omega)
  rw [Int.toNat_natCast] at h
  split at h
  · cases h
  · rename_i hn
    cases h
    obtain ⟨hlt, -⟩ := Array.getElem?_eq_some_iff.1 hn
    rw [depthAt_set hlt] at hk
    split at hk
    · rename_i heq
      exact .inr ⟨congrArg _ heq.symm, heq ▸ hlt⟩
    · exact .inl hk
  · split at h <;> cases h
    exact .inl hk

theorem reachAll_target {pc d k c : Nat} {i : Instruction} {targets : List Int}
    {x y : Exploration} (h : targets.foldlM (reach pc i d) x = .ok y)
    (hk : y.depthAt k = some c) :
    x.depthAt k = some c ∨ (k : Int) ∈ targets ∧ k < x.depths.size := by
  induction targets generalizing x with
  | nil =>
    cases h
    exact .inl hk
  | cons t rest ih =>
    rw [List.foldlM_cons] at h
    obtain ⟨z, hz, h⟩ := bind_eq_ok.1 h
    rcases ih h with hfound | ⟨hin, hlt⟩
    · exact (reach_target hz hfound).imp_right fun ⟨heq, hlt⟩ => ⟨heq ▸ List.mem_cons_self, hlt⟩
    · exact .inr ⟨List.mem_cons_of_mem _ hin, (reach_spec hz).1.size ▸ hlt⟩

/-! ## One instruction -/

section Pick

variable {x x' y : Exploration} {pc : Nat}

theorem Picks.perm (h : Picks x pc x') : x.work.Perm (pc :: x'.work) := by
  obtain ⟨before, after, hwork, rfl⟩ := h
  rw [hwork]
  exact List.perm_middle

theorem Picks.eq (h : Picks x pc x') : x' = { x with work := x'.work } := by
  obtain ⟨before, after, -, rfl⟩ := h
  rfl

/-- The order of the pending instructions does not matter. -/
theorem Explored.perm {most : Nat} {work : List Nat} (h : Explored pool code most x)
    (hperm : x.work.Perm work) : Explored pool code most { x with work } where
  size := h.size
  start := h.start
  pending k := (h.pending k).imp_left hperm.mem_iff.1
  bounded := h.bounded
  deepest := h.deepest
  count := hperm.length_eq ▸ h.count

theorem Explored.pick {most : Nat} (h : Explored pool code (most + 1) x) (hpick : Picks x pc x')
    (hfollow : Assembly.follow code pool pc x' = .ok y) : Explored pool code most y := by
  rw [hpick.eq] at hfollow
  exact (h.perm hpick.perm).follow rfl hfollow

/-- An instruction with its depth, where both are known. -/
theorem follow_known (h : follow code pool pc x = .ok y) :
    (∃ i d, code[pc]? = some i ∧ x.depthAt pc = some d) ∨ y = x := by
  unfold follow at h
  split at h
  · rename_i i d hi hd
    exact .inl ⟨i, d, hi, by rw [Exploration.depthAt, hd]; rfl⟩
  · exact .inr (Except.ok.inj h).symm

theorem natCast_after {d : Nat} {e : Effect} (h : e.pops ≤ d) :
    ((d - e.pops + e.pushes : Nat) : Int) = d - e.pops + e.pushes := by
  omega

theorem depthAt_eq_some {d : Nat} : x.depthAt pc = some d ↔ x.depths[pc]? = some (some d) := by
  rw [Exploration.depthAt]
  cases x.depths[pc]? with
  | none => simp
  | some o => simp

theorem Traced.follow (h : Traced pool code x) (hsize : x.depths.size = code.size)
    (hfollow : Assembly.follow code pool pc x = .ok y) : Traced pool code y := by
  rcases follow_known hfollow with ⟨i, d, hi, hd⟩ | rfl
  swap
  · exact h
  obtain ⟨e, he, hpops, hreach, -⟩ := follow_spec hi hd hfollow
  rw [follow_eq hi (depthAt_eq_some.1 hd), he] at hfollow
  dsimp only at hfollow
  rw [if_neg (Nat.not_lt.2 hpops)] at hfollow
  have hafter := natCast_after hpops
  constructor
  · intro k c hk
    rcases hreach.found hk with hold | ⟨rfl, -⟩
    · exact h.flows hold
    rcases reachAll_target hfollow hk with hold | ⟨hin, hlt⟩
    · exact h.flows hold
    · rw [hafter]
      exact .step (h.flows hd) hi he (mem_successors_iff.1 hin) (hsize ▸ hlt)
  · rw [hreach.deepest]
    dsimp only
    rcases le_total (d - e.pops + e.pushes) x.deepest with hle | hle
    · rw [max_eq_left hle]
      exact h.deepest
    · rw [max_eq_right hle]
      exact .inr ⟨pc, d, i, e, h.flows hd, hi, he, hafter⟩

/-! ## No problem on consistent paths -/

theorem reach_ok {d : Nat} {i : Instruction} {t : Int} (hlow : 0 ≤ t) (hhigh : t ≤ x.depths.size)
    (hknown : ∀ {k c : Nat}, t = k → x.depthAt k = some c → c = d) :
    ∃ y, reach pc i d x t = .ok y := by
  obtain ⟨k, rfl⟩ := Int.eq_ofNat_of_zero_le hlow
  unfold reach
  by_cases hend : (k : Int) = x.depths.size
  · exact ⟨x, if_pos hend⟩
  have hlt : k < x.depths.size := by omega
  rw [if_neg hend, if_neg (Int.not_lt.2 hlow), Int.toNat_natCast, Array.getElem?_eq_getElem hlt]
  cases hget : x.depths[k] with
  | none => exact ⟨_, rfl⟩
  | some c =>
    have hc : x.depthAt k = some c :=
      depthAt_eq_some.2 ((Array.getElem?_eq_getElem hlt).trans (congrArg some hget))
    exact ⟨x, if_pos (hknown rfl hc)⟩

theorem reachAll_ok {d : Nat} {i : Instruction} {targets : List Int}
    (hrange : ∀ t ∈ targets, 0 ≤ t ∧ t ≤ x.depths.size)
    (hknown : ∀ {k c : Nat}, (k : Int) ∈ targets → x.depthAt k = some c → c = d) :
    ∃ y, targets.foldlM (reach pc i d) x = .ok y := by
  induction targets generalizing x with
  | nil => exact ⟨x, rfl⟩
  | cons t rest ih =>
    obtain ⟨hlow, hhigh⟩ := hrange t List.mem_cons_self
    obtain ⟨z, hz⟩ : ∃ z, reach pc i d x t = .ok z :=
      reach_ok hlow hhigh fun heq hc => hknown (heq ▸ List.mem_cons_self) hc
    have hreach := (reach_spec hz).1
    obtain ⟨y, hy⟩ := ih (x := z)
      (fun u hu => hreach.size ▸ hrange u (List.mem_cons_of_mem _ hu)) fun hin hc =>
        (hreach.found hc).elim (hknown (List.mem_cons_of_mem _ hin)) fun hnew => hnew.1
    exact ⟨y, by rw [List.foldlM_cons, hz]; exact hy⟩

theorem Consistent.follow (h : Consistent pool code) (hx : Traced pool code x)
    (hsize : x.depths.size = code.size) (pc : Nat) :
    ∃ y, Assembly.follow code pool pc x = .ok y := by
  cases hi : code[pc]? with
  | none => exact ⟨x, by rw [Assembly.follow, hi]⟩
  | some i =>
    cases hd : x.depthAt pc with
    | none =>
      refine ⟨x, ?_⟩
      unfold Assembly.follow
      split
      · rename_i hget
        rw [depthAt_eq_some.2 hget] at hd
        cases hd
      · rfl
    | some d =>
      have hflows := hx.flows hd
      obtain ⟨e, he, hpops⟩ := h.effects hflows hi
      have hpops : e.pops ≤ d := by exact_mod_cast hpops
      rw [follow_eq hi (depthAt_eq_some.1 hd), he]
      dsimp only
      rw [if_neg (Nat.not_lt.2 hpops)]
      refine reachAll_ok (fun t ht => ?_) fun {k c} hk hc => ?_
      · rw [hsize]
        exact h.targets hflows hi (mem_successors_iff.1 ht)
      · -- the depth that is known stands on a path, and this path leads there with its own
        have hlt : k < code.size := by
          rw [← hsize]
          exact (Array.getElem?_eq_some_iff.1 (depthAt_eq_some.1 hc)).1
        have hgoes := mem_successors_iff.1 hk
        have heq := h.depths (hx.flows hc) (.step hflows hi he hgoes hlt)
        rw [← natCast_after hpops] at heq
        exact_mod_cast heq

end Pick

/-! ## Any order -/

variable {x y : Exploration} {outcome : Except StackProblem Nat} {n most : Nat}

theorem Picks.depths {x' : Exploration} {pc : Nat} (h : Picks x pc x') : x'.depths = x.depths := by
  rw [h.eq]

theorem Picks.traced {x' : Exploration} {pc : Nat} (h : Picks x pc x')
    (hx : Traced pool code x) : Traced pool code x' := by
  rw [h.eq]
  exact ⟨hx.flows, hx.deepest⟩

/-- What holds between two instructions holds after any number of them, and no more are followed
than there were to follow. -/
theorem FollowsN.invariant (h : FollowsN code pool n x y) (hx : Explored pool code most x)
    (htraced : Traced pool code x) :
    n ≤ most ∧ Explored pool code (most - n) y ∧ Traced pool code y := by
  induction h generalizing most with
  | refl x => exact ⟨Nat.zero_le _, hx, htraced⟩
  | step hpick hfollow _ ih =>
    have hcount := hx.count
    rw [hpick.perm.length_eq, List.length_cons] at hcount
    obtain ⟨most, rfl⟩ : ∃ k, most = k + 1 := ⟨most - 1, by omega⟩
    have hsize := hpick.depths ▸ hx.size
    have htraced := (hpick.traced htraced).follow hsize hfollow
    obtain ⟨hle, hy, hyt⟩ := ih (hx.pick hpick hfollow) htraced
    exact ⟨Nat.succ_le_succ hle, by rwa [Nat.succ_sub_succ], hyt⟩

theorem Explores.step {x' : Exploration} {pc : Nat} (hpick : Picks x pc x')
    (hfollow : follow code pool pc x' = .ok y) (h : Explores code pool y outcome) :
    Explores code pool x outcome := by
  cases h with
  | done hrun hnone => exact .done (.step hpick hfollow hrun) hnone
  | stuck hrun hpick' hfail => exact .stuck (.step hpick hfollow hrun) hpick' hfail

/-- With a turn for each instruction left, following the first one each time is such an order. -/
theorem explores_explore (hx : Explored pool code most x) :
    Explores code pool x ((explore code pool most x).map Exploration.deepest) := by
  induction most generalizing x with
  | zero =>
    have hcount := hx.count
    exact .done (.refl x) (List.eq_nil_of_length_eq_zero (by omega))
  | succ most ih =>
    rw [explore]
    cases hwork : x.work with
    | nil => exact .done (.refl x) hwork
    | cons pc work =>
      have hpick : Picks x pc { x with work } := ⟨[], work, hwork, rfl⟩
      dsimp only
      cases hfollow : follow code pool pc { x with work } with
      | error problem => exact .stuck (.refl x) hpick hfollow
      | ok y => exact .step hpick hfollow (ih (hx.follow hwork hfollow))

/-! ## Depths that fit together -/

/-- All paths lead to the depths that fit together. -/
theorem Balanced.of_flows {limit : Nat} {depth : Nat → Option Nat}
    (h : Balanced pool code limit depth) {pc : Nat} {d : Int} (hflows : Flows pool code pc d) :
    ∃ n : Nat, d = n ∧ depth pc = some n := by
  induction hflows with
  | start hpos => exact ⟨0, rfl, h.start hpos⟩
  | step _ hi he ht hlt ih =>
    obtain ⟨n, rfl, hn⟩ := ih
    obtain ⟨e', he', hpops, -, htargets⟩ := h.respects _ hn hi
    cases he.symm.trans he'
    obtain ⟨k, hk, -, hdepth⟩ := htargets _ (mem_successors_iff.2 ht)
    cases Int.ofNat_inj.1 hk
    exact ⟨_, (natCast_after hpops).symm, hdepth hlt⟩

theorem Balanced.consistent {limit : Nat} {depth : Nat → Option Nat}
    (h : Balanced pool code limit depth) : Consistent pool code where
  effects hflows hi := by
    obtain ⟨n, rfl, hn⟩ := h.of_flows hflows
    obtain ⟨e, he, hpops, -⟩ := h.respects _ hn hi
    exact ⟨e, he, by exact_mod_cast hpops⟩
  targets hflows hi _ ht := by
    obtain ⟨n, rfl, hn⟩ := h.of_flows hflows
    obtain ⟨e, -, -, -, htargets⟩ := h.respects _ hn hi
    obtain ⟨k, rfl, hk, -⟩ := htargets _ (mem_successors_iff.2 ht)
    exact ⟨Int.natCast_nonneg k, by exact_mod_cast hk⟩
  depths hflows hflows' := by
    obtain ⟨n, rfl, hn⟩ := h.of_flows hflows
    obtain ⟨n', rfl, hn'⟩ := h.of_flows hflows'
    cases hn.symm.trans hn'
    rfl

theorem Balanced.le_limit {limit : Nat} {depth : Nat → Option Nat}
    (h : Balanced pool code limit depth) {d : Int} (hleaves : Leaves pool code d) :
    d ≤ limit := by
  obtain ⟨pc, b, i, e, hflows, hi, he, rfl⟩ := hleaves
  obtain ⟨n, rfl, hn⟩ := h.of_flows hflows
  obtain ⟨e', he', hpops, hle, -⟩ := h.respects _ hn hi
  cases he.symm.trans he'
  rw [← natCast_after hpops]
  exact_mod_cast hle

/-- The depths that instructions on paths leave, and that of an empty stack. -/
def leftDepths (pool : Pool) (code : Array Instruction) : Set Int :=
  {d | d = 0 ∨ Leaves pool code d}

theorem Balanced.isGreatest {x : Exploration} {depth : Nat → Option Nat}
    (h : Balanced pool code x.deepest depth) (htraced : Traced pool code x) :
    IsGreatest (leftDepths pool code) x.deepest := by
  refine ⟨htraced.deepest.imp_left (congrArg _), fun d hd => ?_⟩
  rcases hd with rfl | hleaves
  · exact Int.natCast_nonneg _
  · exact h.le_limit hleaves

/-- An order that ends with nothing left has found depths that fit together, and the greatest. -/
theorem Explores.sound (h : Explores code pool x outcome) (hx : Explored pool code most x)
    (htraced : Traced pool code x) {d : Nat} (hd : outcome = .ok d) :
    Consistent pool code ∧ IsGreatest (leftDepths pool code) d := by
  cases h with
  | stuck => cases hd
  | done hrun hnone =>
    cases hd
    obtain ⟨-, hy, htraced⟩ := hrun.invariant hx htraced
    have hbalanced := hy.balanced hnone
    exact ⟨hbalanced.consistent, hbalanced.isGreatest htraced⟩

/-- No order meets a problem in code whose paths fit together. -/
theorem Explores.complete (h : Explores code pool x outcome) (hx : Explored pool code most x)
    (htraced : Traced pool code x) (hcode : Consistent pool code) : ∃ d, outcome = .ok d := by
  cases h with
  | done => exact ⟨_, rfl⟩
  | stuck hrun hpick hfail =>
    obtain ⟨-, hy, htraced⟩ := hrun.invariant hx htraced
    obtain ⟨z, hz⟩ := hcode.follow (hpick.traced htraced) (hpick.depths ▸ hy.size) _
    cases hz.symm.trans hfail

/-! ## Whole methods -/

theorem startOf_traced (h : 0 < code.size) : Traced pool code (startOf code.size) where
  flows {pc d} hd := by
    rw [depthAt_startOf h] at hd
    split at hd
    · rename_i heq
      cases hd
      exact heq ▸ .start h
    · cases hd
  deepest := .inl rfl

/-- Without instructions there is nothing to pick. -/
theorem followsN_nil {n : Nat} {y : Exploration} (h : FollowsN #[] pool n (entryOf []) y) :
    n = 0 ∧ y = entryOf [] := by
  cases h with
  | refl => exact ⟨rfl, rfl⟩
  | step hpick _ _ =>
    have hlength := hpick.perm.length_eq
    cases hlength

theorem balanced_nil (pool : Pool) : Balanced pool #[] 0 fun _ => none :=
  ⟨fun h => absurd h (Nat.lt_irrefl 0), fun _ => nofun⟩

theorem maxStack_cons (i : Instruction) (rest : List Instruction) (pool : Pool) :
    maxStack (i :: rest) pool =
      (explore (i :: rest).toArray pool (i :: rest).length (entryOf (i :: rest))).map
        Exploration.deepest := rfl

variable {methodCode : List Instruction}

theorem explores_maxStack (methodCode : List Instruction) (pool : Pool) :
    Explores methodCode.toArray pool (entryOf methodCode) (maxStack methodCode pool) := by
  cases methodCode with
  | nil => exact .done (.refl _) rfl
  | cons i rest =>
    rw [maxStack_cons]
    exact explores_explore (startOf_explored pool (i :: rest).toArray (Nat.succ_pos _))

theorem followsN_le {n : Nat} {x : Exploration}
    (h : FollowsN methodCode.toArray pool n (entryOf methodCode) x) : n ≤ methodCode.length := by
  cases methodCode with
  | nil => exact (followsN_nil h).1.le
  | cons i rest =>
    have hpos : 0 < (i :: rest).toArray.size := Nat.succ_pos _
    exact (h.invariant (startOf_explored pool _ hpos) (startOf_traced hpos)).1

theorem explores_ok_iff {outcome : Except StackProblem Nat}
    (h : Explores methodCode.toArray pool (entryOf methodCode) outcome) :
    (Consistent pool methodCode.toArray → ∃ d, outcome = .ok d) ∧
      ∀ d, outcome = .ok d →
        Consistent pool methodCode.toArray ∧ IsGreatest (leftDepths pool methodCode.toArray) d := by
  cases methodCode with
  | nil =>
    have htraced : Traced pool #[] (entryOf []) := ⟨nofun, .inl rfl⟩
    cases h with
    | done hrun _ =>
      obtain ⟨-, rfl⟩ := followsN_nil hrun
      refine ⟨fun _ => ⟨_, rfl⟩, ?_⟩
      rintro _ ⟨⟩
      exact ⟨(balanced_nil pool).consistent, (balanced_nil pool).isGreatest htraced⟩
    | stuck hrun hpick _ =>
      obtain ⟨-, rfl⟩ := followsN_nil hrun
      cases hpick.perm.length_eq
  | cons i rest =>
    have hpos : 0 < (i :: rest).toArray.size := Nat.succ_pos _
    have hexplored := startOf_explored pool _ hpos
    have htraced : Traced pool _ _ := startOf_traced hpos
    exact ⟨h.complete hexplored htraced, fun d => h.sound hexplored htraced⟩

/-- A depth is given exactly when all paths fit together, and it is the greatest of theirs. The
pass is one of the orders in which the instructions can be followed. None of these follows more
instructions than there are, and all of them come to the same depth, or all of them to a problem. -/
theorem maxStack_iff_consistent (code : List Instruction) (pool : Pool) :
    ((∃ d, maxStack code pool = .ok d) ↔ Consistent pool code.toArray) ∧
    (∀ d, maxStack code pool = .ok d → IsGreatest (leftDepths pool code.toArray) d) ∧
    Explores code.toArray pool (entryOf code) (maxStack code pool) ∧
    (∀ n x, FollowsN code.toArray pool n (entryOf code) x → n ≤ code.length) ∧
    ∀ outcome, Explores code.toArray pool (entryOf code) outcome →
      outcome.toOption = (maxStack code pool).toOption := by
  have hpass := explores_maxStack code pool
  obtain ⟨hcomplete, hsound⟩ := explores_ok_iff hpass
  refine ⟨⟨fun ⟨d, hd⟩ => (hsound d hd).1, hcomplete⟩, fun d hd => (hsound d hd).2, hpass,
    fun n x => followsN_le, fun outcome h => ?_⟩
  obtain ⟨hcomplete', hsound'⟩ := explores_ok_iff h
  by_cases hcode : Consistent pool code.toArray
  · obtain ⟨d, hd⟩ := hcomplete hcode
    obtain ⟨d', hd'⟩ := hcomplete' hcode
    have heq := (hsound' d' hd').2.unique (hsound d hd).2
    rw [hd, hd', Int.ofNat_inj.1 heq]
  · cases outcome with
    | ok d => exact absurd (hsound' d rfl).1 hcode
    | error problem =>
      cases hresult : maxStack code pool with
      | ok d => exact absurd (hsound d hresult).1 hcode
      | error problem' => rfl

end MiniJvm.Assembly
