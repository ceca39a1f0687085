import Mathlib
import MiniJvm.Proofs.Machine.CallStack
import MiniJvm.Proofs.Machine.Frame
import MiniJvm.Proofs.Machine.Refusal

/-!
# Which definition a method comes from

Loading a definition replaces the whole class and takes away the methods that only the old one had.
So every registered method stands in the table of its own class, and class and method were made
from one definition: the stamp of the method was given while that definition was loaded
(`CameFrom`). Frames are made from registered methods only, so a run never misses a class, and
every method of it has the constants of its own definition.
-/

namespace MiniJvm.Registry

/-! ## The methods of one definition -/

/-- The last method of a list that is registered under a signature. -/
def lastUnder (owner : Bytes) (defs : List MethodDef) (key : Bytes) : Option MethodDef :=
  defs.reverse.find? fun d => MiniJvm.signature owner d.name d.descriptor == key

theorem lastUnder_cons (owner : Bytes) (d : MethodDef) (rest : List MethodDef) (key : Bytes) :
    lastUnder owner (d :: rest) key = (lastUnder owner rest key).or
      (if MiniJvm.signature owner d.name d.descriptor = key then some d else none) := by
  rw [lastUnder, List.reverse_cons, List.find?_append, lastUnder]
  by_cases h : MiniJvm.signature owner d.name d.descriptor = key
  · simp [h]
  · simp [h]

theorem mem_of_lastUnder {owner : Bytes} {defs : List MethodDef} {key : Bytes} {d : MethodDef}
    (h : lastUnder owner defs key = some d) :
    d ∈ defs ∧ MiniJvm.signature owner d.name d.descriptor = key := by
  unfold lastUnder at h
  exact ⟨List.mem_reverse.1 (List.mem_of_find?_eq_some h), by simpa using List.find?_some h⟩

theorem lastUnder_isSome (owner : Bytes) {defs : List MethodDef} {d : MethodDef} (h : d ∈ defs) :
    (lastUnder owner defs (MiniJvm.signature owner d.name d.descriptor)).isSome = true :=
  List.find?_isSome.2 ⟨d, List.mem_reverse.2 h, beq_self_eq_true _⟩

/-- The method of definition `d` was made between two registries. -/
structure MadeBetween (first next : Registry) (owner : Bytes) (d : MethodDef) (m : Method) :
    Prop where
  makes : Makes owner d m
  first : first.nextStamp ≤ m.stamp
  next : m.stamp < next.nextStamp

section Methods

variable {r : Registry} {owner : Bytes} {own tbl : Table Method} {d : MethodDef}
  {defs : List MethodDef}

/-- The first method is registered under its signature with the next stamp. -/
theorem loadMethods_first (r : Registry) (own : Table Method) (rest : List MethodDef)
    {made : Method} (h : makeMethod owner d = .ok made) :
    ∃ (m : Method) (next : Registry), Makes owner d m ∧ m.stamp = r.nextStamp ∧
      next.nextStamp = r.nextStamp + 1 ∧
      next.methods = r.methods.insert (MiniJvm.signature owner d.name d.descriptor) m ∧
      (r.loadMethods owner own (d :: rest)).registry = (next.loadMethods owner
        (own.insert (MiniJvm.signature owner d.name d.descriptor) m) rest).registry ∧
      (r.loadMethods owner own (d :: rest)).outcome = (next.loadMethods owner
        (own.insert (MiniJvm.signature owner d.name d.descriptor) m) rest).outcome := by
  have hmakes := makes_of_makeMethod h r.nextStamp
  obtain ⟨hreg, hout⟩ := loadMethods_cons r own rest h
  rw [hmakes.signature] at hreg hout
  exact ⟨_, _, hmakes, rfl, rfl, rfl, hreg, hout⟩

theorem nextStamp_loadMethods (r : Registry) (owner : Bytes) (own : Table Method)
    (defs : List MethodDef) :
    r.nextStamp ≤ (r.loadMethods owner own defs).registry.nextStamp := by
  induction defs generalizing r own with
  | nil => exact Nat.le_refl _
  | cons d rest ih =>
    cases hmade : makeMethod owner d with
    | error e => rw [loadMethods_error rest hmade]
    | ok made =>
      obtain ⟨m, next, -, -, hnext, -, hreg, -⟩ := loadMethods_first r own rest hmade
      rw [hreg]
      exact Nat.le_trans (by omega) (ih next _)

/-- Under a signature stands the method that its last definition makes, in the table of the class
and in the registry; without a definition nothing changes. -/
theorem loadMethods_last (h : (r.loadMethods owner own defs).outcome = .ok tbl) (key : Bytes) :
    match lastUnder owner defs key with
    | some d => ∃ m, MadeBetween r (r.loadMethods owner own defs).registry owner d m ∧
        tbl.get? key = some m ∧
        (r.loadMethods owner own defs).registry.methods.get? key = some m
    | none => tbl.get? key = own.get? key ∧
        (r.loadMethods owner own defs).registry.methods.get? key = r.methods.get? key := by
  induction defs generalizing r own with
  | nil =>
    cases h
    exact ⟨rfl, rfl⟩
  | cons d rest ih =>
    cases hmade : makeMethod owner d with
    | error e => rw [loadMethods_error rest hmade] at h; cases h
    | ok made =>
      obtain ⟨m, next, hmakes, hstamp, hnext, hmethods, hreg, hout⟩ :=
        loadMethods_first r own rest hmade
      rw [hout] at h
      rw [hreg, lastUnder_cons]
      have hrest := ih h
      rw [hmethods, Table.get?_insert, Table.get?_insert] at hrest
      cases hlast : lastUnder owner rest key with
      | some md =>
        rw [hlast] at hrest
        obtain ⟨m', hm', hget⟩ := hrest
        exact ⟨m', ⟨hm'.makes, Nat.le_trans (by omega) hm'.first, hm'.next⟩, hget⟩
      | none =>
        rw [hlast] at hrest
        rw [Option.none_or]
        by_cases hkey : MiniJvm.signature owner d.name d.descriptor = key
        · simp only [if_pos hkey] at hrest ⊢
          have hle := nextStamp_loadMethods next owner
            (own.insert (MiniJvm.signature owner d.name d.descriptor) m) rest
          exact ⟨m, ⟨hmakes, hstamp.ge, by omega⟩, hrest⟩
        · simp only [if_neg hkey] at hrest ⊢
          exact hrest

end Methods

theorem nextStamp_loadClass {r : Registry} {d : ClassDef}
    (h : (r.loadClass d).outcome = .ok ()) :
    (r.loadClass d).registry.nextStamp =
      (r.loadMethods d.name .empty d.methodList).registry.nextStamp := by
  obtain ⟨tbl, -, hreg⟩ := loadClass_spec h
  rw [hreg, nextStamp_installClass]

/-! ## Lists of definitions -/

/-- Definitions are loaded one after another, each as `step` says. -/
inductive Loads (step : Registry → ClassDef → Registry → Prop) :
    Registry → List ClassDef → Registry → Prop where
  | nil (r : Registry) : Loads step r [] r
  | cons {r s t : Registry} {d : ClassDef} {rest : List ClassDef} : step r d s →
      Loads step s rest t → Loads step r (d :: rest) t

/-- Loading the definition goes through. -/
def Accepts (r : Registry) (d : ClassDef) (s : Registry) : Prop :=
  (r.loadClass d).outcome = .ok () ∧ (r.loadClass d).registry = s

theorem Loads.snoc_iff {step : Registry → ClassDef → Registry → Prop} {r t : Registry}
    {defs : List ClassDef} {d : ClassDef} :
    Loads step r (defs ++ [d]) t ↔ ∃ s, Loads step r defs s ∧ step s d t := by
  induction defs generalizing r with
  | nil =>
    constructor
    · rintro (_ | ⟨hd, ⟨⟩⟩)
      exact ⟨r, .nil r, hd⟩
    · rintro ⟨_, ⟨⟩, hd⟩
      exact .cons hd (.nil t)
  | cons e rest ih =>
    constructor
    · rintro (_ | ⟨he, hrest⟩)
      obtain ⟨s, hs, hd⟩ := ih.1 hrest
      exact ⟨s, .cons he hs, hd⟩
    · rintro ⟨s, _ | ⟨he, hrest⟩, hd⟩
      exact .cons he (ih.2 ⟨s, hrest, hd⟩)

theorem loadAll_ok_iff {r s : Registry} {defs : List ClassDef} :
    ((∃ n, (r.loadAll defs).outcome = .ok n) ∧ (r.loadAll defs).registry = s) ↔
      Loads Accepts r defs s := by
  induction defs generalizing r with
  | nil =>
    constructor
    · rintro ⟨-, rfl⟩
      exact .nil r
    · rintro ⟨⟩
      exact ⟨⟨0, rfl⟩, rfl⟩
  | cons d rest ih =>
    cases hd : (r.loadClass d).outcome with
    | error e =>
      constructor
      · rintro ⟨⟨n, hn⟩, -⟩
        rw [loadAll, hd] at hn
        cases hn
      · rintro (_ | ⟨⟨hok, -⟩, -⟩)
        cases hd.symm.trans hok
    | ok u =>
      obtain ⟨hreg, hout⟩ :
          (r.loadAll (d :: rest)).registry = ((r.loadClass d).registry.loadAll rest).registry ∧
            (r.loadAll (d :: rest)).outcome = _ := loadAll_cons_ok hd
      rw [hreg, hout]
      constructor
      · rintro ⟨⟨n, hn⟩, hs⟩
        refine .cons ⟨hd, rfl⟩ (ih.1 ⟨?_, hs⟩)
        cases hrest : ((r.loadClass d).registry.loadAll rest).outcome with
        | error e => rw [hrest] at hn; cases hn
        | ok k => exact ⟨k, rfl⟩
      · rintro (_ | ⟨⟨-, rfl⟩, hrest⟩)
        obtain ⟨⟨n, hn⟩, hs⟩ := ih.2 hrest
        exact ⟨⟨n + 1, by rw [hn]; rfl⟩, hs⟩

theorem load_ok_iff {defs : List ClassDef} {r : Registry} :
    load defs = .ok r ↔ Loads Accepts empty defs r := by
  rw [← loadAll_ok_iff]
  constructor
  · intro h
    obtain ⟨n, hn, hreg⟩ := loadAll_of_load h
    exact ⟨⟨n, hn⟩, hreg⟩
  · rintro ⟨⟨n, hn⟩, rfl⟩
    rw [load_eq, hn]
    rfl

/-- `d` is the last definition of its name in the list, and was loaded into `first`. -/
def LastDefinition (defs : List ClassDef) (d : ClassDef) (first : Registry) : Prop :=
  ∃ before after, defs = before ++ d :: after ∧ (∀ e ∈ after, e.name ≠ d.name) ∧
    load before = .ok first

/-- The class is what definition `d` made when it was loaded into `first`. -/
structure ClassFrom (first : Registry) (d : ClassDef) (c : Class) : Prop where
  name : c.name = d.name
  superName : c.superName = d.superName
  pool : c.pool = some (Pool.ofEntries d.constants)
  methods : ∀ key, match lastUnder d.name d.methodList key with
    | some md => ∃ m, c.methods.get? key = some m ∧
        MadeBetween first (first.loadClass d).registry d.name md m
    | none => c.methods.get? key = none

theorem ClassFrom.of_get? {first : Registry} {d : ClassDef} {c : Class} (h : ClassFrom first d c)
    {key : Bytes} {m : Method} (hm : c.methods.get? key = some m) :
    ∃ md, lastUnder d.name d.methodList key = some md ∧
      MadeBetween first (first.loadClass d).registry d.name md m := by
  have hkey := h.methods key
  cases hlast : lastUnder d.name d.methodList key with
  | none =>
    rw [hlast] at hkey
    cases hm.symm.trans hkey
  | some md =>
    rw [hlast] at hkey
    obtain ⟨m', hm', hmade⟩ := hkey
    cases hm.symm.trans hm'
    exact ⟨md, rfl, hmade⟩

/-- A loaded definition makes the class of its name and leaves the others. -/
theorem classes_loadClass {r s : Registry} {d : ClassDef} (h : Accepts r d s) :
    ∃ c, ClassFrom r d c ∧
      ∀ name, s.classes.get? name = if d.name = name then some c else r.classes.get? name := by
  obtain ⟨hok, rfl⟩ := h
  obtain ⟨tbl, htbl, hreg⟩ := loadClass_spec hok
  refine ⟨classOf d tbl, ⟨rfl, rfl, rfl, fun key => ?_⟩, fun name => ?_⟩
  · have hlast := loadMethods_last htbl key
    cases hmd : lastUnder d.name d.methodList key with
    | none =>
      rw [hmd] at hlast
      exact hlast.1
    | some md =>
      rw [hmd] at hlast
      obtain ⟨m, hm, hget, -⟩ := hlast
      exact ⟨m, hget, hm.makes, hm.first, (nextStamp_loadClass hok).symm ▸ hm.next⟩
  · rw [hreg, classes_installClass, classes_loadMethods, Table.get?_insert]
    rfl

/-- Under a name stands the class of its last definition, or none if it has no definition. -/
theorem classes_load {defs : List ClassDef} {r : Registry} (h : load defs = .ok r) (name : Bytes) :
    (r.classes.get? name = none ∧ ∀ d ∈ defs, d.name ≠ name) ∨
      ∃ d first c, LastDefinition defs d first ∧ d.name = name ∧
        r.classes.get? name = some c ∧ ClassFrom first d c := by
  induction defs using List.reverseRecOn generalizing r with
  | nil =>
    cases load_ok_iff.1 h
    exact .inl ⟨rfl, nofun⟩
  | append_singleton defs d ih =>
    obtain ⟨s, hs, hd⟩ := Loads.snoc_iff.1 (load_ok_iff.1 h)
    have hs := load_ok_iff.2 hs
    obtain ⟨c, hc, hget⟩ := classes_loadClass hd
    rw [hget]
    by_cases hname : d.name = name
    · rw [if_pos hname]
      exact .inr ⟨d, s, c, ⟨defs, [], rfl, nofun, hs⟩, hname, rfl, hc⟩
    · rw [if_neg hname]
      rcases ih hs with ⟨hnone, hall⟩ | ⟨e, first, c', ⟨before, after, rfl, hafter, hfirst⟩, hrest⟩
      · refine .inl ⟨hnone, fun e he => ?_⟩
        rcases List.mem_append.1 he with he | he
        · exact hall e he
        · exact List.mem_singleton.1 he ▸ hname
      · refine .inr ⟨e, first, c', ⟨before, after ++ [d], ?_, fun x hx => ?_, hfirst⟩, hrest⟩
        · rw [List.append_assoc, List.cons_append]
        · rcases List.mem_append.1 hx with hx | hx
          · exact hafter x hx
          · exact List.mem_singleton.1 hx ▸ hrest.1 ▸ hname

/-! ## Ownership -/

/-- The method was made while `d`, the last definition of its name in the list, was loaded. -/
def CameFrom (defs : List ClassDef) (d : ClassDef) (m : Method) : Prop :=
  ∃ first, LastDefinition defs d first ∧
    ∃ md ∈ d.methodList, MadeBetween first (first.loadClass d).registry d.name md m

/-- A registered method stands in its class, and both came from one definition. -/
theorem owner_of_load {defs : List ClassDef} {r : Registry} (h : load defs = .ok r) {key : Bytes}
    {m : Method} (hm : r.methods.get? key = some m) :
    ∃ c d, r.classes.get? m.owner = some c ∧ c.name = m.owner ∧
      c.methods.get? key = some m ∧ c.pool = some (Pool.ofEntries d.constants) ∧
      CameFrom defs d m := by
  obtain ⟨c, hc, hcm⟩ := (load_owned h).methods hm
  rcases classes_load h m.owner with ⟨hnone, -⟩ | ⟨d, first, c', hlast, hname, hc', hfrom⟩
  · cases hc.symm.trans hnone
  · cases hc.symm.trans hc'
    obtain ⟨md, hmd, hmade⟩ := hfrom.of_get? hcm
    exact ⟨c, d, hc, hfrom.name.trans hname, hcm, hfrom.pool, first, hlast, md,
      (mem_of_lastUnder hmd).1, hmade⟩

/-! ## No class is missed -/

/-- Every registered method has its class. -/
def Complete (r : Registry) : Prop :=
  ∀ ⦃key m⦄, r.methods.get? key = some m → r.classes.get? m.owner ≠ none

/-- The evaluation does not stop for want of a class. -/
def Unmissed (e : FrameEnding) : Prop :=
  ∀ name, e ≠ .aborted (.fault (.lookup (.classNotFound name)))

theorem unmissed_refuses {m : Method} {args : List Int32} {why : Stop}
    (h : Frame.Refuses m args why) : Unmissed (.aborted why) := by
  cases h <;> exact fun _ => nofun

variable {r : Registry}

theorem unmissed_callFails (hr : Complete r) {caller : Frame} {signature : Bytes} {special : Bool}
    {why : Stop} (h : CallFails r caller signature special why) : Unmissed (.aborted why) := by
  cases h with
  | noMethod => exact fun _ => nofun
  | noClass hm hc => exact absurd hc (hr hm)
  | negative | missing => exact fun _ => nofun
  | refused _ _ _ _ hf => exact unmissed_refuses hf

theorem unmissed_evaluates (hr : Complete r) {f : Frame} {e : FrameEnding} {s : Stats}
    (h : Evaluates r f e s) : Unmissed e := by
  induction h with
  | ended | returned =>
    intro name hname
    cases hname
  | stopped hstep =>
    intro name hname
    exact (Frame.raisedBy_step hstep).not_lookup _ (FrameEnding.aborted.inj hname)
  | callFails _ hfail => exact unmissed_callFails hr hfail
  | @undelivered f g callee left signature special v why s _ _ _ hdel =>
    cases v with
    | none => cases hdel
    | some v =>
      rw [Frame.deliver] at hdel
      split at hdel
      · cases hdel
        intro name hname
        cases hname
      · cases hdel
  | next _ _ ih | calleeAborts _ _ _ ih => exact ih
  | called _ _ _ _ _ _ ih => exact ih

theorem unmissed_entry (hr : Complete r) {entry : Bytes} {args : List Int32} {e : FrameEnding}
    {s : Stats} (h : EvaluatesEntry r entry args e s) : Unmissed e := by
  cases h with
  | noMethod => exact fun _ => nofun
  | noClass hm hc => exact absurd hc (hr hm)
  | refused _ _ hf => exact unmissed_refuses hf
  | evaluated _ _ _ he => exact unmissed_evaluates hr he

/-- After loading, every signature stands for a method that has this signature and stands under it
in the table of its own class. So no run fails for want of a class, and the constants of every
frame of a run are those of the definition from which the method of the frame came. -/
theorem load_ownership {defs : List ClassDef} (h : load defs = .ok r) :
    (∀ key m, r.lookupMethod key = .ok m → m.signature = key ∧
      ∃ c, r.lookupClass m.owner = .ok c ∧ c.name = m.owner ∧ c.methods.get? key = some m) ∧
    (∀ fuel entry args trace status name,
      (r.execute fuel entry args trace).outcome = .ended status →
        status.fault ≠ some (.lookup (.classNotFound name))) ∧
    ∀ entry args trace c, r.start entry args trace = .ok c →
      ∀ n, ∀ f ∈ (c.after n).frames,
        ∃ d, CameFrom defs d f.method ∧ f.pool = some (Pool.ofEntries d.constants) := by
  refine ⟨fun key m hm => ?_, fun fuel entry args trace status name hrun hfault => ?_,
    fun entry args trace c hstart n f hf => ?_⟩
  · rw [lookupMethod] at hm
    cases hget : r.methods.get? key with
    | none => rw [hget] at hm; cases hm
    | some m' =>
      rw [hget] at hm
      cases hm
      obtain ⟨c, d, hc, hname, hcm, -⟩ := owner_of_load h hget
      exact ⟨(load_owned h).keyed hget, c, by rw [lookupClass, hc], hname, hcm⟩
  · have hcomplete : Complete r := by
      intro key m hm hnone
      obtain ⟨c, -, hc, -⟩ := owner_of_load h hm
      cases hc.symm.trans hnone
    have hended : RunOutcome.ended status ≠ .unfinished := by
      intro heq
      cases heq
    obtain ⟨e, s, he, heq⟩ := evaluates_of_execute hrun hended
    rcases e with v | x | x <;> cases heq
    · cases hfault
    · cases hfault
      exact unmissed_entry hcomplete he name rfl
  · have hframed := (wellStacked_after h hstart n).framed f hf
    have hm := hframed.registered
    rw [lookupMethod] at hm
    cases hget : r.methods.get? f.method.signature with
    | none => rw [hget] at hm; cases hm
    | some m =>
      rw [hget] at hm
      cases hm
      obtain ⟨c, d, hc, -, -, hpool, hfrom⟩ := owner_of_load h hget
      obtain ⟨c', hc', hfp⟩ := hframed.constants
      rw [lookupClass, hc] at hc'
      cases hc'
      exact ⟨d, hfrom, hfp.trans hpool⟩

/-- Method `c` of class `A.b` and method `b.c` of class `A` have one signature. The second takes it
from the first, and keeps it when `A.b` is defined anew without `c`. -/
def colliding : List ClassDef :=
  [{ name := "A.b", methods := some [⟨"c", "()V", 0, 0, none⟩] },
    { name := "A"
      pool := some
        [.placeholder, .methodRef 2 3, .classRef 4, .nameAndType 5 6, .utf8 "A.b", .utf8 "c",
          .utf8 "()V"]
      methods := some [⟨"b.c", "()V", 0, 0, none⟩,
        ⟨"main", "()V", 0, 0, some [.invokestatic 1, .plain .returnVoid]⟩] },
    { name := "A.b", methods := some [⟨"d", "()V", 0, 0, none⟩] }]

theorem load_ownership_colliding :
    ∃ r m c, load colliding = .ok r ∧ r.lookupMethod "A.b.c:()V" = .ok m ∧ m.owner = ("A" : Bytes) ∧
      r.start "A.main:()V" [] false = .ok c ∧ (c.after 1).depth = 2 ∧
      m.signature = ("A.b.c:()V" : Bytes) ∧
      ∀ f ∈ (c.after 1).frames,
        ∃ d, CameFrom colliding d f.method ∧ f.pool = some (Pool.ofEntries d.constants) := by
  have hchecked : ∃ r ∈ (load colliding).toOption,
      ∃ m ∈ (r.lookupMethod "A.b.c:()V").toOption, m.owner = ("A" : Bytes) ∧
        ∃ c ∈ (r.start "A.main:()V" [] false).toOption, (c.after 1).depth = 2 := by
    decide +kernel
  obtain ⟨r, hload, m, hm, howner, c, hstart, hdepth⟩ := hchecked
  have hload := eq_ok_of_mem_toOption hload
  have hm := eq_ok_of_mem_toOption hm
  have hstart := eq_ok_of_mem_toOption hstart
  have howned := load_ownership hload
  exact ⟨r, m, c, hload, hm, howner, hstart, hdepth, (howned.1 _ _ hm).1,
    howned.2.2 _ _ _ _ hstart 1⟩

end MiniJvm.Registry
