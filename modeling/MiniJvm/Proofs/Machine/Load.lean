import Mathlib
import MiniJvm.Machine.Load
import MiniJvm.Proofs.Basic

/-!
# What loading registers

After classes were loaded, every class is the last definition of its name, and every registered
method stands in the table of its class under the same signature (`load_owned`). So the constants
that a method runs with are those of the definition it came from.
-/

namespace MiniJvm

namespace Registry

/-- `m` is the method that definition `d` of class `owner` makes, whatever its stamp. -/
structure Makes (owner : Bytes) (d : MethodDef) (m : Method) : Prop where
  owner : m.owner = owner
  name : m.name = d.name
  descriptor : m.descriptor = d.descriptor
  maxStack : m.maxStack = d.maxStack
  maxLocals : m.maxLocals = d.maxLocals
  code : m.code = (d.code.getD []).toArray
  parsed : ∃ p, Descriptor.parse? d.descriptor = some p ∧ m.argSlots = Int64.ofNat p.slots ∧
    m.void = p.void

theorem Makes.signature {owner : Bytes} {d : MethodDef} {m : Method} (h : Makes owner d m) :
    m.signature = MiniJvm.signature owner d.name d.descriptor := by
  rw [Method.signature, h.owner, h.name, h.descriptor]

/-- A definition that loading accepts. -/
structure Loadable (d : MethodDef) : Prop where
  parses : (Descriptor.parse? d.descriptor).isSome = true
  maxStack : ¬d.maxStack < 0
  maxLocals : ¬d.maxLocals < 0

theorem makes_of_makeMethod {owner : Bytes} {d : MethodDef} {made : Method}
    (h : makeMethod owner d = .ok made) (stamp : Nat) : Makes owner d { made with stamp } := by
  unfold makeMethod at h
  split at h
  · cases h
  · rename_i p hp
    split at h
    · cases h
    · cases h
      exact ⟨rfl, rfl, rfl, rfl, rfl, rfl, p, hp, rfl, rfl⟩

theorem makeMethod_ok (owner : Bytes) {d : MethodDef} (h : Loadable d) :
    ∃ made, makeMethod owner d = .ok made := by
  obtain ⟨p, hp⟩ := Option.isSome_iff_exists.1 h.parses
  unfold makeMethod
  rw [hp]
  simp [h.maxStack, h.maxLocals]

/-! ## The methods of one class -/

section Methods

variable {r : Registry} {owner : Bytes} {own tbl : Table Method} {d : MethodDef}
  {defs : List MethodDef}

/-- Loading goes on with the rest once a method was made. -/
theorem loadMethods_cons (r : Registry) (own : Table Method) (defs : List MethodDef)
    {made : Method} (h : makeMethod owner d = .ok made) :
    let m := { made with stamp := r.nextStamp }
    let next := { r with
      methods := r.methods.insert m.signature m, nextStamp := r.nextStamp + 1 }
    (r.loadMethods owner own (d :: defs)).registry =
        (next.loadMethods owner (own.insert m.signature m) defs).registry ∧
      (r.loadMethods owner own (d :: defs)).outcome =
        (next.loadMethods owner (own.insert m.signature m) defs).outcome := by
  simp only [loadMethods, h]
  split <;> exact ⟨rfl, rfl⟩

theorem loadMethods_ok (r : Registry) (owner : Bytes) (own : Table Method)
    (h : ∀ d ∈ defs, Loadable d) :
    ∃ tbl, (r.loadMethods owner own defs).outcome = .ok tbl := by
  induction defs generalizing r own with
  | nil => exact ⟨own, rfl⟩
  | cons d rest ih =>
    obtain ⟨made, hmade⟩ := makeMethod_ok owner (h d List.mem_cons_self)
    rw [(loadMethods_cons r own rest hmade).2]
    exact ih _ _ fun d hd => h d (List.mem_cons_of_mem _ hd)

/-- A signature of the class stands for a method that was made, in its table and in the registry;
under any other nothing changes. -/
theorem loadMethods_spec (h : (r.loadMethods owner own defs).outcome = .ok tbl) :
    (r.loadMethods owner own defs).registry.classes = r.classes ∧
    ∀ key, (∃ d ∈ defs, ∃ m, Makes owner d m ∧ m.signature = key ∧ tbl.get? key = some m ∧
        (r.loadMethods owner own defs).registry.methods.get? key = some m) ∨
      (tbl.get? key = own.get? key ∧
        (r.loadMethods owner own defs).registry.methods.get? key = r.methods.get? key) := by
  induction defs generalizing r own with
  | nil =>
    cases h
    exact ⟨rfl, fun key => .inr ⟨rfl, rfl⟩⟩
  | cons d rest ih =>
    cases hmade : makeMethod owner d with
    | error e => simp [loadMethods, hmade] at h
    | ok made =>
      have hcons := loadMethods_cons r own rest hmade
      rw [hcons.2] at h
      rw [hcons.1]
      obtain ⟨hclasses, hkeys⟩ := ih h
      refine ⟨hclasses, fun key => ?_⟩
      rcases hkeys key with ⟨e, he, m, hm⟩ | ⟨htbl, hreg⟩
      · exact .inl ⟨e, List.mem_cons_of_mem _ he, m, hm⟩
      · rw [Table.get?_insert] at htbl hreg
        split at htbl
        · rename_i heq
          rw [if_pos heq] at hreg
          exact .inl ⟨d, List.mem_cons_self, _, makes_of_makeMethod hmade _, heq, htbl, hreg⟩
        · rename_i hne
          rw [if_neg hne] at hreg
          exact .inr ⟨htbl, hreg⟩

end Methods

/-! ## Replaced classes -/

/-- The methods of a replaced class are taken away one by one. -/
def dropItem (successor : Class) (r : Registry) (item : Bytes × Method) : Registry :=
  if successor.methods.contains item.1 then r else r.removeMethod item.1 item.2

theorem dropMethods_eq (r : Registry) (old successor : Class) :
    r.dropMethods old successor = old.methods.items.foldl (dropItem successor) r := rfl

theorem get?_removeMethod {r : Registry} {signature key : Bytes} {m m' : Method}
    (h : (r.removeMethod signature m).methods.get? key = some m') :
    r.methods.get? key = some m' ∧ ¬(signature = key ∧ m' = m) := by
  unfold removeMethod at h
  split at h
  · rename_i found hfound
    split at h
    · rw [Table.get?_erase] at h
      split at h
      · cases h
      · rename_i hne
        exact ⟨h, fun he => hne he.1⟩
    · rename_i hstamp
      refine ⟨h, fun ⟨hk, hm⟩ => ?_⟩
      subst hk hm
      cases hfound.symm.trans h
      exact hstamp rfl
  · rename_i hnone
    refine ⟨h, fun ⟨hk, hm⟩ => ?_⟩
    subst hk
    cases hnone.symm.trans h

theorem get?_dropItem {successor : Class} {r : Registry} {item : Bytes × Method} {key : Bytes}
    {m : Method} (h : (dropItem successor r item).methods.get? key = some m) :
    r.methods.get? key = some m ∧
      (successor.methods.contains key = true ∨ item ≠ (key, m)) := by
  unfold dropItem at h
  split at h
  · rename_i hin
    refine ⟨h, or_iff_not_imp_right.2 fun heq => ?_⟩
    rw [not_not] at heq
    rwa [heq] at hin
  · obtain ⟨hreg, hne⟩ := get?_removeMethod h
    refine ⟨hreg, .inr fun heq => hne ?_⟩
    subst heq
    exact ⟨rfl, rfl⟩

theorem get?_dropItems {successor : Class} {items : List (Bytes × Method)} {r : Registry}
    {key : Bytes} {m : Method}
    (h : (items.foldl (dropItem successor) r).methods.get? key = some m) :
    r.methods.get? key = some m ∧
      (successor.methods.contains key = true ∨ (key, m) ∉ items) := by
  induction items generalizing r with
  | nil => exact ⟨h, .inr List.not_mem_nil⟩
  | cons item rest ih =>
    obtain ⟨hmid, hrest⟩ := ih h
    obtain ⟨hreg, hitem⟩ := get?_dropItem hmid
    refine ⟨hreg, ?_⟩
    rcases hrest with hin | hrest
    · exact .inl hin
    rcases hitem with hin | hitem
    · exact .inl hin
    · exact .inr fun hmem => (List.mem_cons.1 hmem).elim (fun e => hitem e.symm) hrest

theorem mem_of_get? {α : Type} {t : Table α} {key : Bytes} {v : α} (h : t.get? key = some v) :
    (key, v) ∈ t.items := by
  unfold Table.get? at h
  obtain ⟨item, hfind, rfl⟩ := Option.map_eq_some_iff.1 h
  have hkey := List.find?_some hfind
  have hmem := List.mem_of_find?_eq_some hfind
  rwa [← eq_of_beq hkey]

theorem classes_dropItem (successor : Class) (r : Registry) (item : Bytes × Method) :
    (dropItem successor r item).classes = r.classes := by
  unfold dropItem removeMethod
  split
  · rfl
  · split
    · split <;> rfl
    · rfl

theorem classes_dropMethods (r : Registry) (old successor : Class) :
    (r.dropMethods old successor).classes = r.classes := by
  rw [dropMethods_eq]
  induction old.methods.items generalizing r with
  | nil => rfl
  | cons item rest ih => rw [List.foldl_cons, ih, classes_dropItem]

/-- A method that is registered still was registered before, and it is not one of the replaced
class that the new one lacks. -/
theorem get?_dropMethods {r : Registry} {old successor : Class} {key : Bytes} {m : Method}
    (h : (r.dropMethods old successor).methods.get? key = some m) :
    r.methods.get? key = some m ∧
      (successor.methods.contains key = true ∨ old.methods.get? key ≠ some m) := by
  rw [dropMethods_eq] at h
  obtain ⟨hreg, hitems⟩ := get?_dropItems h
  exact ⟨hreg, hitems.imp_right fun hne hold => hne (mem_of_get? hold)⟩

/-! ## Lists of classes -/

/-- The last definition of a name. -/
def lastNamed (defs : List ClassDef) (name : Bytes) : Option ClassDef :=
  defs.reverse.find? fun d => d.name == name

theorem lastNamed_append (defs : List ClassDef) (d : ClassDef) (name : Bytes) :
    lastNamed (defs ++ [d]) name = if d.name = name then some d else lastNamed defs name := by
  rw [lastNamed, List.reverse_append, List.reverse_singleton, List.singleton_append,
    List.find?_cons]
  by_cases h : d.name = name
  · simp [h]
  · rw [if_neg h, beq_false_of_ne h]
    rfl

/-- The class is what a definition makes. -/
structure ClassOf (d : ClassDef) (c : Class) : Prop where
  pool : c.pool = some (Pool.ofEntries d.constants)
  methods : ∀ {key m}, c.methods.get? key = some m →
    m.signature = key ∧ ∃ md ∈ d.methodList, Makes d.name md m

/-- What holds after the definitions were loaded. -/
structure Owned (defs : List ClassDef) (r : Registry) : Prop where
  classes : ∀ {name c}, r.classes.get? name = some c →
    ∃ d, lastNamed defs name = some d ∧ ClassOf d c
  methods : ∀ {key m}, r.methods.get? key = some m →
    ∃ c, r.classes.get? m.owner = some c ∧ c.methods.get? key = some m

theorem Owned.empty : Owned [] Registry.empty := ⟨nofun, nofun⟩

/-- The class that a definition makes with its methods. -/
def classOf (d : ClassDef) (methods : Table Method) : Class :=
  { name := d.name, superName := d.superName, pool := some (Pool.ofEntries d.constants), methods }

theorem loadClass_spec {r : Registry} {d : ClassDef} (h : (r.loadClass d).outcome = .ok ()) :
    ∃ tbl, (r.loadMethods d.name .empty d.methodList).outcome = .ok tbl ∧
      (r.loadClass d).registry =
        ((r.loadMethods d.name .empty d.methodList).registry.installClass (classOf d tbl)).1 := by
  unfold loadClass at h ⊢
  split at h
  · cases h
  · rename_i hname
    rw [if_neg hname]
    cases htbl : (r.loadMethods d.name .empty d.methodList).outcome with
    | error e => simp [htbl] at h
    | ok tbl => exact ⟨tbl, rfl, by simp only [htbl]; rfl⟩

theorem classes_installClass (r : Registry) (c : Class) :
    (r.installClass c).1.classes = r.classes.insert c.name c := by
  unfold installClass
  split
  · rfl
  · exact classes_dropMethods ..

/-- Installing a class registers no method, and takes away those that it lacks. -/
theorem get?_installClass {r : Registry} {c : Class} {key : Bytes} {m : Method}
    (h : (r.installClass c).1.methods.get? key = some m) :
    r.methods.get? key = some m ∧ ∀ {old}, r.classes.get? c.name = some old →
      c.methods.contains key = true ∨ old.methods.get? key ≠ some m := by
  unfold installClass at h
  split at h
  · rename_i hnone
    exact ⟨h, fun hold => absurd (hnone.symm.trans hold) nofun⟩
  · rename_i old hold
    obtain ⟨hreg, hgone⟩ := get?_dropMethods h
    exact ⟨hreg, fun hold' => Option.some.inj (hold.symm.trans hold') ▸ hgone⟩

theorem Owned.loadClass {defs : List ClassDef} {r : Registry} {d : ClassDef} (ho : Owned defs r)
    (h : (r.loadClass d).outcome = .ok ()) : Owned (defs ++ [d]) (r.loadClass d).registry := by
  obtain ⟨tbl, htbl, hreg⟩ := loadClass_spec h
  obtain ⟨hclasses, hkeys⟩ := loadMethods_spec htbl
  have hget : ∀ name, (r.loadClass d).registry.classes.get? name =
      if d.name = name then some (classOf d tbl) else r.classes.get? name := by
    intro name
    rw [hreg, classes_installClass, hclasses, Table.get?_insert]
    rfl
  constructor
  · intro name c hc
    rw [hget] at hc
    rw [lastNamed_append]
    split at hc
    · rename_i hname
      cases hc
      rw [if_pos hname]
      refine ⟨d, rfl, rfl, fun {key m} hm => ?_⟩
      rcases hkeys key with ⟨md, hmd, m', hmakes, hsig, hm', -⟩ | ⟨hnone, -⟩
      · cases hm.symm.trans hm'
        exact ⟨hsig, md, hmd, hmakes⟩
      · cases hm.symm.trans hnone
    · rename_i hname
      rw [if_neg hname]
      exact ho.classes hc
  · intro key m hm
    rw [hreg] at hm
    obtain ⟨hreg', hgone⟩ := get?_installClass hm
    rw [hget]
    rcases hkeys key with ⟨md, -, m', hmakes, -, htbl', hm'⟩ | ⟨hnone, hsame⟩
    · cases hreg'.symm.trans hm'
      rw [if_pos hmakes.owner.symm]
      exact ⟨_, rfl, htbl'⟩
    · rw [hsame] at hreg'
      obtain ⟨c, hc, hcm⟩ := ho.methods hreg'
      by_cases howner : d.name = m.owner
      · rw [← hclasses, ← howner] at hc
        have hlacks : ¬(classOf d tbl).methods.contains key = true := by
          rw [Table.contains]
          change ¬(tbl.get? key).isSome = true
          rw [hnone]
          exact nofun
        exact absurd hcm ((hgone hc).resolve_left hlacks)
      · rw [if_neg howner]
        exact ⟨c, hc, hcm⟩

/-- A class that loading accepts. -/
structure LoadableClass (d : ClassDef) : Prop where
  named : d.name ≠ []
  methods : ∀ m ∈ d.methodList, Loadable m

theorem loadClass_ok {r : Registry} {d : ClassDef} (h : LoadableClass d) :
    (r.loadClass d).outcome = .ok () := by
  obtain ⟨tbl, htbl⟩ := loadMethods_ok r d.name .empty h.methods
  have hname : ¬d.name.isEmpty = true := by
    rw [List.isEmpty_iff]
    exact h.named
  unfold loadClass
  rw [if_neg hname]
  simp only [htbl]

theorem loadAll_cons_ok {r : Registry} {d : ClassDef} {rest : List ClassDef}
    (h : (r.loadClass d).outcome = .ok ()) :
    (r.loadAll (d :: rest)).registry = ((r.loadClass d).registry.loadAll rest).registry ∧
      (r.loadAll (d :: rest)).outcome =
        ((r.loadClass d).registry.loadAll rest).outcome.map (· + 1) := by
  rw [loadAll, h]
  exact ⟨rfl, rfl⟩

theorem loadAll_ok {r : Registry} {defs : List ClassDef} (h : ∀ d ∈ defs, LoadableClass d) :
    ∃ n, (r.loadAll defs).outcome = .ok n := by
  induction defs generalizing r with
  | nil => exact ⟨0, rfl⟩
  | cons d rest ih =>
    have hd := loadClass_ok (r := r) (h d List.mem_cons_self)
    obtain ⟨n, hn⟩ := ih (r := (r.loadClass d).registry) fun d hd => h d (List.mem_cons_of_mem _ hd)
    rw [(loadAll_cons_ok hd).2, hn]
    exact ⟨n + 1, rfl⟩

theorem Owned.loadAll {before defs : List ClassDef} {r : Registry} {n : Nat}
    (ho : Owned before r) (h : (r.loadAll defs).outcome = .ok n) :
    Owned (before ++ defs) (r.loadAll defs).registry := by
  induction defs generalizing before r n with
  | nil => rwa [List.append_nil]
  | cons d rest ih =>
    cases hd : (r.loadClass d).outcome with
    | error e => rw [Registry.loadAll, hd] at h; cases h
    | ok u =>
      rw [(loadAll_cons_ok hd).2] at h
      rw [(loadAll_cons_ok hd).1]
      cases hrest : ((r.loadClass d).registry.loadAll rest).outcome with
      | error e => rw [hrest] at h; cases h
      | ok k =>
        have hall := ih (ho.loadClass hd) hrest
        rwa [List.append_assoc, List.singleton_append] at hall

theorem load_eq (defs : List ClassDef) :
    load defs = (empty.loadAll defs).outcome.map fun _ => (empty.loadAll defs).registry := rfl

theorem load_ok {defs : List ClassDef} (h : ∀ d ∈ defs, LoadableClass d) :
    ∃ r, load defs = .ok r := by
  obtain ⟨n, hn⟩ := loadAll_ok (r := empty) h
  exact ⟨_, by rw [load_eq, hn]; rfl⟩

/-- A registry that was loaded is what all definitions left, and none of them was refused. -/
theorem loadAll_of_load {defs : List ClassDef} {r : Registry} (h : load defs = .ok r) :
    ∃ n, (empty.loadAll defs).outcome = .ok n ∧ (empty.loadAll defs).registry = r := by
  rw [load_eq] at h
  cases hn : (empty.loadAll defs).outcome with
  | error e => rw [hn] at h; cases h
  | ok n =>
    rw [hn] at h
    exact ⟨n, rfl, Except.ok.inj h⟩

theorem load_owned {defs : List ClassDef} {r : Registry} (h : load defs = .ok r) :
    Owned defs r := by
  obtain ⟨n, hn, rfl⟩ := loadAll_of_load h
  exact Owned.empty.loadAll hn

end Registry

end MiniJvm
