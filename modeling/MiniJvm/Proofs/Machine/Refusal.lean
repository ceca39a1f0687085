import Mathlib
import MiniJvm.Proofs.Machine.Load

/-!
# What a refused definition leaves behind

Methods are registered one by one, so a definition whose first method is accepted and a later one
refused leaves new methods in the registry, under signatures whose class may not even be there.
A definition that is refused at once leaves the registry as it was. A method is known to be new by
its stamp: no registry that loading leads to holds a stamp that is still to be given
(`Filled.fresh`).
-/

namespace MiniJvm.Registry

/-- The registries that loading leads to, whether it goes through or not. -/
inductive Filled : Registry → Prop where
  | empty : Filled .empty
  | load {r : Registry} (d : ClassDef) : Filled r → Filled (r.loadClass d).registry

/-- The stamps that are still to be given are new. -/
def Fresh (r : Registry) : Prop :=
  ∀ ⦃key m⦄, r.methods.get? key = some m → m.stamp < r.nextStamp

theorem loadable_of_makeMethod {owner : Bytes} {d : MethodDef} {made : Method}
    (h : makeMethod owner d = .ok made) : Loadable d := by
  unfold makeMethod at h
  split at h
  · cases h
  · rename_i p hp
    split at h
    · cases h
    · rename_i hsize
      simp only [Bool.or_eq_true, decide_eq_true_eq, not_or] at hsize
      exact ⟨by rw [hp]; rfl, hsize.1, hsize.2⟩

/-! ## New methods have new stamps -/

section Stamps

variable {r : Registry} {owner : Bytes} {own : Table Method}

theorem loadMethods_error {d : MethodDef} {e : LoadError} (defs : List MethodDef)
    (h : makeMethod owner d = .error e) :
    r.loadMethods owner own (d :: defs) = ⟨r, [], .error e⟩ := by
  simp only [loadMethods, h]

theorem Fresh.insert (h : Fresh r) (m : Method) (key : Bytes) :
    Fresh { r with methods := r.methods.insert key { m with stamp := r.nextStamp },
                   nextStamp := r.nextStamp + 1 } := by
  intro k m' hm
  dsimp only at hm ⊢
  rw [Table.get?_insert] at hm
  split at hm
  · cases hm
    exact Nat.lt_succ_self _
  · exact Nat.lt_succ_of_lt (h hm)

theorem Fresh.loadMethods (h : Fresh r) (defs : List MethodDef) :
    Fresh (r.loadMethods owner own defs).registry := by
  induction defs generalizing r own with
  | nil => exact h
  | cons d rest ih =>
    cases hmade : makeMethod owner d with
    | error e => rwa [loadMethods_error rest hmade]
    | ok made =>
      rw [(loadMethods_cons r own rest hmade).1]
      exact ih (h.insert made _)

/-- Under every signature stands what stood there before, or a new method. -/
theorem get?_loadMethods (defs : List MethodDef) (key : Bytes) :
    (r.loadMethods owner own defs).registry.methods.get? key = r.methods.get? key ∨
      ∃ m, (r.loadMethods owner own defs).registry.methods.get? key = some m ∧
        r.nextStamp ≤ m.stamp := by
  induction defs generalizing r own with
  | nil => exact .inl rfl
  | cons d rest ih =>
    cases hmade : makeMethod owner d with
    | error e =>
      rw [loadMethods_error rest hmade]
      exact .inl rfl
    | ok made =>
      rw [(loadMethods_cons r own rest hmade).1]
      rcases ih with hsame | ⟨m, hm, hstamp⟩
      · rw [hsame, Table.get?_insert]
        split
        · exact .inr ⟨_, rfl, Nat.le_refl _⟩
        · exact .inl rfl
      · exact .inr ⟨m, hm, Nat.le_of_succ_le hstamp⟩

/-- The signature of a first method that loads stands for a new method afterwards. -/
theorem get?_loadMethods_head {d : MethodDef} (defs : List MethodDef) (h : Loadable d) :
    ∃ key m, (r.loadMethods owner own (d :: defs)).registry.methods.get? key = some m ∧
      r.nextStamp ≤ m.stamp := by
  obtain ⟨made, hmade⟩ := makeMethod_ok owner h
  rw [(loadMethods_cons r own defs hmade).1]
  refine ⟨Method.signature { made with stamp := r.nextStamp }, ?_⟩
  rcases get?_loadMethods defs _ with hsame | ⟨m, hm, hstamp⟩
  · rw [hsame, Table.get?_insert, if_pos rfl]
    exact ⟨_, rfl, Nat.le_refl _⟩
  · exact ⟨m, hm, Nat.le_of_succ_le hstamp⟩

end Stamps

theorem nextStamp_dropItem (successor : Class) (r : Registry) (item : Bytes × Method) :
    (dropItem successor r item).nextStamp = r.nextStamp := by
  unfold dropItem removeMethod
  split
  · rfl
  · split
    · split <;> rfl
    · rfl

theorem nextStamp_installClass (r : Registry) (c : Class) :
    (r.installClass c).1.nextStamp = r.nextStamp := by
  unfold installClass
  split
  · rfl
  · rename_i old _
    rw [dropMethods_eq]
    change _ = (r.registerClass c).nextStamp
    generalize r.registerClass c = r
    induction old.methods.items generalizing r with
    | nil => rfl
    | cons item rest ih => rw [List.foldl_cons, ih, nextStamp_dropItem]

theorem Fresh.installClass {r : Registry} (h : Fresh r) (c : Class) :
    Fresh (r.installClass c).1 := by
  intro key m hm
  rw [nextStamp_installClass]
  exact h (get?_installClass hm).1

/-- A refused definition is not installed: what it leaves is what its methods left. -/
theorem loadClass_error {r : Registry} {d : ClassDef} {e : LoadError}
    (h : (r.loadClass d).outcome = .error e) :
    (d.name = [] ∧ (r.loadClass d).registry = r) ∨
      d.name ≠ [] ∧ (r.loadMethods d.name .empty d.methodList).outcome = .error e ∧
        (r.loadClass d).registry = (r.loadMethods d.name .empty d.methodList).registry := by
  unfold loadClass at h ⊢
  split at h
  · rename_i hname
    rw [if_pos hname]
    exact .inl ⟨List.isEmpty_iff.1 hname, rfl⟩
  · rename_i hname
    rw [if_neg hname]
    refine .inr ⟨fun hnil => hname (List.isEmpty_iff.2 hnil), ?_⟩
    cases hout : (r.loadMethods d.name .empty d.methodList).outcome with
    | error e' =>
      simp only [hout, Except.error.injEq, and_true] at h ⊢
      exact h
    | ok tbl => simp [hout] at h

theorem Filled.fresh {r : Registry} (h : Filled r) : Fresh r := by
  induction h with
  | empty => nofun
  | @load r d _ ih =>
    cases hout : (r.loadClass d).outcome with
    | error e =>
      rcases loadClass_error hout with ⟨-, hreg⟩ | ⟨-, -, hreg⟩ <;> rw [hreg]
      · exact ih
      · exact ih.loadMethods _
    | ok u =>
      obtain ⟨tbl, -, hreg⟩ := loadClass_spec hout
      rw [hreg]
      exact (ih.loadMethods _).installClass _

theorem classes_loadMethods (r : Registry) (owner : Bytes) (own : Table Method)
    (defs : List MethodDef) : (r.loadMethods owner own defs).registry.classes = r.classes := by
  induction defs generalizing r own with
  | nil => rfl
  | cons d rest ih =>
    cases hmade : makeMethod owner d with
    | error e => rw [loadMethods_error rest hmade]
    | ok made => rw [(loadMethods_cons r own rest hmade).1, ih]

/-- The definition is refused before any method of it is registered. -/
def RefusedAtOnce (d : ClassDef) : Prop :=
  d.name = [] ∨ ∃ first rest, d.methodList = first :: rest ∧ ¬Loadable first

/-- A refused definition never changes the classes. It leaves the whole registry as it was, or
every signature standing for what it stood for, exactly when it is refused at once. -/
theorem loadClass_refused {r : Registry} (hr : Filled r) {d : ClassDef} {e : LoadError}
    (h : (r.loadClass d).outcome = .error e) :
    (r.loadClass d).registry.classes = r.classes ∧
    ((r.loadClass d).registry = r ↔ RefusedAtOnce d) ∧
    ((∀ key, (r.loadClass d).registry.lookupMethod key = r.lookupMethod key) ↔
      RefusedAtOnce d) := by
  suffices hkey : (r.loadClass d).registry.classes = r.classes ∧
      ((∀ key, (r.loadClass d).registry.lookupMethod key = r.lookupMethod key) →
        RefusedAtOnce d) ∧ (RefusedAtOnce d → (r.loadClass d).registry = r) by
    obtain ⟨hclasses, hsame, honce⟩ := hkey
    exact ⟨hclasses, ⟨fun heq => hsame fun key => by rw [heq], honce⟩,
      ⟨hsame, fun h key => by rw [honce h]⟩⟩
  rcases loadClass_error h with ⟨hname, hreg⟩ | ⟨hname, hout, hreg⟩
  · rw [hreg]
    exact ⟨rfl, fun _ => .inl hname, fun _ => rfl⟩
  rw [hreg]
  refine ⟨classes_loadMethods .., fun hsame => ?_, ?_⟩
  · cases hmethods : d.methodList with
    | nil => rw [hmethods] at hout; cases hout
    | cons first rest =>
      refine .inr ⟨first, rest, hmethods, fun hfirst => ?_⟩
      rw [hmethods] at hsame
      obtain ⟨key, m, hm, hstamp⟩ : ∃ key m,
          (r.loadMethods d.name .empty (first :: rest)).registry.methods.get? key = some m ∧
            r.nextStamp ≤ m.stamp := get?_loadMethods_head rest hfirst
      have hlookup := hsame key
      rw [lookupMethod, hm, lookupMethod] at hlookup
      cases hold : r.methods.get? key with
      | none => rw [hold] at hlookup; cases hlookup
      | some m' =>
        rw [hold] at hlookup
        cases hlookup
        have := hr.fresh hold
        omega
  · rintro (hnil | ⟨first, rest, hmethods, hfirst⟩)
    · exact absurd hnil hname
    · rw [hmethods]
      cases hmade : makeMethod d.name first with
      | error e => rw [loadMethods_error rest hmade]
      | ok made => exact absurd (loadable_of_makeMethod hmade) hfirst

/-- A class with a proper method `f` before one whose descriptor breaks off. -/
def brokenOff : ClassDef :=
  { name := "A", pool := some [],
    methods := some [⟨"f", "()V", 0, 0, some []⟩, ⟨"g", "(", 0, 0, some []⟩] }

theorem loadClass_refused_brokenOff :
    Filled .empty ∧ (empty.loadClass brokenOff).outcome = .error (.badDescriptor "A" "g" "(") ∧
    ¬RefusedAtOnce brokenOff ∧ (empty.loadClass brokenOff).registry ≠ empty := by
  have hout : (empty.loadClass brokenOff).outcome = .error (.badDescriptor "A" "g" "(") := by
    decide +kernel
  have hlate : ¬RefusedAtOnce brokenOff := by
    rintro (h | ⟨first, rest, h, hfirst⟩)
    · cases h
    · cases h
      exact hfirst ⟨by decide +kernel, by decide, by decide⟩
  exact ⟨.empty, hout, hlate, fun h => hlate ((loadClass_refused .empty hout).2.1.1 h)⟩

/-- Loading is not atomic: after the refusal `f` is registered, and the class it belongs to is
not. -/
theorem orphan_after_refusal :
    (empty.loadClass brokenOff).outcome = .error (.badDescriptor "A" "g" "(") ∧
    (empty.loadClass brokenOff).registry.signatures = [("A.f:()V" : Bytes)] ∧
    empty.signatures = [] ∧
    ∃ m, (empty.loadClass brokenOff).registry.lookupMethod "A.f:()V" = .ok m ∧
      (empty.loadClass brokenOff).registry.lookupClass m.owner =
        .error (.classNotFound "A") := by
  refine ⟨by decide +kernel, by decide +kernel, by decide +kernel, ?_⟩
  exact ⟨⟨0, "A", "f", "()V", 0, 0, 0, true, #[]⟩, by decide +kernel, by decide +kernel⟩

end MiniJvm.Registry
