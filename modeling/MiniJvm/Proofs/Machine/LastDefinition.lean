import Mathlib
import MiniJvm.Proofs.Machine.Ownership

/-!
# The last definition counts

Loading goes definition by definition and method by method, with what it finds replaced and what a
new class lacks taken away. Where signatures of different classes and methods cannot be confused,
all of this comes to one rule: the registry holds, for each class, its last definition, and for
each method the last one of its name and descriptor in there (`LastWins`). Neither the order in
which methods are taken away nor the order of different classes can be seen in the result.
-/

namespace MiniJvm.Registry

/-! ## Signatures -/

/-- Class names without a dot and method names without a colon. -/
def Separable (defs : List ClassDef) : Prop :=
  ∀ d ∈ defs, (46 : UInt8) ∉ d.name ∧ ∀ m ∈ d.methodList, (58 : UInt8) ∉ m.name

instance (defs : List ClassDef) : Decidable (Separable defs) :=
  inferInstanceAs (Decidable (∀ _ ∈ _, _))

/-- A text is cut in one way only at the first of a byte. -/
theorem cut_unique {x : UInt8} {a b a' b' : Bytes} (ha : x ∉ a) (ha' : x ∉ a')
    (h : a ++ x :: b = a' ++ x :: b') : a = a' ∧ b = b' := by
  induction a generalizing a' with
  | nil =>
    cases a' with
    | nil => exact ⟨rfl, List.tail_eq_of_cons_eq h⟩
    | cons y a' => exact absurd (List.head_eq_of_cons_eq h ▸ List.mem_cons_self) ha'
  | cons y a ih =>
    cases a' with
    | nil => exact absurd (List.head_eq_of_cons_eq h ▸ List.mem_cons_self) ha
    | cons y' a' =>
      obtain ⟨rfl, hrest⟩ := List.cons.inj h
      obtain ⟨rfl, hb⟩ := ih (fun hx => ha (List.mem_cons_of_mem _ hx))
        (fun hx => ha' (List.mem_cons_of_mem _ hx)) hrest
      exact ⟨rfl, hb⟩

theorem signature_eq (owner name descriptor : Bytes) :
    MiniJvm.signature owner name descriptor = owner ++ 46 :: (name ++ 58 :: descriptor) := by
  have hdot : Bytes.ofString "." = [46] := by decide
  have hcolon : Bytes.ofString ":" = [58] := by decide
  simp [MiniJvm.signature, hdot, hcolon]

theorem signature_injective {owner name descriptor owner' name' descriptor' : Bytes}
    (ho : (46 : UInt8) ∉ owner) (ho' : (46 : UInt8) ∉ owner') (hn : (58 : UInt8) ∉ name)
    (hn' : (58 : UInt8) ∉ name')
    (h : MiniJvm.signature owner name descriptor = MiniJvm.signature owner' name' descriptor') :
    owner = owner' ∧ name = name' ∧ descriptor = descriptor' := by
  rw [signature_eq, signature_eq] at h
  obtain ⟨howner, hrest⟩ := cut_unique ho ho' h
  exact ⟨howner, cut_unique hn hn' hrest⟩

/-- The last method of a name and a descriptor in a definition. -/
def lastOccurrence (d : ClassDef) (name descriptor : Bytes) : Option MethodDef :=
  d.methodList.reverse.find? fun m => m.name == name && m.descriptor == descriptor

theorem lastOccurrence_eq {d : ClassDef} {name : Bytes} (descriptor : Bytes)
    (hd : (46 : UInt8) ∉ d.name) (hm : ∀ m ∈ d.methodList, (58 : UInt8) ∉ m.name)
    (hname : (58 : UInt8) ∉ name) :
    lastOccurrence d name descriptor =
      lastUnder d.name d.methodList (MiniJvm.signature d.name name descriptor) := by
  unfold lastOccurrence lastUnder
  refine List.find?_congr fun m hmem => ?_
  have hm := hm m (List.mem_reverse.1 hmem)
  rw [Bool.eq_iff_iff, Bool.and_eq_true, beq_iff_eq, beq_iff_eq, beq_iff_eq]
  constructor
  · rintro ⟨rfl, rfl⟩
    rfl
  · intro h
    exact (signature_injective hd hd hm hname h).2

/-! ## What taking methods away leaves -/

section Drop

variable {r : Registry} {c old : Class} {key : Bytes}

theorem get?_removeMethod_of_ne {signature : Bytes} (m : Method) (h : signature ≠ key) :
    (r.removeMethod signature m).methods.get? key = r.methods.get? key := by
  unfold removeMethod
  split
  · split
    · rw [Table.get?_erase, if_neg h]
    · rfl
  · rfl

theorem get?_dropItem_of {item : Bytes × Method}
    (h : c.methods.contains key = true ∨ item.1 ≠ key) :
    (dropItem c r item).methods.get? key = r.methods.get? key := by
  unfold dropItem
  by_cases hkey : item.1 = key
  · rw [hkey, if_pos (h.resolve_right fun hne => hne hkey)]
  · split
    · rfl
    · exact get?_removeMethod_of_ne _ hkey

/-- What the new class has too, and what the old one did not have, stays. -/
theorem get?_dropMethods_of (h : c.methods.contains key = true ∨ old.methods.get? key = none) :
    (r.dropMethods old c).methods.get? key = r.methods.get? key := by
  have hitems : ∀ item ∈ old.methods.items, c.methods.contains key = true ∨ item.1 ≠ key := by
    refine fun item hitem => h.imp_right fun hnone hkey => ?_
    rw [Table.get?, Option.map_eq_none_iff, List.find?_eq_none] at hnone
    exact hnone item hitem (by rw [hkey, beq_self_eq_true])
  rw [dropMethods_eq]
  generalize old.methods.items = items at hitems
  induction items generalizing r with
  | nil => rfl
  | cons item rest ih =>
    obtain ⟨hitem, hrest⟩ := List.forall_mem_cons.1 hitems
    rw [List.foldl_cons, ih hrest, get?_dropItem_of hitem]

theorem get?_installClass_of (h : c.methods.contains key = true ∨
    ∀ old, r.classes.get? c.name = some old → old.methods.get? key = none) :
    (r.installClass c).1.methods.get? key = r.methods.get? key := by
  unfold installClass
  split
  · rfl
  · rename_i old hold
    exact get?_dropMethods_of (h.imp_right fun hall => hall old hold)

/-- A loaded class has its methods registered. Of the others those stay that the class which it
replaces did not have. -/
theorem methods_loadClass {d : ClassDef} {s : Registry} (h : Accepts r d s)
    (hc : s.classes.get? d.name = some c) (key : Bytes) :
    (∀ m, c.methods.get? key = some m → s.methods.get? key = some m) ∧
      (c.methods.get? key = none →
        (∀ old, r.classes.get? d.name = some old → old.methods.get? key = none) →
        s.methods.get? key = r.methods.get? key) := by
  obtain ⟨hok, rfl⟩ := h
  obtain ⟨tbl, htbl, hreg⟩ := loadClass_spec hok
  have hname : (classOf d tbl).name = d.name := rfl
  rw [hreg, classes_installClass, Table.get?_insert, if_pos hname] at hc
  cases hc
  have hlast := loadMethods_last htbl key
  rw [hreg]
  -- The methods of the old class are taken away after those of the new one were registered, so
  -- only a signature that the new class lacks can be lost.
  cases hmd : lastUnder d.name d.methodList key with
  | some md =>
    rw [hmd] at hlast
    obtain ⟨m, -, hget, hm⟩ := hlast
    have hin : (classOf d tbl).methods.contains key = true := Option.isSome_iff_exists.2 ⟨m, hget⟩
    rw [get?_installClass_of (.inl hin), hm]
    exact ⟨fun m' hm' => hget.symm.trans hm', fun hnone => absurd (hget.symm.trans hnone) nofun⟩
  | none =>
    rw [hmd] at hlast
    obtain ⟨hnone, hm⟩ := hlast
    refine ⟨fun m hm' => absurd (hnone.symm.trans hm') nofun, fun _ hold => ?_⟩
    rw [get?_installClass_of (.inr ?_), hm]
    rw [classes_loadMethods]
    exact hold

end Drop

/-! ## Every method of a class is registered -/

theorem Separable.of_append {front rest : List ClassDef} (h : Separable (front ++ rest)) :
    Separable front ∧ Separable rest :=
  List.forall_mem_append.1 h

/-- A signature in the table of a class is made of the name of the class. -/
theorem key_of_class {defs : List ClassDef} {r : Registry} (h : load defs = .ok r)
    {name key : Bytes} {c : Class} {m : Method} (hc : r.classes.get? name = some c)
    (hm : c.methods.get? key = some m) :
    ∃ d ∈ defs, d.name = name ∧
      ∃ md ∈ d.methodList, MiniJvm.signature name md.name md.descriptor = key := by
  rcases classes_load h name with
    ⟨hnone, -⟩ | ⟨d, first, c', ⟨before, after, rfl, -⟩, rfl, hc', hfrom⟩
  · cases hc.symm.trans hnone
  · cases hc.symm.trans hc'
    obtain ⟨md, hmd, -⟩ := hfrom.of_get? hm
    obtain ⟨hmem, hkey⟩ := mem_of_lastUnder hmd
    exact ⟨d, List.mem_append_right _ List.mem_cons_self, rfl, md, hmem, hkey⟩

/-- Classes that have a signature in common have one name. -/
theorem Separable.same_owner {defs : List ClassDef} (hsep : Separable defs) {d e : ClassDef}
    {md me : MethodDef} (hd : d ∈ defs) (he : e ∈ defs) (hmd : md ∈ d.methodList)
    (hme : me ∈ e.methodList)
    (h : MiniJvm.signature d.name md.name md.descriptor =
      MiniJvm.signature e.name me.name me.descriptor) : d.name = e.name := by
  obtain ⟨hdname, hdmethods⟩ := hsep d hd
  obtain ⟨hename, hemethods⟩ := hsep e he
  exact (signature_injective hdname hename (hdmethods md hmd) (hemethods me hme) h).1

theorem registered_of_class {defs : List ClassDef} {r : Registry} (h : load defs = .ok r)
    (hsep : Separable defs) {name key : Bytes} {c : Class} {m : Method}
    (hc : r.classes.get? name = some c) (hm : c.methods.get? key = some m) :
    r.methods.get? key = some m := by
  induction defs using List.reverseRecOn generalizing r c m with
  | nil =>
    cases load_ok_iff.1 h
    cases hc
  | append_singleton defs d ih =>
    obtain ⟨s, hs, hd⟩ := Loads.snoc_iff.1 (load_ok_iff.1 h)
    have hs := load_ok_iff.2 hs
    obtain ⟨new, hnew, hget⟩ := classes_loadClass hd
    have hkeys := methods_loadClass hd (by rw [hget, if_pos rfl]) key
    rw [hget] at hc
    by_cases hname : d.name = name
    · rw [if_pos hname] at hc
      cases hc
      exact hkeys.1 m hm
    · rw [if_neg hname] at hc
      have hold := ih hs hsep.of_append.1 hc hm
      obtain ⟨e, he, rfl, me, hme, hkey⟩ := key_of_class hs hc hm
      have hmem {x : ClassDef} (hx : x ∈ defs) : x ∈ defs ++ [d] := List.mem_append_left _ hx
      have hlast : d ∈ defs ++ [d] := List.mem_append_right _ (List.mem_singleton_self d)
      rw [hkeys.2 ?_ ?_, hold]
      · cases hnone : new.methods.get? key with
        | none => rfl
        | some m' =>
          obtain ⟨md, hmd, -⟩ := hnew.of_get? hnone
          obtain ⟨hmdmem, hmdkey⟩ := mem_of_lastUnder hmd
          exact absurd (hsep.same_owner hlast (hmem he) hmdmem hme (hmdkey.trans hkey.symm)) hname
      · intro old hold'
        cases hnone : old.methods.get? key with
        | none => rfl
        | some m' =>
          obtain ⟨x, hx, hxname, mx, hmx, hxkey⟩ := key_of_class hs hold' hnone
          rw [← hxname] at hxkey hname
          exact absurd (hsep.same_owner (hmem hx) (hmem he) hmx hme (hxkey.trans hkey.symm)) hname

/-! ## What a list of definitions makes -/

theorem mem_of_lastNamed {defs : List ClassDef} {name : Bytes} {d : ClassDef}
    (h : lastNamed defs name = some d) : d ∈ defs ∧ d.name = name := by
  unfold lastNamed at h
  exact ⟨List.mem_reverse.1 (List.mem_of_find?_eq_some h), by simpa using List.find?_some h⟩

theorem lastNamed_eq_none {defs : List ClassDef} {name : Bytes} :
    lastNamed defs name = none ↔ ∀ d ∈ defs, d.name ≠ name := by
  simp [lastNamed]

theorem LastDefinition.lastNamed_eq {defs : List ClassDef} {d : ClassDef} {first : Registry}
    (h : LastDefinition defs d first) : lastNamed defs d.name = some d := by
  obtain ⟨before, after, rfl, hafter, -⟩ := h
  have hnone : (after.reverse.find? fun e => e.name == d.name) = none := by
    rw [List.find?_eq_none]
    exact fun e he => by simpa using hafter e (List.mem_reverse.1 he)
  rw [lastNamed, List.reverse_append, List.reverse_cons, List.append_assoc, List.find?_append,
    hnone, Option.none_or]
  exact List.find?_cons_of_pos (beq_self_eq_true _)

/-- The class of a name is made from the last definition of the name. -/
theorem class_of_lastNamed {defs : List ClassDef} {r : Registry} (h : load defs = .ok r)
    (name : Bytes) :
    match lastNamed defs name with
    | none => r.classes.get? name = none
    | some d => ∃ first c, LastDefinition defs d first ∧ d.name = name ∧
        r.classes.get? name = some c ∧ ClassFrom first d c := by
  rcases classes_load h name with ⟨hnone, hall⟩ | ⟨d, first, c, hlast, rfl, hrest⟩
  · rw [lastNamed_eq_none.2 hall]
    exact hnone
  · rw [hlast.lastNamed_eq]
    exact ⟨first, c, hlast, rfl, hrest⟩

/-- A signature stands for what the last method under it in a last definition makes. -/
theorem method_of_lookup {defs : List ClassDef} {r : Registry} (h : load defs = .ok r)
    {key : Bytes} {m : Method} (hm : r.methods.get? key = some m) :
    ∃ d first md, LastDefinition defs d first ∧ lastUnder d.name d.methodList key = some md ∧
      MadeBetween first (first.loadClass d).registry d.name md m := by
  obtain ⟨c, -, hc, -, hcm, -⟩ := owner_of_load h hm
  have hclass := class_of_lastNamed h m.owner
  cases hd : lastNamed defs m.owner with
  | none =>
    rw [hd] at hclass
    cases hc.symm.trans hclass
  | some d =>
    rw [hd] at hclass
    obtain ⟨first, c', hlast, -, hc', hfrom⟩ := hclass
    cases hc.symm.trans hc'
    obtain ⟨md, hmd, hmade⟩ := hfrom.of_get? hcm
    exact ⟨d, first, md, hlast, hmd, hmade⟩

/-- Every method of a last definition is there. -/
theorem lookup_of_method {defs : List ClassDef} {r : Registry} (h : load defs = .ok r)
    (hsep : Separable defs) {d : ClassDef} {md : MethodDef} {key : Bytes}
    (hd : lastNamed defs d.name = some d) (hmd : lastUnder d.name d.methodList key = some md) :
    ∃ m, r.methods.get? key = some m ∧ Makes d.name md m := by
  have hclass := class_of_lastNamed h d.name
  rw [hd] at hclass
  obtain ⟨first, c, -, -, hc, hfrom⟩ := hclass
  have hkey := hfrom.methods key
  rw [hmd] at hkey
  obtain ⟨m, hm, hmade⟩ := hkey
  exact ⟨m, registered_of_class h hsep hc hm, hmade.makes⟩

/-! ## The order in which methods are taken away -/

section DropOrder

/-- The table without a name, if the value under it passes a test. -/
def eraseIf {α : Type} (t : Table α) (name : Bytes) (test : α → Bool) : Table α :=
  if (t.get? name).any test then t.erase name else t

theorem eraseIf_comm {α : Type} (t : Table α) (a b : Bytes) (p q : α → Bool) :
    eraseIf (eraseIf t a p) b q = eraseIf (eraseIf t b q) a p := by
  have herase : (t.erase a).erase b = (t.erase b).erase a := congrArg Table.mk (List.filter_comm ..)
  by_cases hab : a = b
  · subst hab
    by_cases hp : (t.get? a).any p <;> by_cases hq : (t.get? a).any q <;>
      simp [eraseIf, hp, hq, Table.get?_erase]
  · have hba : ¬b = a := fun h => hab h.symm
    by_cases hp : (t.get? a).any p <;> by_cases hq : (t.get? b).any q <;>
      simp [eraseIf, hp, hq, Table.get?_erase, hab, hba, herase]

theorem removeMethod_eq (r : Registry) (signature : Bytes) (m : Method) :
    r.removeMethod signature m =
      { r with methods := eraseIf r.methods signature fun found => found.stamp == m.stamp } := by
  unfold removeMethod eraseIf
  cases r.methods.get? signature with
  | none => rfl
  | some found => by_cases h : found.stamp = m.stamp <;> simp [h]

theorem dropItem_comm (successor : Class) (r : Registry) (a b : Bytes × Method) :
    dropItem successor (dropItem successor r a) b =
      dropItem successor (dropItem successor r b) a := by
  unfold dropItem
  split
  · rfl
  · split
    · rfl
    · simp only [removeMethod_eq, eraseIf_comm r.methods a.1 b.1]

/-- A definition is loaded, and the methods of the class that it replaces are gone through in some
order. -/
inductive AcceptsInSomeOrder (r : Registry) (d : ClassDef) : Registry → Prop where
  | new {tbl : Table Method} : d.name ≠ [] →
      (r.loadMethods d.name .empty d.methodList).outcome = .ok tbl →
      r.classes.get? d.name = none →
      AcceptsInSomeOrder r d
        ((r.loadMethods d.name .empty d.methodList).registry.registerClass (classOf d tbl))
  | replaces {tbl : Table Method} {old : Class} {items : List (Bytes × Method)} : d.name ≠ [] →
      (r.loadMethods d.name .empty d.methodList).outcome = .ok tbl →
      r.classes.get? d.name = some old → items.Perm old.methods.items →
      AcceptsInSomeOrder r d (items.foldl (dropItem (classOf d tbl))
        ((r.loadMethods d.name .empty d.methodList).registry.registerClass (classOf d tbl)))

theorem named_of_loadClass {r : Registry} {d : ClassDef} (h : (r.loadClass d).outcome = .ok ()) :
    d.name ≠ [] := by
  intro hname
  rw [loadClass, if_pos (List.isEmpty_iff.2 hname)] at h
  cases h

theorem acceptsInSomeOrder_iff {r s : Registry} {d : ClassDef} :
    AcceptsInSomeOrder r d s ↔ Accepts r d s := by
  have hclasses := classes_loadMethods r d.name .empty d.methodList
  constructor
  · intro h
    have hok : (r.loadClass d).outcome = .ok () := by
      cases h with
      | new hname htbl | replaces hname htbl =>
        rw [loadClass, if_neg (mt List.isEmpty_iff.1 hname)]
        simp only [htbl]
    obtain ⟨tbl', htbl', hreg⟩ := loadClass_spec hok
    refine ⟨hok, hreg.trans ?_⟩
    have hname : (classOf d tbl').name = d.name := rfl
    cases h with
    | new _ htbl hnone =>
      cases htbl.symm.trans htbl'
      simp only [installClass, hname, hclasses, hnone]
    | replaces _ htbl hold hperm =>
      cases htbl.symm.trans htbl'
      simp only [installClass, hname, hclasses, hold, dropMethods_eq]
      exact hperm.symm.foldl_eq' (fun a _ b _ r => dropItem_comm _ r a b) _
  · rintro ⟨hok, rfl⟩
    have hname := named_of_loadClass hok
    obtain ⟨tbl, htbl, hreg⟩ := loadClass_spec hok
    have hclass : (classOf d tbl).name = d.name := rfl
    rw [hreg]
    unfold installClass
    rw [hclass, hclasses]
    cases hold : r.classes.get? d.name with
    | none => exact .new hname htbl hold
    | some old => exact .replaces hname htbl hold (.refl _)

end DropOrder

/-! ## The order of different classes -/

/-- A method without the number that tells it from an equal one. -/
def unstamped (m : Method) : Method := { m with stamp := 0 }

theorem Makes.unstamped_eq {owner : Bytes} {d : MethodDef} {m m' : Method} (h : Makes owner d m)
    (h' : Makes owner d m') : unstamped m = unstamped m' := by
  obtain ⟨p, hp, hslots, hvoid⟩ := h.parsed
  obtain ⟨p', hp', hslots', hvoid'⟩ := h'.parsed
  cases hp.symm.trans hp'
  simp only [unstamped, h.owner, h.name, h.descriptor, h.maxStack, h.maxLocals, h.code, hslots,
    hvoid, h'.owner, h'.name, h'.descriptor, h'.maxStack, h'.maxLocals, h'.code, hslots', hvoid']

/-- Two classes are the same but for the numbers of their methods. -/
structure AlikeClasses (c c' : Class) : Prop where
  name : c.name = c'.name
  superName : c.superName = c'.superName
  pool : c.pool = c'.pool
  methods : ∀ key, (c.methods.get? key).map unstamped = (c'.methods.get? key).map unstamped

/-- Two registries are the same but for the numbers of the methods. -/
structure Alike (r r' : Registry) : Prop where
  classes : ∀ name, Option.Rel AlikeClasses (r.classes.get? name) (r'.classes.get? name)
  methods : ∀ key, (r.methods.get? key).map unstamped = (r'.methods.get? key).map unstamped

theorem ClassFrom.alike {first first' : Registry} {d : ClassDef} {c c' : Class}
    (h : ClassFrom first d c) (h' : ClassFrom first' d c') : AlikeClasses c c' := by
  refine ⟨h.name.trans h'.name.symm, h.superName.trans h'.superName.symm,
    h.pool.trans h'.pool.symm, fun key => ?_⟩
  have hkey := h.methods key
  have hkey' := h'.methods key
  cases hmd : lastUnder d.name d.methodList key with
  | none =>
    rw [hmd] at hkey hkey'
    rw [hkey, hkey']
  | some md =>
    rw [hmd] at hkey hkey'
    obtain ⟨m, hm, hmade⟩ := hkey
    obtain ⟨m', hm', hmade'⟩ := hkey'
    rw [hm, hm']
    exact congrArg some (hmade.makes.unstamped_eq hmade'.makes)

section Alike

variable {defs defs' : List ClassDef} {r r' : Registry}

/-- What a signature stands for is found wherever the last definitions are the same. -/
theorem lookup_alike (h : load defs = .ok r) (h' : load defs' = .ok r') (hsep' : Separable defs')
    (hlast : ∀ name, lastNamed defs name = lastNamed defs' name) {key : Bytes} {m : Method}
    (hm : r.methods.get? key = some m) :
    ∃ m', r'.methods.get? key = some m' ∧ unstamped m = unstamped m' := by
  obtain ⟨d, first, md, hd, hmd, hmade⟩ := method_of_lookup h hm
  obtain ⟨m', hm', hmakes⟩ := lookup_of_method h' hsep' (hlast d.name ▸ hd.lastNamed_eq) hmd
  exact ⟨m', hm', hmade.makes.unstamped_eq hmakes⟩

theorem load_alike (h : load defs = .ok r) (h' : load defs' = .ok r') (hsep : Separable defs)
    (hsep' : Separable defs') (hlast : ∀ name, lastNamed defs name = lastNamed defs' name) :
    Alike r r' := by
  refine ⟨fun name => ?_, fun key => ?_⟩
  · have hclass := class_of_lastNamed h name
    have hclass' := class_of_lastNamed h' name
    rw [← hlast] at hclass'
    cases hd : lastNamed defs name with
    | none =>
      rw [hd] at hclass hclass'
      rw [hclass, hclass']
      exact .none
    | some d =>
      rw [hd] at hclass hclass'
      obtain ⟨first, c, -, -, hc, hfrom⟩ := hclass
      obtain ⟨first', c', -, -, hc', hfrom'⟩ := hclass'
      rw [hc, hc']
      exact .some (hfrom.alike hfrom')
  · cases hm : r.methods.get? key with
    | some m =>
      obtain ⟨m', hm', heq⟩ := lookup_alike h h' hsep' hlast hm
      rw [hm']
      exact congrArg some heq
    | none =>
      cases hm' : r'.methods.get? key with
      | none => rfl
      | some m' =>
        obtain ⟨m, hfound, -⟩ := lookup_alike h' h hsep (fun name => (hlast name).symm) hm'
        cases hm.symm.trans hfound

end Alike

theorem loadable_of_loadMethods {r : Registry} {owner : Bytes} {own tbl : Table Method}
    {defs : List MethodDef} (h : (r.loadMethods owner own defs).outcome = .ok tbl) :
    ∀ d ∈ defs, Loadable d := by
  induction defs generalizing r own with
  | nil => nofun
  | cons d rest ih =>
    cases hmade : makeMethod owner d with
    | error e =>
      rw [loadMethods_error rest hmade] at h
      cases h
    | ok made =>
      rw [(loadMethods_cons r own rest hmade).2] at h
      exact List.forall_mem_cons.2 ⟨loadable_of_makeMethod hmade, ih h⟩

theorem loadable_of_load {defs : List ClassDef} {r : Registry} (h : load defs = .ok r) :
    ∀ d ∈ defs, LoadableClass d := by
  induction defs using List.reverseRecOn generalizing r with
  | nil => nofun
  | append_singleton defs d ih =>
    obtain ⟨s, hs, hok, -⟩ := Loads.snoc_iff.1 (load_ok_iff.1 h)
    obtain ⟨tbl, htbl, -⟩ := loadClass_spec hok
    intro e he
    rcases List.mem_append.1 he with he | he
    · exact ih (load_ok_iff.2 hs) e he
    · rw [List.mem_singleton.1 he]
      exact ⟨named_of_loadClass hok, loadable_of_loadMethods htbl⟩

/-- The definitions of every class are the same, in the same order. -/
def SameByClass (defs defs' : List ClassDef) : Prop :=
  ∀ name, (defs.filter fun d => d.name == name) = defs'.filter fun d => d.name == name

theorem SameByClass.lastNamed_eq {defs defs' : List ClassDef} (h : SameByClass defs defs')
    (name : Bytes) : lastNamed defs name = lastNamed defs' name := by
  rw [lastNamed, lastNamed, ← List.head?_filter, ← List.head?_filter, List.filter_reverse,
    List.filter_reverse, h name]

theorem SameByClass.mem_iff {defs defs' : List ClassDef} (h : SameByClass defs defs')
    {d : ClassDef} : d ∈ defs ↔ d ∈ defs' := by
  have hmem (l : List ClassDef) : d ∈ l ↔ d ∈ l.filter fun e => e.name == d.name := by
    simp [List.mem_filter]
  rw [hmem defs, hmem defs', h d.name]

/-- Neighbours of different names may change places. -/
theorem SameByClass.swap (before after : List ClassDef) {d e : ClassDef} (h : d.name ≠ e.name) :
    SameByClass (before ++ d :: e :: after) (before ++ e :: d :: after) := by
  intro name
  simp only [List.filter_append, List.filter_cons, beq_iff_eq]
  by_cases hd : d.name = name
  · have he : ¬e.name = name := fun he => h (hd.trans he.symm)
    simp only [if_neg he]
  · simp only [if_neg hd]

/-! ## The registry of a list -/

/-- The registry holds the last definition of each class and nothing else. -/
structure LastWins (defs : List ClassDef) (r : Registry) : Prop where
  /-- A class is found exactly when it is defined. -/
  defined : ∀ name, (∃ c, r.lookupClass name = .ok c) ↔ ∃ d ∈ defs, d.name = name
  /-- The class that is found is made from the last definition. -/
  made : ∀ {name c}, r.lookupClass name = .ok c →
    ∃ d first, LastDefinition defs d first ∧ d.name = name ∧ ClassFrom first d c
  /-- A method is found exactly when a last definition has it. -/
  declared : ∀ key, (∃ m, r.lookupMethod key = .ok m) ↔
    ∃ d first, LastDefinition defs d first ∧
      ∃ md ∈ d.methodList, key = MiniJvm.signature d.name md.name md.descriptor
  /-- The method that is found is made from the last one of its name and descriptor in the last
  definition of its class, while that definition was loaded. -/
  compiled : ∀ {key m}, r.lookupMethod key = .ok m →
    ∃ d first md, LastDefinition defs d first ∧
      key = MiniJvm.signature d.name md.name md.descriptor ∧
      lastOccurrence d md.name md.descriptor = some md ∧
      MadeBetween first (first.loadClass d).registry d.name md m

theorem lookupClass_ok_iff {r : Registry} {name : Bytes} {c : Class} :
    r.lookupClass name = .ok c ↔ r.classes.get? name = some c := by
  unfold lookupClass
  cases r.classes.get? name <;> simp

theorem lookupMethod_ok_iff {r : Registry} {key : Bytes} {m : Method} :
    r.lookupMethod key = .ok m ↔ r.methods.get? key = some m := by
  unfold lookupMethod
  cases r.methods.get? key <;> simp

theorem LastDefinition.mem {defs : List ClassDef} {d : ClassDef} {first : Registry}
    (h : LastDefinition defs d first) : d ∈ defs :=
  (mem_of_lastNamed h.lastNamed_eq).1

theorem lastWins_of_load {defs : List ClassDef} {r : Registry} (h : load defs = .ok r)
    (hsep : Separable defs) : LastWins defs r where
  defined name := by
    simp only [lookupClass_ok_iff]
    rcases classes_load h name with ⟨hnone, hall⟩ | ⟨d, first, c, hlast, hname, hc, -⟩
    · constructor
      · rintro ⟨c, hc⟩
        cases hnone.symm.trans hc
      · rintro ⟨d, hd, hname⟩
        exact absurd hname (hall d hd)
    · exact ⟨fun _ => ⟨d, hlast.mem, hname⟩, fun _ => ⟨c, hc⟩⟩
  made {name c} hc := by
    rw [lookupClass_ok_iff] at hc
    rcases classes_load h name with ⟨hnone, -⟩ | ⟨d, first, c', hlast, hname, hc', hfrom⟩
    · cases hnone.symm.trans hc
    · cases hc.symm.trans hc'
      exact ⟨d, first, hlast, hname, hfrom⟩
  declared key := by
    simp only [lookupMethod_ok_iff]
    constructor
    · rintro ⟨m, hm⟩
      obtain ⟨d, first, md, hlast, hmd, -⟩ := method_of_lookup h hm
      obtain ⟨hmem, hkey⟩ := mem_of_lastUnder hmd
      exact ⟨d, first, hlast, md, hmem, hkey.symm⟩
    · rintro ⟨d, first, hlast, md, hmem, rfl⟩
      obtain ⟨md', hmd'⟩ := Option.isSome_iff_exists.1 (lastUnder_isSome d.name hmem)
      obtain ⟨m, hm, -⟩ := lookup_of_method h hsep hlast.lastNamed_eq hmd'
      exact ⟨m, hm⟩
  compiled {key m} hm := by
    obtain ⟨d, first, md, hlast, hmd, hmade⟩ := method_of_lookup h (lookupMethod_ok_iff.1 hm)
    obtain ⟨hmem, rfl⟩ := mem_of_lastUnder hmd
    obtain ⟨hname, hmethods⟩ := hsep d hlast.mem
    refine ⟨d, first, md, hlast, rfl, ?_, hmade⟩
    rw [lastOccurrence_eq md.descriptor hname hmethods (hmethods md hmem)]
    exact hmd

/-- Loading comes to the last definition of each class. It comes to the same registry in whatever
order the methods of replaced classes are gone through, and to the same classes and methods in
whatever order the definitions of different classes stand. -/
theorem load_lastWins {defs : List ClassDef} {r : Registry} (h : load defs = .ok r)
    (hsep : Separable defs) :
    LastWins defs r ∧
    (∀ s, Loads AcceptsInSomeOrder empty defs s ↔ s = r) ∧
    ∀ defs', SameByClass defs defs' → ∃ r', load defs' = .ok r' ∧ Alike r r' := by
  refine ⟨lastWins_of_load h hsep, fun s => ?_, fun defs' hsame => ?_⟩
  · have hstep : AcceptsInSomeOrder = Accepts :=
      funext fun r => funext fun d => funext fun s => propext acceptsInSomeOrder_iff
    rw [hstep, ← load_ok_iff, h]
    exact ⟨fun hs => (Except.ok.inj hs).symm, fun hs => hs ▸ rfl⟩
  · obtain ⟨r', h'⟩ := load_ok fun d hd => loadable_of_load h d (hsame.mem_iff.2 hd)
    exact ⟨r', h', load_alike h h' hsep (fun d hd => hsep d (hsame.mem_iff.2 hd))
      hsame.lastNamed_eq⟩

def oldClass : ClassDef :=
  { name := "A", methods := some [⟨"f", "()V", 0, 0, none⟩, ⟨"g", "(I)I", 1, 1, none⟩] }

/-- The class anew, with `f` given twice and without `g`. -/
def newClass : ClassDef :=
  { name := "A", methods := some [⟨"f", "()V", 3, 0, none⟩, ⟨"f", "()V", 4, 0, none⟩] }

def otherClass : ClassDef :=
  { name := "B", superName := "A", methods := some [⟨"g", "(I)I", 2, 1, none⟩] }

theorem load_lastWins_redefined :
    ∃ r, load [oldClass, otherClass, newClass] = .ok r ∧
      Separable [oldClass, otherClass, newClass] ∧ LastWins [oldClass, otherClass, newClass] r ∧
      (∃ m, r.lookupMethod "A.f:()V" = .ok m ∧ m.maxStack = 4) ∧
      r.lookupMethod "A.g:(I)I" = .error (.methodNotFound "A.g:(I)I") ∧
      ∃ r', load [oldClass, newClass, otherClass] = .ok r' ∧ Alike r r' := by
  have hchecked : ∃ r ∈ (load [oldClass, otherClass, newClass]).toOption,
      (∃ m ∈ (r.lookupMethod "A.f:()V").toOption, m.maxStack = 4) ∧
      r.lookupMethod "A.g:(I)I" = .error (.methodNotFound "A.g:(I)I") := by
    decide +kernel
  obtain ⟨r, hload, ⟨m, hm, hstack⟩, hgone⟩ := hchecked
  have hload := eq_ok_of_mem_toOption hload
  have hsep : Separable [oldClass, otherClass, newClass] := by decide +kernel
  obtain ⟨hlast, -, horder⟩ := load_lastWins hload hsep
  exact ⟨r, hload, hsep, hlast, ⟨m, eq_ok_of_mem_toOption hm, hstack⟩, hgone,
    horder _ (.swap [oldClass] [] (by decide))⟩

end MiniJvm.Registry
