import Mathlib
import MiniJvm.Command.Classpath
import MiniJvm.Proofs.Machine.LastDefinition

/-!
# Default entries

Without an entry of its own a class path runs the main method of the one class that declares it.
The classes are counted among the definitions, before any of them is replaced. So the choice fits
the classes that are loaded exactly when a single definition with a main method is the last one of
its class, and when several of them stand for two classes that keep theirs
(`resolveEntry_loaded`).
-/

namespace MiniJvm

open Registry

/-! ## Main methods of loaded classes -/

/-- The class has the method that a program starts with. -/
def Class.DeclaresMain (c : Class) : Prop :=
  ∃ key m, c.methods.get? key = some m ∧ m.name = "main" ∧ m.descriptor = mainDescriptor

/-- A class of the name is registered and has the method that a program starts with. -/
def Registry.DeclaresMain (r : Registry) (name : Bytes) : Prop :=
  ∃ c, r.lookupClass name = .ok c ∧ c.DeclaresMain

namespace Command

theorem declaresMain_iff {d : ClassDef} :
    declaresMain d = true ↔
      ∃ md ∈ d.methodList, md.name = "main" ∧ md.descriptor = mainDescriptor := by
  simp [declaresMain]

/-- Behind the name of its class, the signature of a main method is that of no other method. -/
theorem main_of_signature {owner name descriptor : Bytes}
    (h : MiniJvm.signature owner name descriptor = defaultEntry owner) :
    name = "main" ∧ descriptor = mainDescriptor := by
  rw [defaultEntry, signature_eq, signature_eq, List.append_cancel_left_eq] at h
  have h := List.tail_eq_of_cons_eq h
  have hcount := congrArg (List.count 58) h
  have hmain : ("main" ++ 58 :: mainDescriptor : Bytes).count 58 = 1 := by decide +kernel
  rw [hmain, List.count_append, List.count_cons_self] at hcount
  exact cut_unique (List.count_eq_zero.1 (by omega)) (by decide) h

theorem defaultEntry_injective {name name' : Bytes} (h : defaultEntry name = defaultEntry name') :
    name = name' := by
  rw [defaultEntry, defaultEntry, signature_eq, signature_eq] at h
  exact List.append_cancel_right h

section Loaded

variable {defs : List ClassDef} {r : Registry}

theorem declaresMain_class {first : Registry} {d : ClassDef} {c : Class}
    (h : ClassFrom first d c) : c.DeclaresMain ↔ declaresMain d = true := by
  rw [declaresMain_iff]
  constructor
  · rintro ⟨key, m, hm, hname, hdescriptor⟩
    obtain ⟨md, hmd, hmade⟩ := h.of_get? hm
    exact ⟨md, (mem_of_lastUnder hmd).1, hmade.makes.name ▸ hname,
      hmade.makes.descriptor ▸ hdescriptor⟩
  · rintro ⟨md, hmem, hname, hdescriptor⟩
    obtain ⟨md', hmd'⟩ := Option.isSome_iff_exists.1 (lastUnder_isSome d.name hmem)
    have hkey := h.methods (MiniJvm.signature d.name md.name md.descriptor)
    rw [hmd'] at hkey
    obtain ⟨m, hm, hmade⟩ := hkey
    have hsignature := (mem_of_lastUnder hmd').2
    rw [hname, hdescriptor] at hsignature
    obtain ⟨hname', hdescriptor'⟩ := main_of_signature hsignature
    exact ⟨_, m, hm, hmade.makes.name.trans hname', hmade.makes.descriptor.trans hdescriptor'⟩

/-- A loaded class has a main method exactly when its last definition has one. -/
theorem declaresMain_load (h : load defs = .ok r) (name : Bytes) :
    r.DeclaresMain name ↔ ∃ d, lastNamed defs name = some d ∧ declaresMain d = true := by
  simp only [Registry.DeclaresMain, lookupClass_ok_iff]
  have hclass := class_of_lastNamed h name
  cases hd : lastNamed defs name with
  | none =>
    rw [hd] at hclass
    simp [hclass]
  | some d =>
    rw [hd] at hclass
    obtain ⟨first, c, -, -, hc, hfrom⟩ := hclass
    simp [hc, declaresMain_class hfrom]

theorem registered_iff (h : load defs = .ok r) (hsep : Separable defs) {name : Bytes}
    (hname : (46 : UInt8) ∉ name) :
    (∃ m, r.lookupMethod (defaultEntry name) = .ok m) ↔ r.DeclaresMain name := by
  simp only [lookupMethod_ok_iff, declaresMain_load h]
  constructor
  · rintro ⟨m, hm⟩
    obtain ⟨d, first, md, hlast, hmd, -⟩ := method_of_lookup h hm
    obtain ⟨hmem, hkey⟩ := mem_of_lastUnder hmd
    obtain ⟨hdot, hcolon⟩ := hsep d hlast.mem
    obtain ⟨rfl, hmain, hdescriptor⟩ :=
      signature_injective hdot hname (hcolon md hmem) (by decide) hkey
    exact ⟨d, hlast.lastNamed_eq, declaresMain_iff.2 ⟨md, hmem, hmain, hdescriptor⟩⟩
  · rintro ⟨d, hd, hmain⟩
    obtain ⟨-, rfl⟩ := mem_of_lastNamed hd
    obtain ⟨md, hmem, hmdname, hdescriptor⟩ := declaresMain_iff.1 hmain
    obtain ⟨md', hmd'⟩ := Option.isSome_iff_exists.1 (lastUnder_isSome d.name hmem)
    rw [hmdname, hdescriptor] at hmd'
    obtain ⟨m, hm, -⟩ := lookup_of_method h hsep hd hmd'
    exact ⟨m, hm⟩

end Loaded

namespace Classpath

variable {cp : Classpath} {r : Registry}

theorem mem_mainClasses {name : Bytes} :
    name ∈ cp.mainClasses ↔ ∃ d ∈ cp.defs, declaresMain d = true ∧ d.name = name := by
  simp [mainClasses, and_assoc]

theorem mem_of_declaresMain (h : load cp.defs = .ok r) {name : Bytes}
    (hname : r.DeclaresMain name) : name ∈ cp.mainClasses := by
  obtain ⟨d, hd, hmain⟩ := (declaresMain_load h name).1 hname
  obtain ⟨hmem, hdname⟩ := mem_of_lastNamed hd
  exact mem_mainClasses.2 ⟨d, hmem, hmain, hdname⟩

theorem resolveEntry_default (hentry : cp.entry = []) :
    cp.resolveEntry [] [] = match cp.mainClasses with
      | [name] => .ok (defaultEntry name)
      | [] => .error .missing
      | names => .error (.ambiguous names) := by
  have hnone : ([[], [], cp.entry].find? fun e => !e.isEmpty) = none := by simp [hentry]
  rewrite [resolveEntry, hnone]
  rfl

/-- The choice of an entry fits the loaded classes: it is the main method of the only class that
has one, and it fails when there is none and when there are several. -/
structure Fits (cp : Classpath) (r : Registry) : Prop where
  single : ∀ name, cp.resolveEntry [] [] = .ok (defaultEntry name) ↔
    ∀ other, r.DeclaresMain other ↔ other = name
  missing : cp.resolveEntry [] [] = .error .missing ↔ ∀ name, ¬r.DeclaresMain name
  ambiguous : (∃ names, cp.resolveEntry [] [] = .error (.ambiguous names)) ↔
    ∃ name other, name ≠ other ∧ r.DeclaresMain name ∧ r.DeclaresMain other

/-- What the definitions with a main method must be for the choice to fit. -/
inductive Decided (cp : Classpath) (r : Registry) : Prop where
  | none : cp.mainClasses = [] → Decided cp r
  | single {name : Bytes} : cp.mainClasses = [name] → r.DeclaresMain name → Decided cp r
  | several {name other : Bytes} : name ≠ other → r.DeclaresMain name →
      r.DeclaresMain other → Decided cp r

theorem fits_of_none (h : load cp.defs = .ok r) (hentry : cp.entry = [])
    (hmains : cp.mainClasses = []) : Fits cp r := by
  have hresolve := resolveEntry_default hentry
  rw [hmains] at hresolve
  have hnone : ∀ name, ¬r.DeclaresMain name := by
    intro name hname
    have hmem := mem_of_declaresMain h hname
    rw [hmains] at hmem
    cases hmem
  refine ⟨fun name => ?_, ?_, ?_⟩ <;> simp [hresolve, hnone]

theorem fits_single_iff (h : load cp.defs = .ok r) (hentry : cp.entry = []) {only : Bytes}
    (hmains : cp.mainClasses = [only]) : Fits cp r ↔ r.DeclaresMain only := by
  have hresolve := resolveEntry_default hentry
  rw [hmains] at hresolve
  have hall : ∀ {name}, r.DeclaresMain name → name = only := by
    intro name hname
    have hmem := mem_of_declaresMain h hname
    rw [hmains] at hmem
    exact List.mem_singleton.1 hmem
  refine ⟨fun hfits => ((hfits.single only).1 hresolve only).2 rfl, fun honly => ?_⟩
  refine ⟨fun name => ?_, ?_, ?_⟩
  · rw [hresolve]
    constructor
    · intro heq
      cases defaultEntry_injective (Except.ok.inj heq)
      exact fun other => ⟨hall, fun hother => hother ▸ honly⟩
    · intro hsingle
      rw [(hsingle only).1 honly]
  · rw [hresolve]
    exact ⟨nofun, fun hnone => absurd honly (hnone only)⟩
  · rw [hresolve]
    refine ⟨fun ⟨_, herror⟩ => (nomatch herror), ?_⟩
    rintro ⟨name, other, hne, hname, hother⟩
    exact absurd ((hall hname).trans (hall hother).symm) hne

theorem fits_several_iff (hentry : cp.entry = []) {first second : Bytes} {rest : List Bytes}
    (hmains : cp.mainClasses = first :: second :: rest) :
    Fits cp r ↔ ∃ name other, name ≠ other ∧ r.DeclaresMain name ∧ r.DeclaresMain other := by
  have hresolve := resolveEntry_default hentry
  rw [hmains] at hresolve
  refine ⟨fun hfits => hfits.ambiguous.1 ⟨_, hresolve⟩, ?_⟩
  rintro ⟨name, other, hne, hname, hother⟩
  refine ⟨fun single => ?_, ?_, ?_⟩
  · rw [hresolve]
    refine ⟨nofun, fun hsingle => absurd ?_ hne⟩
    rw [(hsingle name).1 hname, (hsingle other).1 hother]
  · rw [hresolve]
    exact ⟨nofun, fun hnone => absurd hname (hnone name)⟩
  · exact ⟨fun _ => ⟨name, other, hne, hname, hother⟩, fun _ => ⟨_, hresolve⟩⟩

theorem fits_iff (h : load cp.defs = .ok r) (hentry : cp.entry = []) :
    Fits cp r ↔ Decided cp r := by
  constructor
  · intro hfits
    match hmains : cp.mainClasses with
    | [] => exact .none hmains
    | [only] => exact .single hmains ((fits_single_iff h hentry hmains).1 hfits)
    | first :: second :: rest =>
      obtain ⟨name, other, hne, hname, hother⟩ := (fits_several_iff hentry hmains).1 hfits
      exact .several hne hname hother
  · intro hdecided
    cases hdecided with
    | none hmains => exact fits_of_none h hentry hmains
    | single hmains honly => exact (fits_single_iff h hentry hmains).2 honly
    | several hne hname hother =>
      have hmem := mem_of_declaresMain h hname
      have hmem' := mem_of_declaresMain h hother
      match hmains : cp.mainClasses with
      | [] =>
        rw [hmains] at hmem
        cases hmem
      | [only] =>
        rw [hmains, List.mem_singleton] at hmem hmem'
        exact absurd (hmem.trans hmem'.symm) hne
      | first :: second :: rest =>
        exact (fits_several_iff hentry hmains).2 ⟨_, _, hne, hname, hother⟩

theorem lastNamed_of_nodup {defs : List ClassDef} (hnodup : (defs.map ClassDef.name).Nodup)
    {d : ClassDef} (hd : d ∈ defs) : lastNamed defs d.name = some d := by
  cases hlast : lastNamed defs d.name with
  | none => exact absurd rfl (lastNamed_eq_none.1 hlast d hd)
  | some e =>
    obtain ⟨he, hname⟩ := mem_of_lastNamed hlast
    rw [List.inj_on_of_nodup_map hnodup he hd hname]

/-- Classes that are defined once are the ones that are loaded. -/
theorem decided_of_nodup (h : load cp.defs = .ok r)
    (hnodup : (cp.defs.map ClassDef.name).Nodup) : Decided cp r := by
  have hdeclares : ∀ {name}, name ∈ cp.mainClasses → r.DeclaresMain name := by
    intro name hname
    obtain ⟨d, hd, hmain, rfl⟩ := mem_mainClasses.1 hname
    exact (declaresMain_load h d.name).2 ⟨d, lastNamed_of_nodup hnodup hd, hmain⟩
  have hmains : cp.mainClasses.Nodup :=
    (List.filter_sublist.map ClassDef.name).nodup hnodup
  match heq : cp.mainClasses with
  | [] => exact .none heq
  | [only] => exact .single heq (hdeclares (heq ▸ List.mem_singleton_self only))
  | first :: second :: rest =>
    rw [heq] at hmains hdeclares
    have hne : first ≠ second := fun h => (List.nodup_cons.1 hmains).1 (h ▸ List.mem_cons_self)
    exact .several hne (hdeclares List.mem_cons_self)
      (hdeclares (List.mem_cons_of_mem _ List.mem_cons_self))

/-- Without an entry of its own a class path finds the one that fits the loaded classes exactly
when its definitions decide about it, which they do when no class is defined twice. What it finds
is registered exactly when the class keeps its main method. -/
theorem resolveEntry_loaded (h : load cp.defs = .ok r) (hentry : cp.entry = []) :
    (Fits cp r ↔ Decided cp r) ∧
      ((cp.defs.map ClassDef.name).Nodup → Fits cp r) ∧
      (Separable cp.defs → ∀ name, cp.resolveEntry [] [] = .ok (defaultEntry name) →
        ((∃ m, r.lookupMethod (defaultEntry name) = .ok m) ↔ r.DeclaresMain name)) := by
  refine ⟨fits_iff h hentry, fun hnodup => (fits_iff h hentry).2 (decided_of_nodup h hnodup),
    fun hsep name hname => ?_⟩
  have hmem : name ∈ cp.mainClasses := by
    rw [resolveEntry_default hentry] at hname
    split at hname
    · rename_i only heq
      cases defaultEntry_injective (Except.ok.inj hname)
      exact heq ▸ List.mem_singleton_self _
    · cases hname
    · cases hname
  obtain ⟨d, hd, -, rfl⟩ := mem_mainClasses.1 hmem
  exact registered_iff h hsep (hsep d hd).1

def program : ClassDef := { name := "A", methods := some [⟨"main", mainDescriptor, 0, 1, none⟩] }

def library : ClassDef := { name := "A", methods := some [⟨"f", "()V", 0, 0, none⟩] }

def other : ClassDef := { name := "B", methods := some [⟨"f", "()V", 0, 0, none⟩] }

theorem resolveEntry_loaded_once :
    ∃ r, load [program, other] = .ok r ∧ Fits { defs := [program, other] } r ∧
      r.DeclaresMain "A" ∧ ∃ m, r.lookupMethod "A.main:([Ljava/lang/String;)V" = .ok m := by
  have hchecked : ∃ r ∈ (load [program, other]).toOption,
      Classpath.resolveEntry { defs := [program, other] } [] [] = .ok (defaultEntry "A") ∧
      Separable [program, other] ∧ ([program, other].map ClassDef.name).Nodup := by
    decide +kernel
  obtain ⟨r, hload, hresolve, hsep, hnodup⟩ := hchecked
  have hload := eq_ok_of_mem_toOption hload
  have h := @resolveEntry_loaded { defs := [program, other] } r hload rfl
  have hfits := h.2.1 hnodup
  have hmain : r.DeclaresMain "A" := ((hfits.single "A").1 hresolve "A").2 rfl
  exact ⟨r, hload, hfits, hmain, (h.2.2 hsep "A" hresolve).2 hmain⟩

/-- A class that overrides another definition of itself is ambiguous with itself, and when it has
lost its main method the one that was found is not registered. -/
theorem resolveEntry_overridden :
    (∃ r, load [program, program] = .ok r ∧ (∀ name, r.DeclaresMain name ↔ name = "A") ∧
      Classpath.resolveEntry { defs := [program, program] } [] [] =
        .error (.ambiguous ["A", "A"])) ∧
    ∃ r, load [program, library] = .ok r ∧ (∀ name, ¬r.DeclaresMain name) ∧
      Classpath.resolveEntry { defs := [program, library] } [] [] = .ok (defaultEntry "A") ∧
      r.lookupMethod (defaultEntry "A") = .error (.methodNotFound (defaultEntry "A")) := by
  constructor
  · have hchecked : ∃ r ∈ (load [program, program]).toOption,
        Classpath.resolveEntry { defs := [program, program] } [] [] =
          .error (.ambiguous ["A", "A"]) := by
      decide +kernel
    obtain ⟨r, hload, hresolve⟩ := hchecked
    have hload := eq_ok_of_mem_toOption hload
    refine ⟨r, hload, fun name => ?_, hresolve⟩
    rw [declaresMain_load hload]
    constructor
    · rintro ⟨d, hd, -⟩
      obtain ⟨hmem, rfl⟩ := mem_of_lastNamed hd
      have hd : d = program := by simpa using hmem
      rw [hd]
      rfl
    · rintro rfl
      exact ⟨program, by decide +kernel, by decide +kernel⟩
  · have hchecked : ∃ r ∈ (load [program, library]).toOption,
        Classpath.resolveEntry { defs := [program, library] } [] [] = .ok (defaultEntry "A") ∧
          r.lookupMethod (defaultEntry "A") = .error (.methodNotFound (defaultEntry "A")) := by
      decide +kernel
    obtain ⟨r, hload, hresolve, hgone⟩ := hchecked
    have hload := eq_ok_of_mem_toOption hload
    refine ⟨r, hload, fun name => ?_, hresolve, hgone⟩
    rw [declaresMain_load hload]
    rintro ⟨d, hd, hmain⟩
    obtain ⟨hmem, rfl⟩ := mem_of_lastNamed hd
    have hname : d.name = "A" := by
      rcases List.mem_pair.1 hmem with rfl | rfl <;> rfl
    have hlast : lastNamed [program, library] "A" = some library := by decide +kernel
    rw [hname] at hd
    cases hd.symm.trans hlast
    exact absurd hmain (by decide +kernel)

end Classpath

end Command

end MiniJvm
