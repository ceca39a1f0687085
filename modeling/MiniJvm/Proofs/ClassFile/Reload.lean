import Mathlib
import MiniJvm.Proofs.ClassFile.Bounds
import MiniJvm.Proofs.Image.RoundTrip
import MiniJvm.Proofs.Machine.Normal

/-!
# Saving the class of a class file

A class file that can be run has a definition within all limits of an image, except that its
constants may hold any bytes as texts. Class files write texts in an encoding of their own, and
reading copies them. Such a class is written to an image as any other; exactly those whose texts
are UTF-8 are read back (`reload_iff`).
-/

namespace MiniJvm

/-! ## Definitions of class files -/

section Definition

variable {c : ClassFile} {d : ClassDef}

theorem ClassDef.methodOf_ok {m : MethodInfo} {body : CodeBody} {md : MethodDef}
    (h : methodOf c m body = .ok md) : md.name = m.name ∧ md.descriptor = m.descriptor := by
  unfold methodOf at h
  split at h
  · cases h
  · cases h
    exact ⟨rfl, rfl⟩

/-- Every method definition stands for a method of the class file. -/
theorem ClassDef.methodsOf_ok {ms : List MethodInfo} {defs : List MethodDef}
    (h : (methodsOf c ms).1 = .ok defs) : defs.length ≤ ms.length ∧
      ∀ md ∈ defs, ∃ m ∈ ms, md.name = m.name ∧ md.descriptor = m.descriptor := by
  induction ms generalizing defs with
  | nil =>
    cases h
    exact ⟨Nat.le_refl _, nofun⟩
  | cons m rest ih =>
    have hlater {rest' : List MethodDef} (hrest : rest'.length ≤ rest.length ∧
        ∀ md ∈ rest', ∃ m' ∈ rest, md.name = m'.name ∧ md.descriptor = m'.descriptor) :
        ∀ md ∈ rest', ∃ m' ∈ m :: rest, md.name = m'.name ∧ md.descriptor = m'.descriptor := by
      intro md hmd
      obtain ⟨m', hm', heq⟩ := hrest.2 md hmd
      exact ⟨m', List.mem_cons_of_mem _ hm', heq⟩
    unfold methodsOf at h
    cases hbody : m.code with
    | none =>
      rw [hbody] at h
      have hrest := ih h
      exact ⟨Nat.le_succ_of_le hrest.1, hlater hrest⟩
    | some body =>
      rw [hbody] at h
      dsimp only at h
      cases hmethod : methodOf c m body with
      | error e => rw [hmethod] at h; cases h
      | ok md =>
        rw [hmethod] at h
        dsimp only at h
        cases hrest : (methodsOf c rest).1 with
        | error e => rw [hrest] at h; cases h
        | ok rest' =>
          rw [hrest] at h
          cases h
          have hrest := ih hrest
          exact ⟨Nat.succ_le_succ hrest.1, List.forall_mem_cons.2
            ⟨⟨m, List.mem_cons_self, methodOf_ok hmethod⟩, hlater hrest⟩⟩

theorem ClassDef.getD_given {α : Type} (items : List α) : (given items).getD [] = items := by
  cases items <;> rfl

/-- The definition of a class file has its names and its constants, and its methods stand for
methods of the class file. -/
structure DefinedBy (c : ClassFile) (d : ClassDef) : Prop where
  name : d.name = c.name
  superName : d.superName = c.superName
  constants : d.constants = c.pool.entries.toList
  length : d.methodList.length ≤ c.methods.length
  methods : ∀ md ∈ d.methodList,
    ∃ m ∈ c.methods, md.name = m.name ∧ md.descriptor = m.descriptor

theorem definedBy_of_ofClassFile (h : ClassDef.ofClassFile c = .ok d) : DefinedBy c d := by
  unfold ClassDef.ofClassFile at h
  cases hmethods : (ClassDef.methodsOf c c.methods).1 with
  | error e => rw [hmethods] at h; cases h
  | ok defs =>
    rw [hmethods] at h
    cases h
    obtain ⟨hlength, heach⟩ := ClassDef.methodsOf_ok hmethods
    exact ⟨rfl, rfl, rfl, by rwa [ClassDef.methodList, ClassDef.getD_given],
      by rwa [ClassDef.methodList, ClassDef.getD_given]⟩

/-- Code short enough for a class file, and names short enough for memory. -/
structure ClassDef.Fits (d : ClassDef) : Prop where
  code : ∀ m ∈ d.methodList, (m.code.getD []).length < 65536
  name : SizedText d.name
  superName : SizedText d.superName

instance (d : ClassDef) : Decidable d.Fits :=
  decidable_of_iff
    ((∀ m ∈ d.methodList, (m.code.getD []).length < 65536) ∧
      d.name.length < 18446744073709551616 ∧ d.superName.length < 18446744073709551616)
    ⟨fun ⟨code, name, superName⟩ => ⟨code, name, superName⟩,
      fun h => ⟨h.code, h.name, h.superName⟩⟩

theorem sizedText_of_short {e : Entry} (h : ClassFile.ShortText e) : SizedText e.text :=
  Nat.lt_trans h (by decide)

theorem sized_of_classFile (hc : c.Bounded) (hd : DefinedBy c d) (hfits : d.Fits) : d.Sized := by
  have hmem {e : Entry} (he : e ∈ d.constants) : e ∈ c.pool.entries := by
    rw [hd.constants] at he
    exact Array.mem_toList_iff.1 he
  have hlength : d.constants.length = c.pool.entries.size := by
    rw [hd.constants, Array.length_toList]
  refine ⟨hfits.name, hfits.superName, ?_,
    fun e he => sizedText_of_short (hc.pool.texts e (hmem he)), ?_, fun md hmd => ?_⟩
  · change d.constants.length ≤ 131072
    rw [hlength]
    exact Nat.le_trans hc.pool.slots (by decide)
  · exact Nat.le_trans hd.length (Nat.le_trans hc.methods.le (by decide))
  · obtain ⟨m, hm, hname, hdescriptor⟩ := hd.methods md hmd
    obtain ⟨⟨e, he, hename⟩, ⟨e', he', hedescriptor⟩⟩ := hc.named m hm
    exact ⟨by rw [hname, ← hename]; exact sizedText_of_short (hc.pool.texts e he),
      by rw [hdescriptor, ← hedescriptor]; exact sizedText_of_short (hc.pool.texts e' he'),
      Nat.le_trans (hfits.code md hmd).le (by decide)⟩

/-- With constants that are UTF-8, every text of the definition is. -/
theorem storable_of_classFile (hc : c.Bounded) (hd : DefinedBy c d) (hfits : d.Fits)
    (hvalid : ∀ e ∈ d.constants, Utf8.valid e.text = true) : d.Storable := by
  have hsized := sized_of_classFile hc hd hfits
  have hpool : ∀ e ∈ c.pool.entries, Utf8.valid e.text = true := by
    intro e he
    rw [hd.constants] at hvalid
    exact hvalid e (Array.mem_toList_iff.2 he)
  refine ⟨⟨?_, hsized.name⟩, ⟨?_, hsized.superName⟩, hsized.pool,
    fun e he => ⟨hvalid e he, hsized.texts e he⟩, hsized.methods, fun md hmd => ?_⟩
  · rw [hd.name]
    exact hc.name.valid hpool
  · rw [hd.superName]
    exact hc.superName.valid hpool
  · obtain ⟨m, hm, hname, hdescriptor⟩ := hd.methods md hmd
    obtain ⟨⟨e, he, hename⟩, ⟨e', he', hedescriptor⟩⟩ := hc.named m hm
    have hsize := hsized.each md hmd
    exact ⟨⟨by rw [hname, ← hename]; exact hpool e he, hsize.name⟩,
      ⟨by rw [hdescriptor, ← hedescriptor]; exact hpool e' he', hsize.descriptor⟩, hsize.code⟩

end Definition

/-! ## Saved and read back -/

theorem Image.sized_single {entry : Bytes} {d : ClassDef} (hentry : SizedText entry)
    (hd : d.Sized) : (ofClasses entry (some [d])).Sized :=
  ⟨hentry, (by decide : 1 ≤ Cbor.maxElements), List.forall_mem_singleton.2 hd⟩

theorem Image.storable_single {entry : Bytes} {d : ClassDef} (hentry : StorableText entry)
    (hd : d.Storable) : (ofClasses entry (some [d])).Storable :=
  ⟨rfl, hentry, (by decide : 1 ≤ Cbor.maxElements), List.forall_mem_singleton.2 hd⟩

namespace ClassFile

/-- The image of a class that was read from a class file is read back exactly when all constants
are UTF-8, and else it is no image at all. What is read back has the same digest and is loaded
with the same signatures. -/
theorem reload_iff {bytes entry : Bytes} {c : ClassFile} {d : ClassDef}
    (hparse : parse bytes = .ok c) (hconvert : ClassDef.ofClassFile c = .ok d) (hfits : d.Fits)
    (hentry : StorableText entry) :
    let i := Image.ofClasses entry (some [d])
    ((∃ j, Image.unmarshal i.marshal = .ok j) ↔ ∀ e ∈ d.constants, Utf8.valid e.text = true) ∧
    (∀ why, Image.unmarshal i.marshal = .error why → why = .malformed) ∧
    ∀ j, Image.unmarshal i.marshal = .ok j → j.digest = i.digest ∧
      (Registry.load j.classList).map Registry.signatures =
        (Registry.load [d]).map Registry.signatures := by
  intro i
  have hc := bounded_of_parse hparse
  have hd := definedBy_of_ofClassFile hconvert
  have hsized : i.Sized := Image.sized_single hentry.2 (sized_of_classFile hc hd hfits)
  by_cases hvalid : ∀ e ∈ d.constants, Utf8.valid e.text = true
  · have hstorable : i.Storable :=
      Image.storable_single hentry (storable_of_classFile hc hd hfits hvalid)
    have hread := Image.unmarshal_marshal hstorable
    refine ⟨⟨fun _ => hvalid, fun _ => ⟨_, hread⟩⟩, fun why hwhy => ?_, fun j hj => ?_⟩
    · cases hread.symm.trans hwhy
    · cases hread.symm.trans hj
      refine ⟨Image.digest_normal i, ?_⟩
      have hclasses : i.classList = [d] := rfl
      rw [Image.classList_normal, hclasses, Registry.load_normal]
      cases Registry.load [d] <;> rfl
  · have hill : ∃ c ∈ i.classList, Image.IllFormed c := by
      refine ⟨d, List.mem_singleton_self d, ?_⟩
      push Not at hvalid
      obtain ⟨e, he, hinvalid⟩ := hvalid
      exact ⟨e, he, eq_false_of_ne_true hinvalid⟩
    have hread := Image.unmarshal_illFormed hsized hill
    refine ⟨⟨?_, fun h => absurd h hvalid⟩, fun why hwhy => ?_, ?_⟩
    · rintro ⟨j, hj⟩
      cases hread.symm.trans hj
    · cases hread.symm.trans hwhy
      rfl
    · intro j hj
      cases hread.symm.trans hj

/-- The class `A` with a method `f` that returns one, and with one more text among its
constants. -/
def answer (text : Bytes) : Bytes :=
  [0xCA, 0xFE, 0xBA, 0xBE, 0, 0, 0, 52, 0, 7, 1, 0, 1, 65, 7, 0, 1, 1, 0, 1, 102, 1, 0, 3, 40, 41,
    73, 1, 0, 4, 67, 111, 100, 101, 1, 0, text.length.toUInt8] ++ text ++
  [0, 33, 0, 2, 0, 0, 0, 0, 0, 0, 0, 1, 0, 9, 0, 3, 0, 4, 0, 1, 0, 5, 0, 0, 0, 14, 0, 1, 0, 0, 0, 0,
    0, 2, 4, 0xAC, 0, 0, 0, 0, 0, 0]

theorem reload_iff_answer :
    ∃ c d, parse (answer [0xC3, 0xA9]) = .ok c ∧ ClassDef.ofClassFile c = .ok d ∧
      (∀ e ∈ d.constants, Utf8.valid e.text = true) ∧
      ∃ j, Image.unmarshal (Image.ofClasses "A.f:()I" (some [d])).marshal = .ok j := by
  have hchecked : ∃ c ∈ (parse (answer [0xC3, 0xA9])).toOption,
      ∃ d ∈ (ClassDef.ofClassFile c).toOption, d.Fits ∧
        ∀ e ∈ d.constants, Utf8.valid e.text = true := by
    decide +kernel
  obtain ⟨c, hparse, d, hconvert, hfits, hvalid⟩ := hchecked
  have hparse := eq_ok_of_mem_toOption hparse
  have hconvert := eq_ok_of_mem_toOption hconvert
  have hentry : StorableText "A.f:()I" := by decide +kernel
  exact ⟨c, d, hparse, hconvert, hvalid,
    (reload_iff hparse hconvert hfits hentry).1.2 hvalid⟩

/-- A class that runs to its end is lost when it is saved: two bytes stand for the character NUL in
a class file, and no text may hold them. -/
theorem answer_lost :
    ∃ c d r, parse (answer [0xC0, 0x80]) = .ok c ∧ ClassDef.ofClassFile c = .ok d ∧
      Registry.load [d] = .ok r ∧
      (r.execute 3 "A.f:()I" [] false).outcome =
        .ended { fault := none, result := some 1, stats := ⟨2, 0, 1⟩ } ∧
      Image.unmarshal (Image.ofClasses "A.f:()I" (some [d])).marshal = .error .malformed := by
  have hchecked : ∃ c ∈ (parse (answer [0xC0, 0x80])).toOption,
      ∃ d ∈ (ClassDef.ofClassFile c).toOption, d.Fits ∧
        (∃ e ∈ d.constants, Utf8.valid e.text = false) ∧
        ∃ r ∈ (Registry.load [d]).toOption, (r.execute 3 "A.f:()I" [] false).outcome =
          .ended { fault := none, result := some 1, stats := ⟨2, 0, 1⟩ } := by
    decide +kernel
  obtain ⟨c, hparse, d, hconvert, hfits, hill, r, hload, hrun⟩ := hchecked
  have hparse := eq_ok_of_mem_toOption hparse
  have hconvert := eq_ok_of_mem_toOption hconvert
  have hsized := sized_of_classFile (bounded_of_parse hparse) (definedBy_of_ofClassFile hconvert)
    hfits
  have hentry : StorableText "A.f:()I" := by decide +kernel
  exact ⟨c, d, r, hparse, hconvert, eq_ok_of_mem_toOption hload, hrun,
    Image.unmarshal_illFormed (Image.sized_single hentry.2 hsized)
      ⟨d, List.mem_singleton_self d, hill⟩⟩

end ClassFile

end MiniJvm
