import Mathlib
import MiniJvm.ClassFile.Reader
import MiniJvm.Proofs.Pool.Meaning

/-!
# Interned constants

A builder hands out an index for each constant it is given, the same one when it was given the
constant before. While the pool fits the 16 bits of an index, the constant stands at its index, and
it stays there when the pool grows (`Built.holds_add`). So an added method stands at its index
(`Built.methodAt_addMethodRef`), which has the method's signature for its text
(`Pool.MethodAt.denotes`). No constant but the placeholder is ever added twice
(`PoolBuilder.Distinct.add`), so no method has two indices (`Pool.Distinct.methodAt_unique`).
-/

namespace MiniJvm

namespace Entry

instance : Std.TransCmp order := by
  unfold order
  infer_instance

theorem order_eq_iff {e e' : Entry} : order e e' = .eq ↔ e = e' := by
  simp only [order, compareLex_eq_eq, compareOn, Std.compare_eq_iff_eq]
  constructor
  · obtain ⟨tag, index1, index2, kind, int, ⟨bits⟩, text⟩ := e
    obtain ⟨tag', index1', index2', kind', int', ⟨bits'⟩, text'⟩ := e'
    rintro ⟨rfl, rfl, rfl, rfl, rfl, rfl, rfl⟩
    rfl
  · rintro rfl
    exact ⟨rfl, rfl, rfl, rfl, rfl, rfl, rfl⟩

end Entry

namespace Pool

variable {p q : Pool} {i : UInt16} {e : Entry} {text : Bytes}

theorem Grows.holds (h : p.Grows q) (he : p.Holds i e) : q.Holds i e :=
  holds_iff.2 (h.entry (holds_iff.1 he))

theorem Denotes.resolve (h : p.Denotes i text) : p.resolve i = .ok text := by
  cases hresolve : p.resolve i with
  | ok found => rw [(denotes_of_resolveWithin hresolve).unique h]
  | error err => exact absurd h (explains_of_resolve hresolve).not_denotes

/-- The class of this name stands at the index. -/
def ClassAt (p : Pool) (i : UInt16) (name : Bytes) : Prop :=
  ∃ nameIndex, p.Holds nameIndex (.utf8 name) ∧ p.Holds i (.classRef nameIndex)

/-- This name and descriptor stand at the index. -/
def NameAndTypeAt (p : Pool) (i : UInt16) (name descriptor : Bytes) : Prop :=
  ∃ nameIndex descriptorIndex, p.Holds nameIndex (.utf8 name) ∧
    p.Holds descriptorIndex (.utf8 descriptor) ∧
    p.Holds i (.nameAndType nameIndex descriptorIndex)

/-- The method of this class, name and descriptor stands at the index. -/
def MethodAt (p : Pool) (i : UInt16) (owner name descriptor : Bytes) : Prop :=
  ∃ ownerIndex nameAndType, p.ClassAt ownerIndex owner ∧
    p.NameAndTypeAt nameAndType name descriptor ∧ p.Holds i (.methodRef ownerIndex nameAndType)

section

variable {owner name descriptor : Bytes}

theorem Grows.classAt (h : p.Grows q) (hi : p.ClassAt i name) : q.ClassAt i name := by
  obtain ⟨nameIndex, hname, hi⟩ := hi
  exact ⟨nameIndex, h.holds hname, h.holds hi⟩

theorem Grows.nameAndTypeAt (h : p.Grows q) (hi : p.NameAndTypeAt i name descriptor) :
    q.NameAndTypeAt i name descriptor := by
  obtain ⟨nameIndex, descriptorIndex, hname, hdescriptor, hi⟩ := hi
  exact ⟨nameIndex, descriptorIndex, h.holds hname, h.holds hdescriptor, h.holds hi⟩

theorem Grows.methodAt (h : p.Grows q) (hi : p.MethodAt i owner name descriptor) :
    q.MethodAt i owner name descriptor := by
  obtain ⟨ownerIndex, nameAndType, howner, hmember, hi⟩ := hi
  exact ⟨ownerIndex, nameAndType, h.classAt howner, h.nameAndTypeAt hmember, h.holds hi⟩

theorem ClassAt.unique {name' : Bytes} (h : p.ClassAt i name) (h' : p.ClassAt i name') :
    name = name' := by
  obtain ⟨n, hn, hi⟩ := h
  obtain ⟨n', hn', hi'⟩ := h'
  cases hi.unique hi'
  exact congrArg Entry.text (hn.unique hn')

theorem NameAndTypeAt.unique {name' descriptor' : Bytes} (h : p.NameAndTypeAt i name descriptor)
    (h' : p.NameAndTypeAt i name' descriptor') : name = name' ∧ descriptor = descriptor' := by
  obtain ⟨n, d, hn, hd, hi⟩ := h
  obtain ⟨n', d', hn', hd', hi'⟩ := h'
  cases hi.unique hi'
  exact ⟨congrArg Entry.text (hn.unique hn'), congrArg Entry.text (hd.unique hd')⟩

/-- One method stands at an index. -/
theorem MethodAt.unique {owner' name' descriptor' : Bytes} (h : p.MethodAt i owner name descriptor)
    (h' : p.MethodAt i owner' name' descriptor') :
    owner = owner' ∧ name = name' ∧ descriptor = descriptor' := by
  obtain ⟨c, n, hc, hn, hi⟩ := h
  obtain ⟨c', n', hc', hn', hi'⟩ := h'
  cases hi.unique hi'
  exact ⟨hc.unique hc', hn.unique hn'⟩

theorem MethodAt.methodRef (h : p.MethodAt i owner name descriptor) :
    ∃ e, p.Holds i e ∧ e.tag? = some .methodRef := by
  obtain ⟨ownerIndex, nameAndType, -, -, hi⟩ := h
  exact ⟨_, hi, rfl⟩

/-- The text of a method is its signature. -/
theorem MethodAt.denotes (h : p.MethodAt i owner name descriptor) :
    p.Denotes i (signature owner name descriptor) := by
  obtain ⟨ownerIndex, nameAndType, ⟨ownerName, hownerName, howner⟩,
    ⟨nameIndex, descriptorIndex, hname, hdescriptor, hmember⟩, hi⟩ := h
  have hparts : p.Denotes nameAndType (name ++ ":" ++ descriptor) :=
    .nameAndType hmember rfl (.utf8 hname rfl) (.utf8 hdescriptor rfl)
  rw [List.append_assoc] at hparts
  rw [signature, List.append_assoc, List.append_assoc, List.append_assoc,
    ← List.append_assoc owner]
  exact .member hi (.inl rfl) (.reference howner (.inl rfl) (.utf8 hownerName rfl)) hparts

end

/-! ### Different constants -/

/-- All constants of the pool are different. -/
def Distinct (p : Pool) : Prop := p.entries.toList.Nodup

section

variable {j : UInt16} {owner name descriptor : Bytes}

theorem Distinct.index_unique (h : p.Distinct) (hi : p.Holds i e) (hj : p.Holds j e) : i = j := by
  have hget : p.entries.toList[i.toNat]? = p.entries.toList[j.toNat]? := by
    rw [Array.getElem?_toList, Array.getElem?_toList, hi.2, hj.2]
  exact UInt16.toNat_inj.1 ((List.getElem?_inj hi.lt_size h).1 hget)

theorem Distinct.classAt_unique (h : p.Distinct) (hi : p.ClassAt i name)
    (hj : p.ClassAt j name) : i = j := by
  obtain ⟨n, hn, hi⟩ := hi
  obtain ⟨n', hn', hj⟩ := hj
  cases h.index_unique hn hn'
  exact h.index_unique hi hj

theorem Distinct.nameAndTypeAt_unique (h : p.Distinct) (hi : p.NameAndTypeAt i name descriptor)
    (hj : p.NameAndTypeAt j name descriptor) : i = j := by
  obtain ⟨n, d, hn, hd, hi⟩ := hi
  obtain ⟨n', d', hn', hd', hj⟩ := hj
  cases h.index_unique hn hn'
  cases h.index_unique hd hd'
  exact h.index_unique hi hj

/-- A method stands at one index only. -/
theorem Distinct.methodAt_unique (h : p.Distinct) (hi : p.MethodAt i owner name descriptor)
    (hj : p.MethodAt j owner name descriptor) : i = j := by
  obtain ⟨c, n, hc, hn, hi⟩ := hi
  obtain ⟨c', n', hc', hn', hj⟩ := hj
  cases h.classAt_unique hc hc'
  cases h.nameAndTypeAt_unique hn hn'
  exact h.index_unique hi hj

end

end Pool

namespace PoolBuilder

/-- Builders that constants were added to one after another. -/
inductive Built : PoolBuilder → Prop where
  | start : Built start
  | add {b : PoolBuilder} (e : Entry) : Built b → Built (b.add e).2

/-- Every slot has an index of 16 bits. -/
def Fits (b : PoolBuilder) : Prop := b.entries.size ≤ 65536

theorem fits_of_isFull {b : PoolBuilder} (h : b.isFull = false) : b.Fits := by
  unfold Fits
  have hlt := of_decide_eq_false h
  omega

theorem Fits.mono {b c : PoolBuilder} (h : c.Fits) (hgrows : b.pool.Grows c.pool) : b.Fits :=
  hgrows.size_le.trans h

theorem add_known {b : PoolBuilder} {e : Entry} {i : UInt16} (h : b.index[e]? = some i) :
    b.add e = (i, b) := by
  rw [add, h]

theorem add_new {b : PoolBuilder} {e : Entry} (h : b.index[e]? = none) :
    b.add e = (b.entries.size.toUInt16,
      ⟨b.entries.push e, b.index.insert e b.entries.size.toUInt16⟩) := by
  rw [add, h]

/-- A new constant stands behind those before it. -/
theorem holds_push {entries : Array Entry} {e : Entry} (hpos : 0 < entries.size)
    (hlt : entries.size < 65536) :
    (⟨entries.push e⟩ : Pool).Holds entries.size.toUInt16 e := by
  have hnat : entries.size.toUInt16.toNat = entries.size := Nat.mod_eq_of_lt hlt
  refine ⟨fun hzero => ?_, ?_⟩
  · rw [hzero] at hnat
    exact absurd hnat (Nat.ne_of_lt hpos)
  · rw [hnat]
    exact Array.getElem?_push_size

namespace Built

variable {b : PoolBuilder} {e : Entry} {i : UInt16}

theorem grows (h : Built b) : PoolBuilder.start.pool.Grows b.pool := by
  induction h with
  | start => exact .refl _
  | add e _ ih => exact ih.trans (grows_add ..)

theorem size_pos (h : Built b) : 0 < b.entries.size :=
  Nat.lt_of_lt_of_le Nat.one_pos h.grows.size_le

theorem holds (h : Built b) (hfits : b.Fits) (hi : b.index[e]? = some i) : b.pool.Holds i e := by
  induction h generalizing e i with
  | start => rw [PoolBuilder.start, Std.TreeMap.getElem?_emptyc] at hi; cases hi
  | @add b new hb ih =>
    have hbefore {e : Entry} {i : UInt16} : b.index[e]? = some i → b.pool.Holds i e :=
      ih (hfits.mono (b.grows_add new))
    cases hnew : b.index[new]? with
    | some known =>
      rw [add_known hnew] at hi ⊢
      exact hbefore hi
    | none =>
      have hgrows := b.grows_add new
      rw [add_new hnew] at hi hfits hgrows ⊢
      rw [Std.TreeMap.getElem?_insert] at hi
      split at hi
      · rename_i heq
        cases hi
        rw [← Entry.order_eq_iff.1 heq]
        refine holds_push hb.size_pos ?_
        rw [Fits, Array.size_push] at hfits
        omega
      · exact hgrows.holds (hbefore hi)

/-- A constant stands at the index that it was given. -/
theorem holds_add (h : Built b) (e : Entry) (hfits : (b.add e).2.Fits) :
    (b.add e).2.pool.Holds (b.add e).1 e := by
  refine (h.add e).holds hfits ?_
  cases hknown : b.index[e]? with
  | some i => rwa [add_known hknown]
  | none => rw [add_new hknown, Std.TreeMap.getElem?_insert_self]

theorem addClass (h : Built b) (name : Bytes) : Built (b.addClass name).2 := (h.add _).add _

theorem classAt_addClass (h : Built b) (name : Bytes) (hfits : (b.addClass name).2.Fits) :
    (b.addClass name).2.pool.ClassAt (b.addClass name).1 name := by
  have hgrows := (b.addUtf8 name).2.grows_add (.classRef (b.addUtf8 name).1)
  have hname := h.holds_add (.utf8 name) (hfits.mono hgrows)
  exact ⟨(b.addUtf8 name).1, hgrows.holds hname,
    (h.add (.utf8 name)).holds_add (.classRef (b.addUtf8 name).1) hfits⟩

theorem addNameAndType (h : Built b) (name descriptor : Bytes) :
    Built (b.addNameAndType name descriptor).2 := ((h.add _).add _).add _

theorem nameAndTypeAt_addNameAndType (h : Built b) (name descriptor : Bytes)
    (hfits : (b.addNameAndType name descriptor).2.Fits) :
    (b.addNameAndType name descriptor).2.pool.NameAndTypeAt (b.addNameAndType name descriptor).1
      name descriptor := by
  rw [addNameAndType_eq] at hfits ⊢
  have hname : Built (b.addUtf8 name).2 := h.add _
  have hboth : Built ((b.addUtf8 name).2.addUtf8 descriptor).2 := hname.add _
  have hgrows := (b.addUtf8 name).2.grows_add (.utf8 descriptor)
  have hgrows' := ((b.addUtf8 name).2.addUtf8 descriptor).2.grows_add
    (.nameAndType (b.addUtf8 name).1 ((b.addUtf8 name).2.addUtf8 descriptor).1)
  have hfits' := hfits.mono hgrows'
  exact ⟨_, _, (hgrows.trans hgrows').holds (h.holds_add (.utf8 name) (hfits'.mono hgrows)),
    hgrows'.holds (hname.holds_add (.utf8 descriptor) hfits'), hboth.holds_add _ hfits⟩

/-- An added method stands at its index. -/
theorem methodAt_addMethodRef (h : Built b) (owner name descriptor : Bytes)
    (hfits : (b.addMethodRef owner name descriptor).2.Fits) :
    (b.addMethodRef owner name descriptor).2.pool.MethodAt
      (b.addMethodRef owner name descriptor).1 owner name descriptor := by
  rw [addMethodRef_eq] at hfits ⊢
  have hmember := h.addNameAndType name descriptor
  have hgrows := (b.addNameAndType name descriptor).2.grows_addClass owner
  have hgrows' := ((b.addNameAndType name descriptor).2.addClass owner).2.grows_add
    (.methodRef ((b.addNameAndType name descriptor).2.addClass owner).1
      (b.addNameAndType name descriptor).1)
  have hfits' := hfits.mono hgrows'
  have hparts := h.nameAndTypeAt_addNameAndType name descriptor (hfits'.mono hgrows)
  exact ⟨_, _, hgrows'.classAt (hmember.classAt_addClass owner hfits'),
    (hgrows.trans hgrows').nameAndTypeAt hparts, (hmember.addClass owner).holds_add _ hfits⟩

end Built

/-! ### Builders of different constants -/

/-- A builder that was given no placeholder: its constants are different, as each one but the
placeholder has its place in the index. -/
structure Distinct (b : PoolBuilder) : Prop where
  built : Built b
  nodup : b.pool.Distinct
  indexed : ∀ e ∈ b.entries, e ≠ .placeholder → (b.index[e]?).isSome

namespace Distinct

variable {b : PoolBuilder} {e : Entry}

theorem start : Distinct PoolBuilder.start where
  built := .start
  nodup := List.nodup_singleton _
  indexed _ he hne := absurd (List.mem_singleton.1 (Array.mem_def.1 he)) hne

theorem add (h : Distinct b) (he : e ≠ .placeholder) : Distinct (b.add e).2 := by
  cases hnew : b.index[e]? with
  | some i => rwa [add_known hnew]
  | none =>
    have hbuilt := h.built.add e
    rw [add_new hnew] at hbuilt ⊢
    have hfresh : e ∉ b.entries := fun hmem => by
      have hsome := h.indexed e hmem he
      rw [hnew] at hsome
      cases hsome
    refine ⟨hbuilt, ?_, fun e' he' hne => ?_⟩
    · rw [Pool.Distinct, PoolBuilder.pool, Array.toList_push, List.nodup_append]
      refine ⟨h.nodup, List.nodup_singleton _, fun x hx y hy heq => ?_⟩
      rw [List.mem_singleton.1 hy] at heq
      exact hfresh (Array.mem_def.2 (heq ▸ hx))
    · rw [Std.TreeMap.getElem?_insert]
      split
      · rfl
      · rename_i hdiffers
        rcases Array.mem_push.1 he' with he' | rfl
        · exact h.indexed e' he' hne
        · exact absurd (Entry.order_eq_iff.2 rfl) hdiffers

theorem addTagged (h : Distinct b) (t : Tag) (he : e.tag = t.byte)
    (ht : t.byte ≠ Tag.placeholder.byte) : Distinct (b.add e).2 :=
  h.add fun heq => ht (he.symm.trans (congrArg Entry.tag heq))

theorem addUtf8 (h : Distinct b) (text : Bytes) : Distinct (b.addUtf8 text).2 :=
  h.addTagged .utf8 rfl (by decide)

theorem addClass (h : Distinct b) (name : Bytes) : Distinct (b.addClass name).2 :=
  (h.addUtf8 name).addTagged .classRef rfl (by decide)

theorem addMethodRef (h : Distinct b) (owner name descriptor : Bytes) :
    Distinct (b.addMethodRef owner name descriptor).2 := by
  have hmember : Distinct (b.addNameAndType name descriptor).2 :=
    ((h.addUtf8 name).addUtf8 descriptor).addTagged .nameAndType rfl (by decide)
  rw [addMethodRef_eq]
  exact (hmember.addClass owner).addTagged .methodRef rfl (by decide)

end Distinct

end PoolBuilder

end MiniJvm
