import Mathlib
import MiniJvm.Pool.Basic
import MiniJvm.Assembly.Generate
import MiniJvm.Proofs.Basic

/-!
# Growing pools

A pool under construction only gets entries at its end, and an index that has a text keeps it.
-/

namespace MiniJvm

namespace Pool

/-- `q` has further entries at most. -/
def Grows (p q : Pool) : Prop := p.entries.toList <+: q.entries.toList

theorem Grows.refl (p : Pool) : Grows p p := List.prefix_refl _

theorem Grows.trans {p q r : Pool} (h : Grows p q) (h' : Grows q r) : Grows p r :=
  List.IsPrefix.trans h h'

theorem Grows.size_le {p q : Pool} (h : Grows p q) : p.size ≤ q.size := by
  have hlen := List.IsPrefix.length_le h
  rwa [Array.length_toList, Array.length_toList] at hlen

theorem entry_ok_iff {p : Pool} {index : UInt16} {e : Entry} :
    p.entry index = .ok e ↔ index ≠ 0 ∧ p.entries[index.toNat]? = some e := by
  unfold entry
  split
  · rename_i h
    simp [h]
  · rename_i h
    cases p.entries[index.toNat]? <;> simp [h]

theorem Grows.entry {p q : Pool} (h : Grows p q) {index : UInt16} {e : Entry}
    (he : p.entry index = .ok e) : q.entry index = .ok e := by
  obtain ⟨h0, hget⟩ := entry_ok_iff.1 he
  refine entry_ok_iff.2 ⟨h0, ?_⟩
  obtain ⟨rest, hrest⟩ := h
  obtain ⟨hlt, -⟩ := Array.getElem?_eq_some_iff.1 hget
  rw [← Array.getElem?_toList] at hget ⊢
  rw [← hrest, List.getElem?_append_left (by rwa [Array.length_toList]), hget]

/-- Two texts put together. -/
theorem joined_mono {ε : Type} {x x' y y' : Except ε Bytes} {join : Bytes → Bytes → Bytes}
    {text : Bytes} (hx : ∀ {a}, x = .ok a → x' = .ok a) (hy : ∀ {b}, y = .ok b → y' = .ok b)
    (h : (do let a ← x; let b ← y; return join a b) = .ok text) :
    (do let a ← x'; let b ← y'; return join a b) = .ok text := by
  obtain ⟨a, ha, h⟩ := bind_eq_ok.1 h
  obtain ⟨b, hb, h⟩ := bind_eq_ok.1 h
  exact bind_eq_ok.2 ⟨a, hx ha, bind_eq_ok.2 ⟨b, hy hb, h⟩⟩

/-- Neither more entries nor more steps change a text that was found. -/
theorem Grows.resolveWithin {p q : Pool} (h : Grows p q) {depth depth' : Nat} {index : UInt16}
    {text : Bytes} (hle : depth ≤ depth') (ht : p.resolveWithin depth index = .ok text) :
    q.resolveWithin depth' index = .ok text := by
  induction depth generalizing depth' index text with
  | zero =>
    unfold Pool.resolveWithin at ht
    split at ht <;> cases ht
  | succ depth ih =>
    obtain _ | depth' := depth'
    · omega
    have hle' : depth ≤ depth' := Nat.le_of_succ_le_succ hle
    unfold Pool.resolveWithin at ht ⊢
    cases he : p.entry index with
    | error e => rw [he] at ht; cases ht
    | ok e =>
      rw [he] at ht
      rw [h.entry he]
      dsimp only at ht ⊢
      split at ht
      · exact ht
      · exact ih hle' ht
      · exact ih hle' ht
      · exact joined_mono (ih hle') (ih hle') ht
      · exact joined_mono (ih hle') (ih hle') ht
      · exact joined_mono (ih hle') (ih hle') ht
      · exact joined_mono (ih hle') (ih hle') ht
      · cases ht

theorem Grows.resolve {p q : Pool} (h : Grows p q) {index : UInt16} {text : Bytes}
    (ht : p.resolve index = .ok text) : q.resolve index = .ok text :=
  h.resolveWithin h.size_le ht

/-- A pool that has its placeholder is taken as it stands. -/
theorem ofEntries_of_grows {q : Pool} (h : Grows PoolBuilder.start.pool q) :
    ofEntries q.entries.toList = q := by
  obtain ⟨rest, hrest⟩ := h
  rw [← hrest]
  have hq : q.entries = (Entry.placeholder :: rest).toArray := by
    rw [← q.entries.toArray_toList, ← hrest]
    rfl
  cases q
  cases hq
  rfl

end Pool

namespace PoolBuilder

theorem grows_add (b : PoolBuilder) (e : Entry) : b.pool.Grows (b.add e).2.pool := by
  unfold add
  split
  · exact .refl _
  · exact ⟨[e], (Array.toList_push ..).symm⟩

theorem grows_addClass (b : PoolBuilder) (name : Bytes) : b.pool.Grows (b.addClass name).2.pool :=
  (b.grows_add _).trans (grows_add ..)

/-- Adds a name and a descriptor, and the pair of them. -/
def addNameAndType (b : PoolBuilder) (name descriptor : Bytes) : UInt16 × PoolBuilder :=
  let (nameIndex, b) := b.addUtf8 name
  let (descriptorIndex, b) := b.addUtf8 descriptor
  b.add (.nameAndType nameIndex descriptorIndex)

theorem addNameAndType_eq (b : PoolBuilder) (name descriptor : Bytes) :
    b.addNameAndType name descriptor =
      ((b.addUtf8 name).2.addUtf8 descriptor).2.add
        (.nameAndType (b.addUtf8 name).1 ((b.addUtf8 name).2.addUtf8 descriptor).1) := rfl

theorem addMethodRef_eq (b : PoolBuilder) (owner name descriptor : Bytes) :
    b.addMethodRef owner name descriptor =
      ((b.addNameAndType name descriptor).2.addClass owner).2.add
        (.methodRef ((b.addNameAndType name descriptor).2.addClass owner).1
          (b.addNameAndType name descriptor).1) := by
  simp only [addMethodRef, addNameAndType]

theorem grows_addNameAndType (b : PoolBuilder) (name descriptor : Bytes) :
    b.pool.Grows (b.addNameAndType name descriptor).2.pool := by
  rw [addNameAndType_eq]
  exact ((b.grows_add _).trans (grows_add ..)).trans (grows_add ..)

theorem grows_addMethodRef (b : PoolBuilder) (owner name descriptor : Bytes) :
    b.pool.Grows (b.addMethodRef owner name descriptor).2.pool := by
  rw [addMethodRef_eq]
  exact ((b.grows_addNameAndType ..).trans (grows_addClass ..)).trans (grows_add ..)

end PoolBuilder

end MiniJvm
