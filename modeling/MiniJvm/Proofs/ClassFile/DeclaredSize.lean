import Mathlib
import MiniJvm.ClassFile.Reader
import MiniJvm.Proofs.ClassFile.Bounds
import MiniJvm.Proofs.Basic
import MiniJvm.Proofs.Pool.Meaning

/-!
# The declared size of a pool

The header of a class file declares the number of slots of its pool. The pool that is read has this
size unless the constant in the last declared slot is wide: that constant takes one more slot, with
a number that the class file does not have (`size_parse`). A class with fewer than two slots has no
name and is not read.
-/

namespace MiniJvm.ClassFile

/-- The number of slots that the header declares. It stands behind the magic number and the two
version numbers. -/
def declaredSlots (bytes : Bytes) : Nat := Bytes.number ((bytes.drop 8).take 2)

/-- Entries that may be read for a number of slots. -/
inductive Fills : Nat → List Entry → Prop where
  | none : Fills 0 []
  | narrow {slots : Nat} {e : Entry} {rest : List Entry} : e.isWide = false → Fills slots rest →
      Fills (slots + 1) (e :: rest)
  | wide {slots : Nat} {e : Entry} {rest : List Entry} : e.isWide = true → Fills slots rest →
      Fills (slots + 2) (e :: .placeholder :: rest)
  /-- The second slot of the last constant is past the end. -/
  | spills {e : Entry} : e.isWide = true → Fills 1 [e, .placeholder]

theorem yields_constants_fills (slots index : Nat) :
    Yields (Fills slots) (constants slots index) := by
  have hone (index : Nat) : Yields (fun _ => True) (constant index) := fun _ _ _ _ => trivial
  induction slots using Nat.twoStepInduction generalizing index with
  | zero => exact yields_pure .none
  | one =>
    refine (hone index).bind fun e _ => ?_
    split
    · rename_i hwide
      exact yields_pure (.spills hwide)
    · rename_i hnarrow
      exact yields_pure (.narrow (Bool.eq_false_iff.2 hnarrow) .none)
  | more slots ih ih' =>
    refine (hone index).bind fun e _ => ?_
    split
    · rename_i hwide
      exact (ih (index + 2)).bind fun rest hrest => yields_pure (.wide hwide hrest)
    · rename_i hnarrow
      exact (ih' (index + 1)).bind fun rest hrest =>
        yields_pure (.narrow (Bool.eq_false_iff.2 hnarrow) hrest)

/-- The entry in the last declared slot decides on the size. The entry `first` stands before the
slots that are filled, so that there is a last entry even if no slots are. -/
theorem Fills.last {slots : Nat} {entries : List Entry} (h : Fills slots entries) (first : Entry)
    (hfirst : first.isWide = false) :
    ∃ last, (first :: entries)[slots]? = some last ∧
      (last.isWide = false → entries.length = slots) ∧
      (last.isWide = true → entries.length = slots + 1 ∧
        entries[slots]? = some .placeholder) := by
  induction h generalizing first with
  | none => exact ⟨first, rfl, fun _ => rfl, fun hwide => absurd hwide (Bool.eq_false_iff.1 hfirst)⟩
  | narrow he _ ih =>
    obtain ⟨last, hlast, hsame, hmore⟩ := ih _ he
    refine ⟨last, hlast, fun hl => congrArg Nat.succ (hsame hl), fun hl => ?_⟩
    exact ⟨congrArg Nat.succ (hmore hl).1, (hmore hl).2⟩
  | wide he _ ih =>
    obtain ⟨last, hlast, hsame, hmore⟩ := ih .placeholder rfl
    refine ⟨last, hlast, fun hl => congrArg (· + 2) (hsame hl), fun hl => ?_⟩
    exact ⟨congrArg (· + 2) (hmore hl).1, (hmore hl).2⟩
  | @spills e he =>
    exact ⟨e, rfl, fun hnarrow => absurd he (Bool.eq_false_iff.1 hnarrow), fun _ => ⟨rfl, rfl⟩⟩

/-! ## Where the count stands -/

section Reads

variable {α β : Type} {c c' : Cursor}

theorem ok_of_bind {x : Reader α} {k : α → Reader β} {read : β × Cursor}
    (h : (x >>= k) c = .ok read) : ∃ a c', x c = .ok (a, c') ∧ k a c' = .ok read := by
  change (x c >>= fun read => k read.1 read.2) = _ at h
  obtain ⟨⟨a, c'⟩, hx, hk⟩ := bind_eq_ok.1 h
  exact ⟨a, c', hx, hk⟩

theorem of_take {n : Nat} {s : Bytes} (h : take n c = .ok (s, c')) :
    s = c.rest.take n ∧ c'.rest = c.rest.drop n := by
  unfold take at h
  cases hsplit : Bytes.split? n c.rest with
  | none => rw [hsplit] at h; cases h
  | some cut =>
    rw [hsplit] at h
    cases h
    exact (Bytes.of_split? hsplit).2

theorem of_u4 {n : UInt32} (h : u4 c = .ok (n, c')) : c'.rest = c.rest.drop 4 := by
  obtain ⟨s, d, htake, hn⟩ := ok_of_bind h
  cases hn
  exact (of_take htake).2

theorem of_u2 {n : UInt16} (h : u2 c = .ok (n, c')) :
    n.toNat = Bytes.number (c.rest.take 2) ∧ c'.rest = c.rest.drop 2 := by
  obtain ⟨s, d, htake, hn⟩ := ok_of_bind h
  cases hn
  have hlength : s.length = 2 := yields_take 2 _ _ _ htake
  obtain ⟨rfl, hrest⟩ := of_take htake
  have hlt := Bytes.number_lt (c.rest.take 2)
  rw [hlength] at hlt
  exact ⟨UInt16.toNat_ofNat_of_lt' hlt, hrest⟩

theorem of_within {x : Reader α} {place : Place} {read : α × Cursor}
    (h : within place x c = .ok read) : x c = .ok read := by
  unfold within at h
  cases hx : x c with
  | error e => rw [hx] at h; cases h
  | ok found =>
    rw [hx] at h
    cases h
    rfl

theorem of_lookUp {place : Place} {r : Except Pool.ResolveError α} {a : α}
    (h : lookUp place r c = .ok (a, c')) : r = .ok a := by
  cases r with
  | error e =>
    have hfail := of_within (x := fail (.constant e)) (c := c) h
    cases hfail
  | ok found =>
    cases h
    rfl

theorem of_readPool {p : Pool} (h : readPool c = .ok (p, c')) :
    ∃ entries, Fills (Bytes.number (c.rest.take 2) - 1) entries ∧
      p = ⟨(Entry.placeholder :: entries).toArray⟩ := by
  obtain ⟨count, d, hcount, h⟩ := ok_of_bind h
  obtain ⟨entries, d', hentries, h⟩ := ok_of_bind h
  cases h
  rw [← (of_u2 hcount).1]
  exact ⟨entries, yields_constants_fills _ _ _ _ _ hentries, rfl⟩

/-- The pool of a class is read behind the first eight bytes, and the class has a name from it. -/
theorem pool_of_parse {bytes : Bytes} {f : ClassFile} (h : parse bytes = .ok f) :
    (∃ entries, Fills (declaredSlots bytes - 1) entries ∧
      f.pool = ⟨(Entry.placeholder :: entries).toArray⟩) ∧
    ∃ index, f.pool.resolve index = .ok f.name := by
  obtain ⟨⟨_, c⟩, h, hf⟩ := bind_eq_ok.1 h
  cases hf
  obtain ⟨magic, c₁, hmagic, h⟩ := ok_of_bind h
  dsimp only at h
  split at h
  · obtain ⟨_, _, hfail, _⟩ := ok_of_bind h
    cases hfail
  obtain ⟨minor, c₂, hminor, h⟩ := ok_of_bind h
  obtain ⟨major, c₃, hmajor, h⟩ := ok_of_bind h
  obtain ⟨pool, c₄, hpool, h⟩ := ok_of_bind h
  obtain ⟨access, c₅, -, h⟩ := ok_of_bind h
  obtain ⟨thisIndex, c₆, -, h⟩ := ok_of_bind h
  obtain ⟨name, c₇, hname, h⟩ := ok_of_bind h
  obtain ⟨superName, c₈, -, h⟩ := ok_of_bind h
  obtain ⟨interfaceCount, c₉, -, h⟩ := ok_of_bind h
  obtain ⟨interfaces, c₁₀, -, h⟩ := ok_of_bind h
  obtain ⟨fieldCount, c₁₁, -, h⟩ := ok_of_bind h
  obtain ⟨fields, c₁₂, -, h⟩ := ok_of_bind h
  obtain ⟨methodCount, c₁₃, -, h⟩ := ok_of_bind h
  obtain ⟨methods, c₁₄, -, h⟩ := ok_of_bind h
  obtain ⟨_, c₁₅, -, h⟩ := ok_of_bind h
  cases h
  have hrest : c₃.rest = bytes.drop 8 := by
    rw [(of_u2 hmajor).2, (of_u2 hminor).2, of_u4 hmagic, List.drop_drop, List.drop_drop]
  have hentries := of_readPool (of_within hpool)
  rw [hrest] at hentries
  exact ⟨hentries, thisIndex, of_lookUp hname⟩

end Reads

/-! ## Sizes -/

/-- A class that is read has the declared number of slots, and its indices are the numbers that it
declares, exactly when the constant in the last declared slot is not wide. Otherwise there is one
slot more, a placeholder, and the declared number itself is an index. -/
theorem size_parse {bytes : Bytes} {c : ClassFile} (h : parse bytes = .ok c) :
    2 ≤ declaredSlots bytes ∧
      ∃ last, c.pool.entries[declaredSlots bytes - 1]? = some last ∧
        (c.pool.size = declaredSlots bytes ↔ last.isWide = false) ∧
        (last.isWide = true → c.pool.size = declaredSlots bytes + 1 ∧
          c.pool.entries[declaredSlots bytes]? = some .placeholder) ∧
        ∀ index : UInt16, (∃ e, c.pool.entry index = .ok e) ↔
          1 ≤ index.toNat ∧ (index.toNat < declaredSlots bytes ∨
            last.isWide = true ∧ index.toNat = declaredSlots bytes) := by
  obtain ⟨⟨entries, hfills, hpool⟩, named, hname⟩ := pool_of_parse h
  have hsize : c.pool.size = entries.length + 1 := by rw [hpool]; rfl
  have hnamed : ∃ e, c.pool.entry named = .ok e := by
    cases hentry : c.pool.entry named with
    | ok e => exact ⟨e, rfl⟩
    | error err =>
      rw [Pool.resolve, Pool.resolveWithin.eq_def, hentry] at hname
      cases hname
  have hcount : 2 ≤ declaredSlots bytes := by
    obtain ⟨hpos, hlt⟩ := Pool.exists_entry_iff.1 hnamed
    by_contra hfew
    have hzero : declaredSlots bytes - 1 = 0 := by omega
    rw [hzero] at hfills
    cases hfills
    rw [hsize] at hlt
    change _ < 1 at hlt
    omega
  have hslot (k : Nat) : c.pool.entries[k]? = (Entry.placeholder :: entries)[k]? := by
    rw [hpool, List.getElem?_toArray]
  obtain ⟨last, hlast, hsame, hmore⟩ := hfills.last .placeholder rfl
  refine ⟨hcount, last, (hslot _).trans hlast, ?_⟩
  simp only [Pool.exists_entry_iff]
  cases hwide : last.isWide with
  | false =>
    have hlength := hsame hwide
    refine ⟨⟨fun _ => rfl, fun _ => by omega⟩, fun h => absurd h Bool.false_ne_true,
      fun index => ?_⟩
    simp only [reduceCtorEq, false_and, or_false]
    omega
  | true =>
    obtain ⟨hlength, hspilled⟩ := hmore hwide
    refine ⟨⟨fun hs => by omega, fun h => absurd h.symm Bool.false_ne_true⟩,
      fun _ => ⟨by omega, ?_⟩, fun index => ?_⟩
    · obtain ⟨k, hk⟩ : ∃ k, declaredSlots bytes = k + 1 := ⟨declaredSlots bytes - 1, by omega⟩
      rw [hk] at hspilled ⊢
      exact (hslot _).trans hspilled
    · simp only [eq_self, true_and]
      omega

/-- A class with the constants `A`, class `A` and the number 7 of 64 bits, which starts in the last
of the four declared slots. -/
def spilling : Bytes :=
  [0xCA, 0xFE, 0xBA, 0xBE, 0, 0, 0, 52, 0, 4, 1, 0, 1, 65, 7, 0, 1, 5, 0, 0, 0, 0, 0, 0, 0, 7,
    0, 33, 0, 2, 0, 0, 0, 0, 0, 0, 0, 0, 0, 0]

theorem size_parse_spilling :
    ∃ c last, parse spilling = .ok c ∧ declaredSlots spilling = 4 ∧
      c.pool.entries[3]? = some last ∧ last.isWide = true ∧ c.pool.size = 5 ∧
      ∃ e, c.pool.entry 4 = .ok e := by
  have hcount : declaredSlots spilling = 4 := by decide
  have hchecked : ∃ c ∈ (parse spilling).toOption, ∃ last ∈ c.pool.entries[3]?,
      last.isWide = true := by
    decide +kernel
  obtain ⟨c, hc, last, hlast, hwide⟩ := hchecked
  have hparse := eq_ok_of_mem_toOption hc
  obtain ⟨-, last', hlast', -, hmore, hindices⟩ := size_parse hparse
  rw [hcount] at hlast' hmore hindices
  obtain rfl := Option.some.inj (hlast'.symm.trans hlast)
  exact ⟨c, last', hparse, hcount, hlast, hwide, (hmore hwide).1,
    (hindices 4).2 ⟨by decide, .inr ⟨hwide, rfl⟩⟩⟩

/-- A class that declares four slots has a pool of five, in which 4 is an index. -/
theorem undeclared_slot :
    ∃ c ∈ (parse spilling).toOption, declaredSlots spilling = 4 ∧ c.pool.size = 5 ∧
      (c.pool.entry 4).toOption = some .placeholder := by
  decide +kernel

end MiniJvm.ClassFile
