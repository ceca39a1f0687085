import Mathlib
import MiniJvm.Image.Codec
import MiniJvm.Proofs.Cbor.RoundTrip

/-!
# Records

A record is written as a map from field numbers to values, without the fields that are zero. Each
field is filled again with what it was written from, a missing one with the zero it stood for.
-/

namespace MiniJvm.Image

open Cbor

/-- A field as it is written: its number, whether it is zero, so that it may be left out, and its
item. -/
structure Slot where
  number : Nat
  zero : Bool
  item : Item

def record (slots : List Slot) : List (Item × Item) :=
  slots.flatMap fun s => unlessZero s.number s.zero s.item

/-- The fields that are found in a record. -/
def written (slots : List Slot) : List (Int × Item) :=
  slots.flatMap fun s => if s.zero then [] else [((s.number : Int), s.item)]

theorem record_cons (s : Slot) (slots : List Slot) :
    record (s :: slots) = unlessZero s.number s.zero s.item ++ record slots := rfl

theorem written_cons (s : Slot) (slots : List Slot) :
    written (s :: slots) = (if s.zero then [] else [((s.number : Int), s.item)]) ++ written slots :=
  rfl

theorem fillFields_record {slots : List Slot}
    (h : ∀ s ∈ slots, s.number < 9223372036854775808) :
    fillFields (.map (record slots)) = some (written slots) := by
  change (record slots).mapM (fun p => (fieldNumber p.1).map fun n => (n, p.2)) = _
  induction slots with
  | nil => rfl
  | cons s slots ih =>
    obtain ⟨hs, hslots⟩ := List.forall_mem_cons.1 h
    have hnumber : Int.bmod (s.number : Int) 18446744073709551616 = s.number :=
      Int.bmod_eq_of_le (by omega) (by omega)
    have hfirst : (unlessZero s.number s.zero s.item).mapM
        (fun p => (fieldNumber p.1).map fun n => (n, p.2)) =
        some (if s.zero then [] else [((s.number : Int), s.item)]) := by
      unfold unlessZero
      split
      · rfl
      · simp [present, fieldNumber, hnumber]
    rw [record_cons, List.mapM_append, hfirst, ih hslots, written_cons]
    rfl

theorem lookup_written_cons (s : Slot) (slots : List Slot) (number : Nat) :
    (written (s :: slots)).lookup (number : Int) =
      if s.number = number ∧ s.zero = false then some s.item
      else (written slots).lookup (number : Int) := by
  rw [written_cons]
  cases s.zero with
  | true => simp
  | false =>
    by_cases hn : s.number = number
    · simp [hn]
    · have hbeq : ((number : Int) == (s.number : Int)) = false := by
        rw [beq_eq_false_iff_ne]
        omega
      simp [List.lookup_cons, hn, hbeq]

theorem lookup_written_of_not_mem {slots : List Slot} {number : Nat}
    (h : number ∉ slots.map Slot.number) : (written slots).lookup (number : Int) = none := by
  induction slots with
  | nil => rfl
  | cons s slots ih =>
    rw [List.map_cons, List.mem_cons, not_or] at h
    rw [lookup_written_cons, if_neg (fun hs => h.1 hs.1.symm), ih h.2]

/-- A field is found under its number, unless it is zero. -/
theorem lookup_written {slots : List Slot} (hnodup : (slots.map Slot.number).Nodup) {s : Slot}
    (hs : s ∈ slots) :
    (written slots).lookup (s.number : Int) = if s.zero then none else some s.item := by
  induction slots with
  | nil => cases hs
  | cons t slots ih =>
    rw [List.map_cons, List.nodup_cons] at hnodup
    rw [lookup_written_cons]
    rcases List.mem_cons.1 hs with rfl | hs
    · cases hzero : s.zero with
      | true => simpa using lookup_written_of_not_mem hnodup.1
      | false => simp
    · have hne : t.number ≠ s.number := fun h => hnodup.1 (h ▸ List.mem_map_of_mem hs)
      rw [if_neg (fun h => hne h.1), ih hnodup.2 hs]

/-- The field fills the value, and where it is zero, a missing field does. -/
structure Slot.Fills {α : Type} (s : Slot) (fill : Item → Option α) (x : α) : Prop where
  item : fill s.item = some x
  zero : s.zero = true → fill .null = some x

theorem Slot.Fills.always {α : Type} {fill : Item → Option α} {x : α} {number : Nat} {i : Item}
    (h : fill i = some x) : Slot.Fills ⟨number, false, i⟩ fill x :=
  ⟨h, nofun⟩

theorem Slot.Fills.unlessZero {α : Type} [DecidableEq α] {fill : Item → Option α} {x zero : α}
    {number : Nat} {i : Item} (h : fill i = some x) (hnull : fill .null = some zero) :
    Slot.Fills ⟨number, x = zero, i⟩ fill x :=
  ⟨h, fun hx => by rw [of_decide_eq_true hx, hnull]⟩

/-- Every field of a record is filled with its value. -/
theorem field_written {α : Type} {fill : Item → Option α} {x : α} {slots : List Slot}
    (hnodup : (slots.map Slot.number).Nodup) (k : Nat) {s : Slot} (hs : slots[k]? = some s)
    (h : s.Fills fill x) : field (written slots) s.number fill = some x := by
  rw [field, lookup_written hnodup (List.mem_of_getElem? hs)]
  cases hz : s.zero with
  | true => exact h.zero hz
  | false => exact h.item

/-! ## Items that are read back -/

theorem length_record_le (slots : List Slot) : (record slots).length ≤ slots.length := by
  induction slots with
  | nil => exact Nat.le_refl _
  | cons s slots ih =>
    have hfirst : (unlessZero s.number s.zero s.item).length ≤ 1 := by
      unfold unlessZero
      split <;> simp [present]
    rw [record_cons, List.length_append, List.length_cons]
    omega

theorem readable_record {depth : Nat} {slots : List Slot} (hlength : slots.length ≤ maxElements)
    (hnumber : ∀ s ∈ slots, s.number < 18446744073709551616)
    (hitem : ∀ s ∈ slots, s.zero = false → Readable depth s.item) :
    Readable (depth + 1) (.map (record slots)) := by
  have hmem {p : Item × Item} (hp : p ∈ record slots) :
      ∃ s ∈ slots, s.zero = false ∧ p = (.unsigned s.number, s.item) := by
    obtain ⟨s, hs, hp⟩ := List.mem_flatMap.1 hp
    unfold unlessZero at hp
    split at hp
    · cases hp
    · rename_i hzero
      exact ⟨s, hs, eq_false_of_ne_true hzero, List.mem_singleton.1 hp⟩
  refine .map (Nat.le_trans (length_record_le slots) hlength) (fun p hp => ?_) (fun p hp => ?_)
  · obtain ⟨s, hs, -, rfl⟩ := hmem hp
    exact .unsigned (hnumber s hs)
  · obtain ⟨s, hs, hzero, rfl⟩ := hmem hp
    exact hitem s hs hzero

theorem readable_uint8 (depth : Nat) (n : UInt8) : Readable depth (.unsigned n.toNat) :=
  .unsigned (Nat.lt_trans n.toNat_lt (by decide))

theorem readable_uint16 (depth : Nat) (n : UInt16) : Readable depth (.unsigned n.toNat) :=
  .unsigned (Nat.lt_trans n.toNat_lt (by decide))

theorem readable_itemOfInt (depth : Nat) {n : Int} (hlow : -9223372036854775808 ≤ n)
    (hhigh : n < 9223372036854775808) : Readable depth (itemOfInt n) := by
  cases n with
  | ofNat n =>
    have hn : (n : Int) < 9223372036854775808 := hhigh
    exact .unsigned (by omega)
  | negSucc n => exact .negative (by omega)

theorem readable_int32 (depth : Nat) (n : Int32) : Readable depth (itemOfInt n.toInt) := by
  have hlow := n.le_toInt
  have hhigh := n.toInt_lt
  exact readable_itemOfInt depth (by omega) (by omega)

theorem readable_int64 (depth : Nat) (n : Int64) : Readable depth (itemOfInt n.toInt) :=
  readable_itemOfInt depth n.le_toInt n.toInt_lt

theorem readable_itemOfList {α : Type} {f : α → Item} {items : Option (List α)} {depth : Nat}
    (hlength : (items.getD []).length ≤ maxElements)
    (hitems : ∀ x ∈ items.getD [], Readable depth (f x)) :
    Readable (depth + 1) (itemOfList f items) := by
  cases items with
  | none => exact .null
  | some items =>
    refine .array (by rwa [List.length_map]) fun i hi => ?_
    obtain ⟨x, hx, rfl⟩ := List.mem_map.1 hi
    exact hitems x hx

/-! ## Filling what was written -/

theorem fillInt_itemOfInt {low high n : Int} (hlow : low ≤ n) (hhigh : n ≤ high)
    (hn : -9223372036854775808 ≤ n) : fillInt low high (itemOfInt n) = some n := by
  have hfilling : (itemOfInt n).filling = some (.integer n) := by
    cases n with
    | ofNat n => rfl
    | negSucc n =>
      have hlt : n < 9223372036854775808 := by omega
      have hn : -1 - (n : Int) = Int.negSucc n := by omega
      simp only [itemOfInt, Item.filling, Item.content, if_pos hlt, hn]
  simp [fillInt, hfilling, hlow, hhigh]

theorem fillUInt8_unsigned (n : UInt8) : fillUInt8 (.unsigned n.toNat) = some n := by
  have hlt := n.toNat_lt
  have hfill : fillInt 0 255 (.unsigned n.toNat) = some n.toNat :=
    fillInt_itemOfInt (n := (n.toNat : Int)) (by omega) (by omega) (by omega)
  simp [fillUInt8, hfill]

theorem fillUInt16_unsigned (n : UInt16) : fillUInt16 (.unsigned n.toNat) = some n := by
  have hlt := n.toNat_lt
  have hfill : fillInt 0 65535 (.unsigned n.toNat) = some n.toNat :=
    fillInt_itemOfInt (n := (n.toNat : Int)) (by omega) (by omega) (by omega)
  simp [fillUInt16, hfill]

theorem fillInt32_itemOfInt (n : Int32) : fillInt32 (itemOfInt n.toInt) = some n := by
  have hlow := n.le_toInt
  have hhigh := n.toInt_lt
  rw [fillInt32, fillInt_itemOfInt (by omega) (by omega) (by omega), Option.map_some,
    Int32.ofInt_toInt]

theorem fillInt64_itemOfInt (n : Int64) : fillInt64 (itemOfInt n.toInt) = some n := by
  have hlow := n.le_toInt
  have hhigh := n.toInt_lt
  rw [fillInt64, fillInt_itemOfInt (by omega) (by omega) (by omega), Option.map_some,
    Int64.ofInt_toInt]

theorem fillText_itemOfText {s : Bytes} (h : Utf8.valid s = true) :
    fillText (itemOfText s) = some s := by
  simp [fillText, itemOfText, Item.filling, Item.content, h]

theorem mapM_map_some {α : Type} {f : α → Item} {fill : Item → Option α} {items : List α}
    (h : ∀ x ∈ items, fill (f x) = some x) : (items.map f).mapM fill = some items := by
  induction items with
  | nil => rfl
  | cons x items ih =>
    obtain ⟨hx, hitems⟩ := List.forall_mem_cons.1 h
    rw [List.map_cons, List.mapM_cons, hx, ih hitems]
    rfl

/-- Null and the empty array are told apart. -/
theorem fillList_itemOfList {α : Type} {f : α → Item} {fill : Item → Option α}
    {items : Option (List α)} (h : ∀ x ∈ items.getD [], fill (f x) = some x) :
    fillList fill (itemOfList f items) = some items := by
  cases items with
  | none => rfl
  | some items =>
    have hitems : (items.map f).mapM fill = some items := mapM_map_some h
    simp only [fillList, itemOfList, Item.filling, Item.content, hitems, Option.map_some]

/-! ## Items with equal encodings -/

theorem encodePairs_append (front rest : List (Item × Item)) :
    encodePairs (front ++ rest) = encodePairs front ++ encodePairs rest := by
  induction front with
  | nil => rfl
  | cons p front ih => rw [List.cons_append, encodePairs, encodePairs, ih, List.append_assoc]

/-- Two fields that are written with the same bytes. -/
structure Alike (s t : Slot) : Prop where
  number : s.number = t.number
  zero : s.zero = t.zero
  item : s.zero = false → s.item.encode = t.item.encode

theorem Alike.refl (s : Slot) : Alike s s := ⟨rfl, rfl, fun _ => rfl⟩

theorem encode_record_congr {slots slots' : List Slot} (h : List.Forall₂ Alike slots slots') :
    (Item.map (record slots)).encode = (Item.map (record slots')).encode := by
  have hboth : (record slots).length = (record slots').length ∧
      encodePairs (record slots) = encodePairs (record slots') := by
    induction h with
    | nil => exact ⟨rfl, rfl⟩
    | @cons s t slots slots' hst _ ih =>
      obtain ⟨hlength, hencode⟩ := ih
      rw [record_cons, record_cons, List.length_append, List.length_append, encodePairs_append,
        encodePairs_append, hlength, hencode, hst.number, ← hst.zero]
      cases hzero : s.zero with
      | true => exact ⟨rfl, rfl⟩
      | false =>
        have hitem := hst.item hzero
        simp [unlessZero, present, encodePairs, encodePair, hitem]
  rw [Item.encode, Item.encode, hboth.1, hboth.2]

/-- Elements may change without changing their bytes. -/
theorem encode_itemOfList_map {α : Type} {f : α → Item} {change : α → α}
    (h : ∀ x, (f (change x)).encode = (f x).encode) (items : Option (List α)) :
    (itemOfList f (items.map (List.map change))).encode = (itemOfList f items).encode := by
  have hall (items : List α) :
      encodeAll ((items.map change).map f) = encodeAll (items.map f) := by
    induction items with
    | nil => rfl
    | cons x items ih => simp only [List.map_cons, encodeAll, h, ih]
  cases items with
  | none => rfl
  | some items =>
    simp only [Option.map_some, itemOfList, Item.encode, List.length_map, hall]

end MiniJvm.Image
