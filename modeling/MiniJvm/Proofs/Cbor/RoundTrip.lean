import Mathlib
import MiniJvm.Cbor
import MiniJvm.Proofs.Basic
import MiniJvm.Proofs.Number.Double

/-!
# Reading what was written

Items whose numbers have 64 bits and that stay within the reader's limits are read back from their
canonical encoding, whatever bytes follow.
-/

namespace MiniJvm.Cbor

open Bytes (bigEndian number split? number_bigEndian split?_append split?_bigEndian)

/-! ## Heads -/

/-- What the first byte of a head holds. -/
theorem toNat_firstByte {major info : Nat} (hmajor : major < 8) (hinfo : info < 32) :
    (major * 32 + info).toUInt8.toNat = major * 32 + info := by
  rw [UInt8.toNat_ofNat']
  omega

theorem readHead_short {b : UInt8} {major info : Nat} (hb : b.toNat = major * 32 + info)
    (hinfo : info < 24) (rest : Bytes) :
    readHead (b :: rest) = some (⟨major, info, info⟩, rest) := by
  have hdiv : b.toNat / 32 = major := by omega
  have hmod : b.toNat % 32 = info := by omega
  simp only [readHead, hdiv, hmod, if_pos hinfo]

theorem readHead_wide {b : UInt8} {major info width n : Nat} (hb : b.toNat = major * 32 + info)
    (hwidth : (info, width) ∈ [(24, 1), (25, 2), (26, 4), (27, 8)]) (hn : n < 256 ^ width)
    (rest : Bytes) :
    readHead (b :: bigEndian width n ++ rest) = some (⟨major, info, n⟩, rest) := by
  simp only [List.mem_cons, Prod.mk.injEq, List.not_mem_nil, or_false] at hwidth
  have hdiv : b.toNat / 32 = major := by omega
  have hmod : b.toNat % 32 = info := by omega
  rw [List.cons_append, readHead]
  simp only [hdiv, hmod]
  rcases hwidth with ⟨rfl, rfl⟩ | ⟨rfl, rfl⟩ | ⟨rfl, rfl⟩ | ⟨rfl, rfl⟩ <;>
    simp [split?_bigEndian, number_bigEndian hn]

/-- A head is read as it was written. It is never one of an indefinite length. -/
theorem readHead_head {major n : Nat} (hmajor : major < 8) (hn : n < 18446744073709551616)
    (rest : Bytes) :
    ∃ info, info ≠ 31 ∧ readHead (head major n ++ rest) = some (⟨major, info, n⟩, rest) := by
  have hfirst {info : Nat} := @toNat_firstByte major info hmajor
  unfold head
  simp only
  split
  · exact ⟨n, by omega, readHead_short (hfirst (by omega)) (by omega) rest⟩
  split
  · exact ⟨24, by decide, readHead_wide (hfirst (by decide)) (by simp) (by omega) rest⟩
  split
  · exact ⟨25, by decide, readHead_wide (hfirst (by decide)) (by simp) (by omega) rest⟩
  split
  · exact ⟨26, by decide, readHead_wide (hfirst (by decide)) (by simp) (by omega) rest⟩
  · exact ⟨27, by decide, readHead_wide (hfirst (by decide)) (by simp) (by omega) rest⟩

/-! ## Items -/

section Items

variable {fuel depth : Nat} {afterTag : Bool} {s rest : Bytes}

theorem readItem_primitive {info n : Nat} {i : Item}
    (hhead : readHead s = some (⟨7, info, n⟩, rest))
    (hprimitive : primitive ⟨7, info, n⟩ = some i) :
    readItem (fuel + 1) depth afterTag s = some (i, rest) := by
  simp only [readItem, hhead, hprimitive, Option.map_some]

/-- A float is read bit by bit, and of NaNs the one. -/
theorem readItem_encodeFloat (d : Double) (rest : Bytes) :
    readItem (fuel + 1) depth afterTag (encodeFloat d ++ rest) =
      some (.float d.quieted, rest) := by
  unfold encodeFloat
  split
  · rename_i bits hbits
    have hn : bits < 256 ^ 2 := Binary.Format.encode?_lt Binary.Format.proper_half hbits
    have hhead : readHead (0xF9 :: bigEndian 2 bits ++ rest) = some (⟨7, 25, bits⟩, rest) :=
      readHead_wide rfl (by simp) hn rest
    rw [readItem_primitive hhead rfl, Double.widen_of_narrow? Binary.Format.proper_half hbits]
  split
  · rename_i bits hbits
    have hn : bits < 256 ^ 4 := Binary.Format.encode?_lt Binary.Format.proper_single hbits
    have hhead : readHead (0xFA :: bigEndian 4 bits ++ rest) = some (⟨7, 26, bits⟩, rest) :=
      readHead_wide rfl (by simp) hn rest
    rw [readItem_primitive hhead rfl, Double.widen_of_narrow? Binary.Format.proper_single hbits]
  · rename_i hhalf _ _
    have hhead : readHead (0xFB :: bigEndian 8 d.bits.toNat ++ rest) =
        some (⟨7, 27, d.bits.toNat⟩, rest) :=
      readHead_wide rfl (by simp) d.bits.toNat_lt rest
    rw [readItem_primitive hhead rfl, Double.quieted_of_narrow?_half hhalf]
    simp [Double.ofBits]

end Items

/-- All NaNs are written alike. -/
theorem encodeFloat_quieted (d : Double) : encodeFloat d.quieted = encodeFloat d := by
  by_cases h : d.isNaN
  · have hquiet : d.quieted = .nan := if_pos h
    have hnan : Double.nan.isNaN = true := by decide +kernel
    rw [hquiet, encodeFloat, encodeFloat, Double.narrow?_half_of_isNaN h,
      Double.narrow?_half_of_isNaN hnan]
  · have hsame : d.quieted = d := if_neg h
    rw [hsame]

/-- The item is read back from its encoding when `depth` levels may be nested. -/
inductive Readable : Nat → Item → Prop where
  | unsigned {depth n : Nat} (h : n < 18446744073709551616) : Readable depth (.unsigned n)
  | negative {depth n : Nat} (h : n < 18446744073709551616) : Readable depth (.negative n)
  | bytes {depth : Nat} {data : Bytes} (h : data.length < 18446744073709551616) :
    Readable depth (.bytes data)
  | text {depth : Nat} {s : Bytes} (h : s.length < 18446744073709551616) :
    Readable depth (.text [s])
  | array {depth : Nat} {items : List Item} (hlength : items.length ≤ maxElements)
    (hitems : ∀ i ∈ items, Readable depth i) : Readable (depth + 1) (.array items)
  | map {depth : Nat} {pairs : List (Item × Item)} (hlength : pairs.length ≤ maxElements)
    (hkeys : ∀ p ∈ pairs, Readable depth p.1) (hvalues : ∀ p ∈ pairs, Readable depth p.2) :
    Readable (depth + 1) (.map pairs)
  | null {depth : Nat} : Readable depth .null
  | float {depth : Nat} {d : Double} (h : d.quieted = d) : Readable depth (.float d)

theorem repeated_encodeAll {read : Bytes → Option (Item × Bytes)} {items : List Item}
    (h : ∀ i ∈ items, ∀ rest, read (i.encode ++ rest) = some (i, rest)) (rest : Bytes) :
    repeated read items.length (encodeAll items ++ rest) = some (items, rest) := by
  induction items with
  | nil => rfl
  | cons i items ih =>
    obtain ⟨hi, hitems⟩ := List.forall_mem_cons.1 h
    rw [List.length_cons, encodeAll, List.append_assoc, repeated, hi]
    simp only [ih hitems, Option.map_some]

theorem repeated_encodePairs {read : Bytes → Option (Item × Bytes)} {pairs : List (Item × Item)}
    (hkeys : ∀ p ∈ pairs, ∀ rest, read (p.1.encode ++ rest) = some (p.1, rest))
    (hvalues : ∀ p ∈ pairs, ∀ rest, read (p.2.encode ++ rest) = some (p.2, rest)) (rest : Bytes) :
    repeated (pair read) pairs.length (encodePairs pairs ++ rest) = some (pairs, rest) := by
  induction pairs with
  | nil => rfl
  | cons p pairs ih =>
    obtain ⟨hkey, hkeys⟩ := List.forall_mem_cons.1 hkeys
    obtain ⟨hvalue, hvalues⟩ := List.forall_mem_cons.1 hvalues
    have hpair : pair read (encodePair p ++ (encodePairs pairs ++ rest)) =
        some (p, encodePairs pairs ++ rest) := by
      rw [encodePair, List.append_assoc, pair, hkey]
      simp only [Option.bind_eq_bind, Option.bind_some, hvalue]
      rfl
    rw [List.length_cons, encodePairs, List.append_assoc, repeated, hpair]
    simp only [ih hkeys hvalues, Option.map_some]

/-- Reading undoes writing, whatever follows. The induction is on the nesting. -/
theorem Readable.readItem_encode {depth : Nat} {i : Item} (h : Readable depth i) {fuel : Nat}
    (hfuel : depth ≤ fuel) (rest : Bytes) :
    readItem (fuel + 1) depth false (i.encode ++ rest) = some (i, rest) := by
  induction h generalizing fuel rest with
  | unsigned hn =>
    obtain ⟨info, hinfo, hhead⟩ := readHead_head (by decide : 0 < 8) hn rest
    simp only [Item.encode, readItem, hhead, if_neg hinfo]
  | negative hn =>
    obtain ⟨info, hinfo, hhead⟩ := readHead_head (by decide : 1 < 8) hn rest
    simp only [Item.encode, readItem, hhead, if_neg hinfo]
  | @bytes _ data hlength =>
    obtain ⟨info, hinfo, hhead⟩ := readHead_head (by decide : 2 < 8) hlength (data ++ rest)
    simp only [Item.encode, List.append_assoc, readItem, hhead, chunks, if_neg hinfo,
      split?_append, Option.map_some, List.flatten_singleton]
  | @text _ s hlength =>
    obtain ⟨info, hinfo, hhead⟩ := readHead_head (by decide : 3 < 8) hlength (s ++ rest)
    simp only [Item.encode, List.flatten_singleton, List.append_assoc, readItem, hhead, chunks,
      if_neg hinfo, split?_append, Option.map_some]
  | @array depth items hlength _ ih =>
    obtain ⟨fuel, rfl⟩ := Nat.exists_eq_add_one_of_ne_zero (Nat.ne_zero_of_lt hfuel)
    have hn : items.length < 18446744073709551616 := Nat.lt_of_le_of_lt hlength (by decide)
    have hitems := repeated_encodeAll (fun i hi => ih i hi (Nat.le_of_succ_le_succ hfuel)) rest
    obtain ⟨info, hinfo, hhead⟩ := readHead_head (by decide : 4 < 8) hn (encodeAll items ++ rest)
    rw [Item.encode, List.append_assoc, readItem]
    simp only [hhead, elements, if_neg hinfo, if_neg (Nat.not_lt.2 hlength), hitems,
      Option.map_some]
  | @map depth pairs hlength _ _ ihkeys ihvalues =>
    obtain ⟨fuel, rfl⟩ := Nat.exists_eq_add_one_of_ne_zero (Nat.ne_zero_of_lt hfuel)
    have hn : pairs.length < 18446744073709551616 := Nat.lt_of_le_of_lt hlength (by decide)
    have hdepth := Nat.le_of_succ_le_succ hfuel
    have hpairs := repeated_encodePairs (fun p hp => ihkeys p hp hdepth)
      (fun p hp => ihvalues p hp hdepth) rest
    obtain ⟨info, hinfo, hhead⟩ := readHead_head (by decide : 5 < 8) hn (encodePairs pairs ++ rest)
    rw [Item.encode, List.append_assoc, readItem]
    simp only [hhead, Cbor.pairs, if_neg hinfo, if_neg (Nat.not_lt.2 hlength), hpairs,
      Option.map_some]
  | null => exact readItem_primitive (readHead_short (b := 0xF6) rfl (by decide : 22 < 24) rest) rfl
  | @float _ d hd => rw [Item.encode, readItem_encodeFloat, hd]

/-- What fits is read back as a whole. -/
theorem decode_encode {i : Item} (h : Readable maxDepth i) : decode i.encode = some i := by
  have hread := h.readItem_encode (by decide : maxDepth ≤ 2 * maxDepth + 1) []
  rw [List.append_nil] at hread
  rw [decode, hread]

end MiniJvm.Cbor
