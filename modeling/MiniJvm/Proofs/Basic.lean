import Mathlib
import MiniJvm.Text.Bytes
import MiniJvm.Text.Utf8

/-!
# Failing steps and byte strings

How a result comes of two steps, one after the other. A step with a state keeps it when it fails.

Byte order is a linear order, so sorting puts different byte strings into the one order in which
each comes before the next. Numbers of a fixed width are read back from their bytes.
-/

namespace MiniJvm

/-! ## Steps that may fail -/

section Steps

variable {ε σ α β : Type}

theorem bind_eq_ok {x : Except ε α} {k : α → Except ε β} {b : β} :
    (x >>= k) = .ok b ↔ ∃ a, x = .ok a ∧ k a = .ok b := by
  cases x <;> simp [bind, Except.bind]

theorem bind_eq_error {x : Except ε α} {k : α → Except ε β} {e : ε} :
    (x >>= k) = .error e ↔ x = .error e ∨ ∃ a, x = .ok a ∧ k a = .error e := by
  cases x <;> simp [bind, Except.bind]

theorem eq_ok_of_mem_toOption {x : Except ε α} {a : α} (h : a ∈ x.toOption) : x = .ok a := by
  cases x with
  | error e => cases h
  | ok b =>
    cases h
    rfl

theorem bind_apply (x : ExceptT ε (StateM σ) α) (k : α → ExceptT ε (StateM σ) β) (s : σ) :
    (x >>= k) s = match x s with
      | (.ok a, t) => k a t
      | (.error why, t) => (.error why, t) := by
  change StateT.bind x (ExceptT.bindCont k) s = _
  unfold StateT.bind
  rcases x s with ⟨_ | a, t⟩ <;> rfl

end Steps

namespace Bytes

/-! ## Order -/

theorem le_cons {x y : UInt8} {a b : Bytes} :
    le (x :: a) (y :: b) = true ↔ x < y ∨ x = y ∧ le a b = true := by
  simp [le]

theorem le_total (a b : Bytes) : le a b = true ∨ le b a = true := by
  induction a generalizing b with
  | nil => exact .inl rfl
  | cons x a ih =>
    cases b with
    | nil => exact .inr rfl
    | cons y b =>
      rw [le_cons, le_cons]
      rcases Nat.lt_trichotomy x.toNat y.toNat with h | h | h
      · exact .inl (.inl h)
      · cases UInt8.toNat_inj.1 h
        exact (ih b).imp (fun h => .inr ⟨rfl, h⟩) fun h => .inr ⟨rfl, h⟩
      · exact .inr (.inl h)

theorem le_trans {a b c : Bytes} (hab : le a b = true) (hbc : le b c = true) :
    le a c = true := by
  induction a generalizing b c with
  | nil => rfl
  | cons x a ih =>
    cases b with
    | nil => cases hab
    | cons y b =>
      cases c with
      | nil => cases hbc
      | cons z c =>
        rw [le_cons] at hab hbc ⊢
        rcases hab with hxy | ⟨rfl, hab⟩
        · rcases hbc with hyz | ⟨rfl, -⟩
          · exact .inl (UInt8.lt_trans hxy hyz)
          · exact .inl hxy
        · exact hbc.imp_right fun ⟨hyz, hbc⟩ => ⟨hyz, ih hab hbc⟩

theorem le_antisymm {a b : Bytes} (hab : le a b = true) (hba : le b a = true) : a = b := by
  induction a generalizing b with
  | nil =>
    cases b with
    | nil => rfl
    | cons y b => cases hba
  | cons x a ih =>
    cases b with
    | nil => cases hab
    | cons y b =>
      rw [le_cons] at hab hba
      rcases hab with hxy | ⟨rfl, hab⟩
      · rcases hba with hyx | ⟨rfl, -⟩
        · exact absurd hxy (UInt8.not_lt.2 (UInt8.le_of_lt hyx))
        · exact absurd hxy (UInt8.lt_irrefl _)
      · rcases hba with hxx | ⟨-, hba⟩
        · exact absurd hxx (UInt8.lt_irrefl _)
        · rw [ih hab hba]

def Before (a b : Bytes) : Prop := le a b = true ∧ a ≠ b

theorem mem_sort {xs : List Bytes} {a : Bytes} : a ∈ sort xs ↔ a ∈ xs :=
  (List.mergeSort_perm xs le).mem_iff

theorem sort_sorted (xs : List Bytes) : (sort xs).Pairwise fun a b => le a b = true :=
  @List.pairwise_mergeSort _ le (fun _ _ _ => le_trans)
    (fun a b => (Bool.or_eq_true ..).mpr (le_total a b)) xs

theorem sort_increasing {xs : List Bytes} (h : xs.Nodup) : (sort xs).Pairwise Before := by
  have hnodup : (sort xs).Nodup := (List.mergeSort_perm xs le).nodup_iff.2 h
  exact (sort_sorted xs).and hnodup

theorem nodup_eraseDups (xs : List Bytes) : xs.eraseDups.Nodup := by
  cases xs with
  | nil => exact List.nodup_nil
  | cons a rest =>
    rw [List.eraseDups_cons, List.nodup_cons, List.mem_eraseDups]
    exact ⟨by simp, nodup_eraseDups _⟩
termination_by xs.length
decreasing_by exact Nat.lt_succ_of_le (List.length_filter_le ..)

/-! ## Numbers of a fixed width -/

theorem split?_eq (n : Nat) (s : Bytes) :
    split? n s = if n ≤ s.length then some (s.take n, s.drop n) else none := by
  induction n generalizing s with
  | zero => rfl
  | succ n ih =>
    cases s with
    | nil => rfl
    | cons b s =>
      rw [split?, ih]
      by_cases hle : n ≤ s.length
      · rw [if_pos hle, if_pos (by simpa using hle)]
        rfl
      · rw [if_neg hle, if_neg (by simpa using hle)]
        rfl

theorem split?_append (front rest : Bytes) :
    split? front.length (front ++ rest) = some (front, rest) := by
  rw [split?_eq, if_pos (by simp), List.take_left, List.drop_left]

/-- What is split off. -/
theorem of_split? {n : Nat} {s front rest : Bytes} (h : split? n s = some (front, rest)) :
    front.length = n ∧ front = s.take n ∧ rest = s.drop n := by
  rw [split?_eq] at h
  split at h
  · rename_i hle
    cases h
    exact ⟨List.length_take_of_le hle, rfl, rfl⟩
  · cases h

theorem length_bigEndian (count n : Nat) : (bigEndian count n).length = count := by
  induction count generalizing n with
  | zero => rfl
  | succ count ih => rw [bigEndian, List.length_append, ih, List.length_singleton]

theorem number_append (front : Bytes) (b : UInt8) :
    number (front ++ [b]) = number front * 256 + b.toNat := by
  rw [number, List.foldl_append]
  rfl

theorem number_lt (s : Bytes) : number s < 256 ^ s.length := by
  induction s using List.reverseRecOn with
  | nil => exact Nat.one_pos
  | append_singleton s b ih =>
    have hb := b.toNat_lt
    rw [number_append, List.length_append, Nat.pow_add]
    change number s * 256 + b.toNat < 256 ^ s.length * 256
    omega

theorem number_bigEndian {count n : Nat} (h : n < 256 ^ count) :
    number (bigEndian count n) = n := by
  induction count generalizing n with
  | zero => exact (Nat.lt_one_iff.1 h).symm
  | succ count ih =>
    rw [Nat.pow_succ] at h
    have hbyte : (n % 256).toUInt8.toNat = n % 256 := by
      rw [UInt8.toNat_ofNat']
      omega
    rw [bigEndian, number_append, ih (by omega), hbyte]
    omega

theorem split?_bigEndian (count n : Nat) (rest : Bytes) :
    split? count (bigEndian count n ++ rest) = some (bigEndian count n, rest) := by
  have h := split?_append (bigEndian count n) rest
  rwa [length_bigEndian] at h

end Bytes

end MiniJvm

/-! ## Well-formed texts

A character is read from its own bytes alone, so well-formed texts one after another are
well formed, and so is every text of ASCII characters. -/

namespace MiniJvm.Utf8

/-- A character needs no more than its own bytes. -/
theorem char?_append {a : UInt8} {rest : Bytes} {code n : Nat} (h : char? a rest = some (code, n))
    (more : Bytes) : n ≤ rest.length ∧ char? a (rest ++ more) = some (code, n) := by
  unfold char? at h ⊢
  split_ifs at h ⊢ with _ _ h2 h3 h4
  · cases h
    exact ⟨Nat.zero_le _, rfl⟩
  · match rest, h with
    | b :: rest, h =>
      obtain ⟨hb, hn⟩ := Option.ite_none_right_eq_some.1 h
      obtain ⟨rfl, rfl⟩ := Prod.mk.inj (Option.some.inj hn)
      exact ⟨Nat.le_add_left _ _, if_pos hb⟩
  · match rest, h with
    | b :: c :: rest, h =>
      obtain ⟨hb, hn⟩ := Option.ite_none_right_eq_some.1 h
      obtain ⟨rfl, rfl⟩ := Prod.mk.inj (Option.some.inj hn)
      exact ⟨Nat.le_add_left _ _, if_pos hb⟩
  · match rest, h with
    | b :: c :: d :: rest, h =>
      obtain ⟨hb, hn⟩ := Option.ite_none_right_eq_some.1 h
      obtain ⟨rfl, rfl⟩ := Prod.mk.inj (Option.some.inj hn)
      exact ⟨Nat.le_add_left _ _, if_pos hb⟩

theorem validAfter_append {skip : Nat} {s t : Bytes} (hskip : skip ≤ s.length)
    (hs : validAfter skip s = true) (ht : valid t = true) : validAfter skip (s ++ t) = true := by
  induction s generalizing skip with
  | nil =>
    rw [Nat.le_zero.1 hskip]
    exact ht
  | cons a rest ih =>
    cases skip with
    | succ skip => exact ih (Nat.le_of_succ_le_succ hskip) hs
    | zero =>
      rw [validAfter] at hs
      rw [List.cons_append, validAfter]
      cases hchar : char? a rest with
      | none =>
        rw [hchar] at hs
        cases hs
      | some found =>
        obtain ⟨hlength, hmore⟩ := char?_append hchar t
        rw [hchar] at hs
        rw [hmore]
        exact ih hlength hs

theorem low_secondLow (a : UInt8) : 0x80 ≤ secondLow a := by
  unfold secondLow
  split_ifs <;> decide

/-- A character is its first byte and bytes outside ASCII, and what follows does not matter. -/
theorem char?_own {a : UInt8} {rest : Bytes} {code n : Nat} (h : char? a rest = some (code, n)) :
    ∃ own more, rest = own ++ more ∧ own.length = n ∧ char? a own = some (code, n) ∧
      (∀ b ∈ own, 0x80 ≤ b) ∧ (a < 0x80 → own = []) := by
  unfold char? at h ⊢
  split_ifs at h ⊢ with h1 _ h2 h3 h4
  · cases h
    exact ⟨[], rest, rfl, rfl, rfl, nofun, fun _ => rfl⟩
  · match rest, h with
    | b :: rest, h =>
      obtain ⟨hb, hn⟩ := Option.ite_none_right_eq_some.1 h
      obtain ⟨rfl, rfl⟩ := Prod.mk.inj (Option.some.inj hn)
      refine ⟨[b], rest, rfl, rfl, if_pos hb, ?_, fun ha => absurd ha h1⟩
      simp_all [isTail]
  · match rest, h with
    | b :: c :: rest, h =>
      obtain ⟨hb, hn⟩ := Option.ite_none_right_eq_some.1 h
      obtain ⟨rfl, rfl⟩ := Prod.mk.inj (Option.some.inj hn)
      refine ⟨[b, c], rest, rfl, rfl, if_pos hb, ?_, fun ha => absurd ha h1⟩
      have hlow := low_secondLow a
      simp only [Bool.and_eq_true, decide_eq_true_eq, isTail] at hb
      simp only [List.forall_mem_cons, List.not_mem_nil, false_imp_iff, implies_true, and_true]
      exact ⟨UInt8.le_trans hlow hb.1.1, hb.2.1⟩
  · match rest, h with
    | b :: c :: d :: rest, h =>
      obtain ⟨hb, hn⟩ := Option.ite_none_right_eq_some.1 h
      obtain ⟨rfl, rfl⟩ := Prod.mk.inj (Option.some.inj hn)
      refine ⟨[b, c, d], rest, rfl, rfl, if_pos hb, ?_, fun ha => absurd ha h1⟩
      have hlow := low_secondLow a
      simp only [Bool.and_eq_true, decide_eq_true_eq, isTail] at hb
      simp only [List.forall_mem_cons, List.not_mem_nil, false_imp_iff, implies_true, and_true]
      exact ⟨UInt8.le_trans hlow hb.1.1.1, hb.1.2.1, hb.2.1⟩

theorem validAfter_length (own more : Bytes) :
    validAfter own.length (own ++ more) = valid more := by
  induction own with
  | nil => rfl
  | cons b own ih => exact ih

/-- The first character of a well-formed text, and the rest of it. -/
theorem valid_cons {a : UInt8} {rest : Bytes} (h : valid (a :: rest) = true) :
    ∃ own more, rest = own ++ more ∧ valid (a :: own) = true ∧ valid more = true ∧
      (∀ b ∈ own, 0x80 ≤ b) ∧ (a < 0x80 → own = []) := by
  rw [valid, validAfter] at h
  cases hchar : char? a rest with
  | none =>
    rw [hchar] at h
    cases h
  | some found =>
    obtain ⟨own, more, rfl, hlength, hown, htails, hascii⟩ := char?_own hchar
    rw [hchar] at h
    dsimp only at h
    rw [← hlength, validAfter_length] at h
    refine ⟨own, more, rfl, ?_, h, htails, hascii⟩
    have hself := validAfter_length own []
    rw [List.append_nil, hlength] at hself
    rw [valid, validAfter, hown]
    exact hself

theorem valid_append {s t : Bytes} (hs : valid s = true) (ht : valid t = true) :
    valid (s ++ t) = true :=
  validAfter_append (Nat.zero_le _) hs ht

theorem valid_of_ascii {s : Bytes} (h : ∀ b ∈ s, b < 0x80) : valid s = true := by
  induction s with
  | nil => rfl
  | cons b rest ih =>
    obtain ⟨hb, hrest⟩ := List.forall_mem_cons.1 h
    have hchar : char? b rest = some (b.toNat, 0) := if_pos hb
    rw [valid, validAfter, hchar]
    exact ih hrest

end MiniJvm.Utf8
