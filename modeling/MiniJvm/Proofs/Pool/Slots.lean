import Mathlib
import MiniJvm.Code.Instruction
import MiniJvm.Pool.Basic
import MiniJvm.Proofs.Machine.Step
import MiniJvm.Proofs.Pool.Meaning

/-!
# Slots and indices

A pool may have any number of slots and the operand of a call has 32 bits, but an index has 16. A
running frame, a listing and the dump of a pool all look up the slot that the lowest 16 bits name
(`lookup_indexed`). So a number of 16 bits stands for the slot of that number, and any other number
for a slot that it does not name.
-/

namespace MiniJvm.Pool

/-- The slot that a number leads to when it is used as an index. -/
def indexed (n : Int) : Int := n % 65536

/-- The text of an entry, wherever it stands. -/
inductive Spells (p : Pool) (e : Entry) : Bytes → Prop where
  | utf8 : e.tag? = some .utf8 → Spells p e e.text
  | reference {text : Bytes} : e.IsReference → p.Denotes e.index1 text → Spells p e text
  | nameAndType {name descriptor : Bytes} : e.tag? = some .nameAndType →
      p.Denotes e.index1 name → p.Denotes e.index2 descriptor →
      Spells p e (name ++ ":" ++ descriptor)
  | member {owner nameAndType : Bytes} : e.IsMember → p.Denotes e.index1 owner →
      p.Denotes e.index2 nameAndType → Spells p e (owner ++ "." ++ nameAndType)

/-- The text of the entry in a slot, in a pool with any number of slots. Slot 0 has none. -/
def SlotText (p : Pool) (slot : Int) (text : Bytes) : Prop :=
  1 ≤ slot ∧ ∃ e, p.entries[slot.toNat]? = some e ∧ p.Spells e text

/-- What is shown for a slot: a plain text, with a note of the text of the slot if it has one. -/
def Shows (p : Pool) (slot : Int) (plain : Bytes) (noted : Bytes → Bytes) (shown : Bytes) : Prop :=
  (∃ text, p.SlotText slot text ∧ shown = noted text) ∨
    (¬∃ text, p.SlotText slot text) ∧ shown = plain

variable {p : Pool} {index : UInt16} {text : Bytes}

/-! ## Texts of slots -/

theorem denotes_iff_spells : p.Denotes index text ↔ ∃ e, p.Holds index e ∧ p.Spells e text := by
  constructor
  · intro h
    cases h with
    | utf8 hslot htag => exact ⟨_, hslot, .utf8 htag⟩
    | reference hslot hkind htext => exact ⟨_, hslot, .reference hkind htext⟩
    | nameAndType hslot htag hname hdescriptor =>
      exact ⟨_, hslot, .nameAndType htag hname hdescriptor⟩
    | member hslot hkind howner hnameAndType =>
      exact ⟨_, hslot, .member hkind howner hnameAndType⟩
  · rintro ⟨e, hslot, h⟩
    cases h with
    | utf8 htag => exact .utf8 hslot htag
    | reference hkind htext => exact .reference hslot hkind htext
    | nameAndType htag hname hdescriptor => exact .nameAndType hslot htag hname hdescriptor
    | member hkind howner hnameAndType => exact .member hslot hkind howner hnameAndType

theorem resolve_ok_iff : p.resolve index = .ok text ↔ p.Denotes index text := by
  refine ⟨denotes_of_resolveWithin, fun h => ?_⟩
  cases hresolve : p.resolve index with
  | ok found => rw [(denotes_of_resolveWithin hresolve).unique h]
  | error err => exact absurd h (explains_of_resolve hresolve).not_denotes

theorem resolve_iff_slotText : p.resolve index = .ok text ↔ p.SlotText index.toNat text := by
  rw [resolve_ok_iff, denotes_iff_spells, SlotText, Int.toNat_natCast, Nat.one_le_cast,
    ← ne_zero_iff]
  simp only [Holds, and_assoc, exists_and_left]

theorem SlotText.in_range {slot : Int} (h : p.SlotText slot text) : 1 ≤ slot ∧ slot < p.size := by
  obtain ⟨hpos, e, he, -⟩ := h
  have hlt : slot.toNat < p.size := (Array.getElem?_eq_some_iff.1 he).1
  exact ⟨hpos, by omega⟩

/-- Nothing is found outside the pool. -/
theorem resolve_outside (h : ¬(1 ≤ (index.toNat : Int) ∧ (index.toNat : Int) < p.size)) :
    p.resolve index = .error (.outOfRange index) := by
  cases hentry : p.entry index with
  | ok e => exact absurd (exists_entry_iff.1 ⟨e, hentry⟩) (by omega)
  | error err => rw [resolve, resolveWithin.eq_def, hentry, (entry_error hentry).1]

/-- What is found for an index is shown for its slot. -/
theorem shows_resolve (p : Pool) (index : UInt16) (plain : Bytes) (noted : Bytes → Bytes) :
    p.Shows index.toNat plain noted
      (match p.resolve index with | .ok text => noted text | .error _ => plain) := by
  cases hresolve : p.resolve index with
  | ok text => exact .inl ⟨text, resolve_iff_slotText.1 hresolve, rfl⟩
  | error err =>
    refine .inr ⟨fun ⟨text, h⟩ => ?_, rfl⟩
    rw [resolve_iff_slotText.2 h] at hresolve
    cases hresolve

/-! ## Indices -/

theorem indexed_eq_iff {n : Int} : indexed n = n ↔ 0 ≤ n ∧ n < 65536 := by
  unfold indexed
  omega

theorem toNat_poolIndex (i : Instruction) : (i.poolIndex.toNat : Int) = indexed i.a.toInt := by
  have hbits : i.a.toUInt32.toNat = i.a.toBitVec.toNat := rfl
  have hint : i.a.toInt = i.a.toBitVec.toInt := rfl
  rw [Instruction.poolIndex, UInt32.toNat_toUInt16, hbits, hint, BitVec.toInt_eq_toNat_cond,
    indexed]
  split <;> omega

theorem toNat_toUInt16 (n : Nat) : (n.toUInt16.toNat : Int) = indexed n := by
  rw [Nat.toUInt16_eq, UInt16.toNat_ofNat', indexed]
  rfl

/-! ## Listings and dumps -/

/-- The line of a constant without a note. -/
def plainLine (slot : Nat) (e : Entry) : Bytes :=
  Utf8.padLeft 5 (mark slot) ++ " = " ++ Utf8.padRight 18 e.tagName ++ " " ++ operands e

/-- The line of a listing for a call at place `at_`: it notes the text of the slot that the operand
leads to. -/
def CallLine (p : Pool) (at_ : Nat) (i : Instruction) (line : Bytes) : Prop :=
  ∃ mark shown, line = mark ++ Bytes.zeroPad 4 (Bytes.ofNat at_) ++ "  " ++ shown ++ "\n" ∧
    p.Shows (indexed i.a.toInt) i.text
      (fun text => Utf8.padRight 24 i.text ++ " ; " ++ text) shown

/-- The line of a dump for a constant that is no text itself: it notes the text of the slot that
the number of its slot leads to. -/
def ConstantLine (p : Pool) (slot : Nat) (e : Entry) (line : Bytes) : Prop :=
  ∃ shown, line = Bytes.trimRight (· == 32) shown ++ "\n" ∧
    p.Shows (indexed slot) (plainLine slot e)
      (fun text => Utf8.padRight 44 (plainLine slot e) ++ " // " ++ text) shown

theorem listing_lines {l : Code.Listing} (hpool : l.pool = some p) :
    ∃ (head : Bytes) (lines : List Bytes), l.text = head ++ lines.flatten ∧
      lines.length = l.code.length ∧
      ∀ k i, l.code[k]? = some i → i.op.isInvoke = true →
        ∃ line ∈ lines[k]?, p.CallLine k i line := by
  rw [Code.Listing.text]
  simp only [List.flatMap_def]
  refine ⟨_, _, rfl, by rw [List.length_map, List.length_zipIdx], fun k i hi hcall => ?_⟩
  rw [List.getElem?_map, List.getElem?_zipIdx, hi, Nat.zero_add]
  refine ⟨_, rfl, _, l.instructionText i, rfl, ?_⟩
  rw [Code.Listing.instructionText, hpool]
  dsimp only
  rw [if_pos hcall, ← toNat_poolIndex]
  exact shows_resolve ..

theorem constantLine_dumpLine (p : Pool) (slot : Nat) {e : Entry} (h : e.tag? ≠ some .utf8) :
    p.ConstantLine slot e (p.dumpLine slot e) := by
  refine ⟨_, ?_, toNat_toUInt16 slot ▸ shows_resolve p slot.toUInt16 ..⟩
  rw [dumpLine, if_neg h]
  rfl

theorem dump_lines (p : Pool) :
    ∃ lines : List Bytes, p.dump = lines.flatten ∧ lines.length = p.size ∧
      ∀ (k : Nat) e, 1 ≤ k → p.entries[k]? = some e → e.tag? ≠ some .placeholder →
        e.tag? ≠ some .utf8 → ∃ line ∈ lines[k]?, p.ConstantLine k e line := by
  refine ⟨_, List.flatMap_def, by rw [List.length_map, List.length_zipIdx]; rfl,
    fun k e hk he hplaceholder hutf8 => ⟨_, ?_, p.constantLine_dumpLine k hutf8⟩⟩
  have hne : k ≠ 0 := Nat.ne_of_gt hk
  rw [List.getElem?_map, List.getElem?_zipIdx, Array.getElem?_toList, he, Nat.zero_add]
  simp [hne, hplaceholder]

/-- Constants are looked up by the lowest 16 bits of a number. A frame wants a method called only
if it is the text of the slot that the operand of its call leads to, and it fails if the operand
leads out of the pool. A listing notes that text for a call, and a dump notes for a slot the text
of the slot that its number leads to. A number leads to its own slot exactly when it has 16
bits. -/
theorem lookup_indexed (p : Pool) :
    (∀ n, indexed n = n ↔ 0 ≤ n ∧ n < 65536) ∧
    (∀ (f g : Frame) fuel signature special, f.pool = some p →
      Frame.run fuel f = (.ok (some (.invoke signature special)), g) →
        ∃ i, g.Behind i p ∧ p.SlotText (indexed i.a.toInt) signature ∧
          1 ≤ indexed i.a.toInt ∧ indexed i.a.toInt < p.size) ∧
    (∀ (f : Frame) i fuel, f.pool = some p → f.next? = some i → i.op.isInvoke = true →
      (∀ text, p.SlotText (indexed i.a.toInt) text → Frame.run (fuel + 1) f =
        (.ok (some (.invoke text (decide (i.op = Mnemonic.invokespecial.opcode)))), f.advance)) ∧
      (¬(1 ≤ indexed i.a.toInt ∧ indexed i.a.toInt < p.size) → Frame.run (fuel + 1) f =
        (.error (.fault (.constant f.method.signature f.pc i.op (.outOfRange i.poolIndex))),
          f.advance))) ∧
    (∀ l : Code.Listing, l.pool = some p →
      ∃ (head : Bytes) (lines : List Bytes), l.text = head ++ lines.flatten ∧
        lines.length = l.code.length ∧
        ∀ k i, l.code[k]? = some i → i.op.isInvoke = true →
          ∃ line ∈ lines[k]?, p.CallLine k i line) ∧
    ∃ lines : List Bytes, p.dump = lines.flatten ∧ lines.length = p.size ∧
      ∀ (k : Nat) e, 1 ≤ k → p.entries[k]? = some e → e.tag? ≠ some .placeholder →
        e.tag? ≠ some .utf8 → ∃ line ∈ lines[k]?, p.ConstantLine k e line := by
  refine ⟨fun n => indexed_eq_iff, fun f g fuel signature special hpool hrun => ?_,
    fun f i fuel hpool hi hcall => ⟨fun text htext => ?_, fun hout => ?_⟩,
    fun l hpool => listing_lines hpool, dump_lines p⟩
  · obtain ⟨i, hbehind, hresolve⟩ := Frame.behind_of_run hpool hrun
    have htext := resolve_iff_slotText.1 hresolve
    rw [toNat_poolIndex] at htext
    exact ⟨i, hbehind, htext, htext.in_range⟩
  · rw [← toNat_poolIndex] at htext
    rw [Frame.run_call hpool hi hcall, resolve_iff_slotText.2 htext]
  · rw [← toNat_poolIndex] at hout
    rw [Frame.run_call hpool hi hcall, resolve_outside hout]

/-- Slot 1 names a method, and there are no other slots. -/
def single : Pool := ⟨#[.placeholder, .utf8 "A.f:()V"]⟩

/-- A frame that is about to call the method with this number. -/
def calling (operand : Int32) : Frame :=
  { method :=
      { stamp := 0, owner := "A", name := "main", descriptor := "()V", maxStack := 0,
        maxLocals := 0, argSlots := 0, void := true,
        code := #[⟨Mnemonic.invokestatic.opcode, operand, 0⟩] }
    pool := some single, pc := 0, locals := #[], stack := #[], current := 0, executed := 0 }

theorem lookup_indexed_single :
    Frame.run 1 (calling 1) = (.ok (some (.invoke "A.f:()V" false)), (calling 1).advance) ∧
      Frame.run 1 (calling 2) = (.error (.fault (.constant "A.main:()V" 0
        Mnemonic.invokestatic.opcode (.outOfRange 2))), (calling 2).advance) ∧
      ∃ i, (calling 1).advance.Behind i single ∧ single.SlotText (indexed i.a.toInt) "A.f:()V" := by
  obtain ⟨-, hemits, hruns, -, -⟩ := lookup_indexed single
  have hutf8 : single.SlotText 1 "A.f:()V" := ⟨le_refl 1, _, rfl, .utf8 rfl⟩
  have hrun := (hruns (calling 1) _ 0 rfl rfl rfl).1 "A.f:()V" hutf8
  obtain ⟨i, hbehind, htext, -⟩ := hemits _ _ 1 "A.f:()V" false rfl hrun
  exact ⟨hrun, (hruns (calling 2) _ 0 rfl rfl rfl).2 (by decide), i, hbehind, htext⟩

/-- A call with a number far outside the pool is taken for a call of the method in slot 1. -/
theorem call_aliased :
    ∃ i ∈ (calling 65537).next?, i.op.isInvoke = true ∧ i.a.toInt = 65537 ∧ single.size = 2 ∧
      (Frame.run 1 (calling 65537)).1 = .ok (some (.invoke "A.f:()V" false)) := by
  decide +kernel

end MiniJvm.Pool
