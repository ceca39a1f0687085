import Mathlib
import MiniJvm.Proofs.Assembly.Generate

/-!
# Labels

The position of a body line is the number of instructions before it, whether the line has one
itself, only a label, or both. The first pass over a body finds each label at the position of its
line, and reports one that stands twice (`findLabels_spec`). Where it reports nothing, each label
is declared once.
-/

namespace MiniJvm.Assembly

def BodyLine.hasInstruction (line : BodyLine) : Bool := !line.mnemonic.isEmpty

/-- The lines of a body that have an instruction. -/
def instructionLines (body : List BodyLine) : List BodyLine := body.filter BodyLine.hasInstruction

/-- The number of instructions before line `k` of a body. -/
def position (body : List BodyLine) (k : Nat) : Nat := (body.take k).countP BodyLine.hasInstruction

/-- The label is declared in line `k` of a body. -/
def LabelAt (body : List BodyLine) (label : Bytes) (k : Nat) : Prop :=
  label ≠ [] ∧ ∃ line, body[k]? = some line ∧ line.label = label

instance (body : List BodyLine) (label : Bytes) (k : Nat) : Decidable (LabelAt body label k) :=
  inferInstanceAs (Decidable (_ ∧ ∃ line ∈ body[k]?, line.label = label))

/-- No label is declared in two lines. -/
def LabelsOnce (body : List BodyLine) : Prop :=
  ∀ ⦃label j k⦄, LabelAt body label j → LabelAt body label k → j = k

section

variable {line : BodyLine} {rest body : List BodyLine} {label : Bytes} {k : Nat}

theorem position_zero (body : List BodyLine) : position body 0 = 0 := rfl

theorem position_succ (line : BodyLine) (rest : List BodyLine) (k : Nat) :
    position (line :: rest) (k + 1) = (if line.hasInstruction then 1 else 0) + position rest k := by
  rw [position, List.take_succ_cons, List.countP_cons, position, Nat.add_comm]

theorem labelAt_zero : LabelAt (line :: rest) label 0 ↔ label ≠ [] ∧ line.label = label := by
  simp [LabelAt]

theorem labelAt_succ : LabelAt (line :: rest) label (k + 1) ↔ LabelAt rest label k := by
  rw [LabelAt, LabelAt, List.getElem?_cons_succ]

theorem length_instructionLines (body : List BodyLine) :
    (instructionLines body).length = body.countP BodyLine.hasInstruction :=
  List.countP_eq_length_filter.symm

theorem position_le (body : List BodyLine) (k : Nat) :
    position body k ≤ (instructionLines body).length := by
  rw [length_instructionLines, position]
  exact (List.take_sublist k body).countP_le

/-- The instruction at the position of a line is the first one from that line on. -/
theorem getElem?_position (body : List BodyLine) (k : Nat) :
    (instructionLines body)[position body k]? = (body.drop k).find? BodyLine.hasInstruction := by
  have hsplit : instructionLines body =
      instructionLines (body.take k) ++ instructionLines (body.drop k) := by
    rw [instructionLines, instructionLines, instructionLines, ← List.filter_append,
      List.take_append_drop]
  rw [hsplit, position, ← length_instructionLines, List.getElem?_append_right (Nat.le_refl _),
    Nat.sub_self, ← List.head?_eq_getElem?, instructionLines, List.head?_filter]

/-- No instruction follows a line exactly when its position is the end of the code. -/
theorem position_eq_length_iff (body : List BodyLine) (k : Nat) :
    position body k = (instructionLines body).length ↔
      (body.drop k).find? BodyLine.hasInstruction = none := by
  have hle := position_le body k
  rw [← getElem?_position, List.getElem?_eq_none_iff]
  omega

end

/-! ## The first pass -/

/-- What the first pass finds in lines whose first one has instruction index `n`: their labels are
new, each stands once, and the others stay as they were. -/
structure Finds (n : Nat) (lines : List BodyLine) (before after : Labels) : Prop where
  found : ∀ {label k}, LabelAt lines label k →
    labelIndex? after label = some (n + position lines k)
  fresh : ∀ {label k}, LabelAt lines label k → labelIndex? before label = none
  once : LabelsOnce lines
  others : ∀ {label}, (∀ k, ¬LabelAt lines label k) →
    labelIndex? after label = labelIndex? before label

theorem labelIndex?_insert (labels : Labels) (label name : Bytes) (n : Nat) :
    labelIndex? (labels.insert label n) name =
      if label = name then some n else labelIndex? labels name := by
  simp [labelIndex?, Std.TreeMap.getElem?_insert]

section

variable {n : Nat} {line : BodyLine} {rest : List BodyLine} {before after : Labels}

/-- The index of the line after `line`. -/
theorem add_position_succ (n : Nat) (line : BodyLine) (rest : List BodyLine) (k : Nat) :
    n + position (line :: rest) (k + 1) =
      (if line.mnemonic.isEmpty then n else n + 1) + position rest k := by
  rw [position_succ, BodyLine.hasInstruction]
  cases line.mnemonic.isEmpty <;> simp [Nat.add_assoc]

theorem Finds.nil (n : Nat) (labels : Labels) : Finds n [] labels labels where
  found h := by obtain ⟨-, _, h, -⟩ := h; cases h
  fresh h := by obtain ⟨-, _, h, -⟩ := h; cases h
  once _ _ _ h := by obtain ⟨-, _, h, -⟩ := h; cases h
  others _ := rfl

theorem Finds.unlabelled (hempty : line.label = [])
    (h : Finds (if line.mnemonic.isEmpty then n else n + 1) rest before after) :
    Finds n (line :: rest) before after := by
  have hfirst : ∀ {label}, ¬LabelAt (line :: rest) label 0 := by
    intro label hlabel
    obtain ⟨hne, hlabel⟩ := labelAt_zero.1 hlabel
    exact hne (hlabel.symm.trans hempty)
  constructor
  case found =>
    intro label k hlabel
    cases k with
    | zero => exact absurd hlabel hfirst
    | succ k => rw [h.found (labelAt_succ.1 hlabel), add_position_succ]
  case fresh =>
    intro label k hlabel
    cases k with
    | zero => exact absurd hlabel hfirst
    | succ k => exact h.fresh (labelAt_succ.1 hlabel)
  case once =>
    intro label j k hj hk
    cases j with
    | zero => exact absurd hj hfirst
    | succ j =>
      cases k with
      | zero => exact absurd hk hfirst
      | succ k => rw [h.once (labelAt_succ.1 hj) (labelAt_succ.1 hk)]
  case others => exact fun hnone => h.others fun k hk => hnone (k + 1) (labelAt_succ.2 hk)

theorem Finds.labelled (hne : line.label ≠ []) (hnew : labelIndex? before line.label = none)
    (h : Finds (if line.mnemonic.isEmpty then n else n + 1) rest (before.insert line.label n)
      after) :
    Finds n (line :: rest) before after := by
  have hinsert := labelIndex?_insert before line.label
  have hdiffers : ∀ {label k}, LabelAt rest label k → line.label ≠ label := by
    rintro label k hlabel rfl
    have hfresh := h.fresh hlabel
    rw [hinsert, if_pos rfl] at hfresh
    cases hfresh
  constructor
  case found =>
    intro label k hlabel
    cases k with
    | zero =>
      obtain ⟨-, rfl⟩ := labelAt_zero.1 hlabel
      rw [h.others fun k hk => hdiffers hk rfl, hinsert, if_pos rfl, position_zero, Nat.add_zero]
    | succ k => rw [h.found (labelAt_succ.1 hlabel), add_position_succ]
  case fresh =>
    intro label k hlabel
    cases k with
    | zero =>
      obtain ⟨-, rfl⟩ := labelAt_zero.1 hlabel
      exact hnew
    | succ k =>
      have hlabel := labelAt_succ.1 hlabel
      have hfresh := h.fresh hlabel
      rwa [hinsert, if_neg (hdiffers hlabel)] at hfresh
  case once =>
    intro label j k hj hk
    cases j with
    | zero =>
      cases k with
      | zero => rfl
      | succ k => exact absurd (labelAt_zero.1 hj).2 (hdiffers (labelAt_succ.1 hk))
    | succ j =>
      cases k with
      | zero => exact absurd (labelAt_zero.1 hk).2 (hdiffers (labelAt_succ.1 hj))
      | succ k => rw [h.once (labelAt_succ.1 hj) (labelAt_succ.1 hk)]
  case others =>
    intro label hnone
    rw [h.others fun k hk => hnone (k + 1) (labelAt_succ.2 hk), hinsert, if_neg]
    rintro rfl
    exact hnone 0 (labelAt_zero.2 ⟨hne, rfl⟩)

end

theorem builder_findLabels {s t : GenState} {labels labels' : Labels} {n : Nat}
    {lines : List BodyLine} (h : findLabels s labels n lines = (t, labels')) :
    t.builder = s.builder := by
  induction lines generalizing s labels n with
  | nil =>
    cases h
    rfl
  | cons line rest ih =>
    rw [findLabels] at h
    dsimp only at h
    split at h
    · exact ih h
    · rw [ih h]
      split <;> rfl

theorem findLabels_spec {s t : GenState} {labels labels' : Labels} {n : Nat}
    {lines : List BodyLine} (h : findLabels s labels n lines = (t, labels'))
    (hclean : t.errors.size = s.errors.size) : Finds n lines labels labels' := by
  induction lines generalizing s labels n with
  | nil =>
    cases h
    exact .nil n _
  | cons line rest ih =>
    rw [findLabels] at h
    dsimp only at h
    split at h
    · rename_i hempty
      exact .unlabelled (List.isEmpty_iff.1 hempty) (ih h hclean)
    · rename_i hne
      split at h
      · have herrors := (grows_findLabels h).errors
        rw [size_report] at herrors
        omega
      · rename_i hnew
        rw [Bool.not_eq_true, Option.isSome_eq_false_iff, Option.isNone_iff_eq_none] at hnew
        exact .labelled (mt List.isEmpty_iff.2 hne) hnew (ih h hclean)

end MiniJvm.Assembly
