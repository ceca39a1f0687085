import Mathlib
import MiniJvm.Proofs.Pool.Growth

/-!
# The meaning of a pool

`Pool.Denotes` says by rules which text an index stands for, with no bound on the references that
are followed. Resolution finds exactly these texts (`resolve_meaning`): an index from which more
references can be followed than the pool has slots leads into a circle, and then it has no text.
-/

namespace MiniJvm

namespace Entry

/-- The entry stands for what its first index stands for. -/
def IsReference (e : Entry) : Prop := e.tag? = some .classRef ∨ e.tag? = some .stringRef

/-- The entry is a member of a class. -/
def IsMember (e : Entry) : Prop :=
  e.tag? = some .methodRef ∨ e.tag? = some .interfaceMethodRef ∨ e.tag? = some .fieldRef

/-- Entries of this kind have no texts. -/
def IsTextless (e : Entry) : Prop :=
  e.tag? ≠ some .utf8 ∧ ¬e.IsReference ∧ e.tag? ≠ some .nameAndType ∧ ¬e.IsMember

/-- The indices whose texts make up the text of an entry. -/
def parts (e : Entry) : List UInt16 :=
  match e.tag? with
  | some .classRef | some .stringRef => [e.index1]
  | some .nameAndType | some .methodRef | some .interfaceMethodRef | some .fieldRef =>
    [e.index1, e.index2]
  | _ => []

theorem kinds (e : Entry) : e.tag? = some .utf8 ∨ e.IsReference ∨ e.tag? = some .nameAndType ∨
    e.IsMember ∨ e.IsTextless := by
  unfold IsTextless
  tauto

variable {e : Entry}

theorem parts_utf8 (h : e.tag? = some .utf8) : e.parts = [] := by
  rw [parts, h]

theorem parts_reference (h : e.IsReference) : e.parts = [e.index1] := by
  rcases h with h | h <;> rw [parts, h]

theorem parts_nameAndType (h : e.tag? = some .nameAndType) : e.parts = [e.index1, e.index2] := by
  rw [parts, h]

theorem parts_member (h : e.IsMember) : e.parts = [e.index1, e.index2] := by
  rcases h with h | h | h <;> rw [parts, h]

end Entry

namespace Pool

/-- The entry stands at the index. Nothing stands at index 0. -/
def Holds (p : Pool) (i : UInt16) (e : Entry) : Prop := i ≠ 0 ∧ p.entries[i.toNat]? = some e

/-- The text of an index. -/
inductive Denotes (p : Pool) : UInt16 → Bytes → Prop where
  | utf8 {i : UInt16} {e : Entry} : p.Holds i e → e.tag? = some .utf8 → Denotes p i e.text
  | reference {i : UInt16} {e : Entry} {text : Bytes} : p.Holds i e → e.IsReference →
      Denotes p e.index1 text → Denotes p i text
  | nameAndType {i : UInt16} {e : Entry} {name descriptor : Bytes} : p.Holds i e →
      e.tag? = some .nameAndType → Denotes p e.index1 name → Denotes p e.index2 descriptor →
      Denotes p i (name ++ ":" ++ descriptor)
  | member {i : UInt16} {e : Entry} {owner nameAndType : Bytes} : p.Holds i e → e.IsMember →
      Denotes p e.index1 owner → Denotes p e.index2 nameAndType →
      Denotes p i (owner ++ "." ++ nameAndType)

/-- The text of one index is made of that of another. -/
def Refers (p : Pool) (i j : UInt16) : Prop := ∃ e, p.Holds i e ∧ j ∈ e.parts

/-- References lead from one index to another, in any number of steps. -/
def Reaches (p : Pool) : UInt16 → UInt16 → Prop := Relation.ReflTransGen p.Refers

/-- References lead into a circle. -/
def Circles (p : Pool) (i : UInt16) : Prop :=
  ∃ j, p.Reaches i j ∧ Relation.TransGen p.Refers j j

variable {p : Pool} {i j : UInt16} {e : Entry} {text : Bytes} {depth : Nat}

theorem holds_iff : p.Holds i e ↔ p.entry i = .ok e := entry_ok_iff.symm

theorem Holds.unique {e' : Entry} (h : p.Holds i e) (h' : p.Holds i e') : e = e' :=
  Option.some.inj (h.2.symm.trans h'.2)

theorem Holds.lt_size (h : p.Holds i e) : i.toNat < p.size :=
  (Array.getElem?_eq_some_iff.1 h.2).1

theorem Holds.refers_iff (h : p.Holds i e) : p.Refers i j ↔ j ∈ e.parts :=
  ⟨fun ⟨_, h', hj⟩ => h.unique h' ▸ hj, fun hj => ⟨e, h, hj⟩⟩

theorem entry_error {err : ResolveError} (h : p.entry i = .error err) :
    err = .outOfRange i ∧ (i = 0 ∨ p.size ≤ i.toNat) := by
  unfold entry at h
  split at h
  · rename_i hzero
    cases h
    exact ⟨rfl, .inl hzero⟩
  · split at h
    · cases h
    · rename_i hnone
      cases h
      exact ⟨rfl, .inr (Array.getElem?_eq_none_iff.1 hnone)⟩

theorem ne_zero_iff : i ≠ 0 ↔ 1 ≤ i.toNat := by
  rw [ne_eq, ← UInt16.toNat_inj, Nat.one_le_iff_ne_zero]
  rfl

/-- Indices from one to the last slot lead to an entry. -/
theorem exists_entry_iff : (∃ e, p.entry i = .ok e) ↔ 1 ≤ i.toNat ∧ i.toNat < p.size := by
  constructor
  · rintro ⟨e, he⟩
    have hholds := holds_iff.2 he
    exact ⟨ne_zero_iff.1 hholds.1, hholds.lt_size⟩
  · rintro ⟨hpos, hlt⟩
    exact ⟨_, holds_iff.1 ⟨ne_zero_iff.2 hpos, Array.getElem?_eq_getElem hlt⟩⟩

/-! ## One step of resolution -/

theorem resolveWithin_zero (h : p.Holds i e) :
    p.resolveWithin 0 i = .error (.unresolvable i e.tag) := by
  rw [resolveWithin, holds_iff.1 h]

theorem resolveWithin_utf8 (h : p.Holds i e) (htag : e.tag? = some .utf8) :
    p.resolveWithin (depth + 1) i = .ok e.text := by
  rw [resolveWithin, holds_iff.1 h]
  simp only [htag]

theorem resolveWithin_reference (h : p.Holds i e) (hkind : e.IsReference) :
    p.resolveWithin (depth + 1) i = p.resolveWithin depth e.index1 := by
  rw [resolveWithin, holds_iff.1 h]
  rcases hkind with htag | htag <;> simp only [htag]

theorem resolveWithin_nameAndType (h : p.Holds i e) (htag : e.tag? = some .nameAndType) :
    p.resolveWithin (depth + 1) i = (do
      let name ← p.resolveWithin depth e.index1
      let descriptor ← p.resolveWithin depth e.index2
      return name ++ ":" ++ descriptor) := by
  rw [resolveWithin, holds_iff.1 h]
  simp only [htag]

theorem resolveWithin_member (h : p.Holds i e) (hkind : e.IsMember) :
    p.resolveWithin (depth + 1) i = (do
      let owner ← p.resolveWithin depth e.index1
      let nameAndType ← p.resolveWithin depth e.index2
      return owner ++ "." ++ nameAndType) := by
  rw [resolveWithin, holds_iff.1 h]
  rcases hkind with htag | htag | htag <;> simp only [htag]

theorem resolveWithin_textless (h : p.Holds i e) (hkind : e.IsTextless) :
    p.resolveWithin (depth + 1) i = .error (.unresolvable i e.tag) := by
  obtain ⟨hutf8, hreference, hnameAndType, hmember⟩ := hkind
  rw [resolveWithin, holds_iff.1 h]
  dsimp only
  unfold Entry.IsReference at hreference
  unfold Entry.IsMember at hmember
  split <;> simp_all only [not_true_eq_false, not_or, true_or, or_true, ne_eq]

/-! ## Texts -/

theorem denotes_of_resolveWithin (h : p.resolveWithin depth i = .ok text) : p.Denotes i text := by
  induction depth generalizing i text with
  | zero =>
    unfold resolveWithin at h
    split at h <;> cases h
  | succ depth ih =>
    cases hentry : p.entry i with
    | error err =>
      rw [resolveWithin, hentry] at h
      cases h
    | ok e =>
      have hslot := holds_iff.2 hentry
      rcases e.kinds with hkind | hkind | hkind | hkind | hkind
      · rw [resolveWithin_utf8 hslot hkind] at h
        cases h
        exact .utf8 hslot hkind
      · rw [resolveWithin_reference hslot hkind] at h
        exact .reference hslot hkind (ih h)
      · rw [resolveWithin_nameAndType hslot hkind] at h
        obtain ⟨name, hname, h⟩ := bind_eq_ok.1 h
        obtain ⟨descriptor, hdescriptor, h⟩ := bind_eq_ok.1 h
        cases h
        exact .nameAndType hslot hkind (ih hname) (ih hdescriptor)
      · rw [resolveWithin_member hslot hkind] at h
        obtain ⟨owner, howner, h⟩ := bind_eq_ok.1 h
        obtain ⟨nameAndType, hnameAndType, h⟩ := bind_eq_ok.1 h
        cases h
        exact .member hslot hkind (ih howner) (ih hnameAndType)
      · rw [resolveWithin_textless hslot hkind] at h
        cases h

/-- A text that was found is found with more references allowed, too. -/
theorem resolveWithin_mono {depth' : Nat} (hle : depth ≤ depth')
    (h : p.resolveWithin depth i = .ok text) : p.resolveWithin depth' i = .ok text :=
  (Grows.refl p).resolveWithin hle h

/-- What holds of an index when it holds of those that its text is made of holds of every index
with a text. -/
theorem Denotes.descend {motive : UInt16 → Prop}
    (step : ∀ {i text}, p.Denotes i text → (∀ j, p.Refers i j → motive j) → motive i)
    (h : p.Denotes i text) : motive i := by
  induction h with
  | utf8 hslot htag =>
    refine step (.utf8 hslot htag) fun j hij => ?_
    rw [hslot.refers_iff, Entry.parts_utf8 htag] at hij
    cases hij
  | reference hslot hkind htext ih =>
    refine step (.reference hslot hkind htext) fun j hij => ?_
    rw [hslot.refers_iff, Entry.parts_reference hkind, List.mem_singleton] at hij
    exact hij ▸ ih
  | nameAndType hslot htag hname hdescriptor ihname ihdescriptor =>
    refine step (.nameAndType hslot htag hname hdescriptor) fun j hij => ?_
    rw [hslot.refers_iff, Entry.parts_nameAndType htag, List.mem_pair] at hij
    rcases hij with rfl | rfl
    · exact ihname
    · exact ihdescriptor
  | member hslot hkind howner hnameAndType ihowner ihnameAndType =>
    refine step (.member hslot hkind howner hnameAndType) fun j hij => ?_
    rw [hslot.refers_iff, Entry.parts_member hkind, List.mem_pair] at hij
    rcases hij with rfl | rfl
    · exact ihowner
    · exact ihnameAndType

/-- Enough references are allowed at some depth. -/
theorem Denotes.exists_depth (h : p.Denotes i text) :
    ∃ depth, p.resolveWithin depth i = .ok text := by
  induction h with
  | utf8 hslot htag => exact ⟨1, resolveWithin_utf8 hslot htag⟩
  | reference hslot hkind _ ih =>
    obtain ⟨depth, hdepth⟩ := ih
    exact ⟨depth + 1, (resolveWithin_reference hslot hkind).trans hdepth⟩
  | nameAndType hslot htag _ _ ihname ihdescriptor =>
    obtain ⟨m, hm⟩ := ihname
    obtain ⟨n, hn⟩ := ihdescriptor
    refine ⟨max m n + 1, (resolveWithin_nameAndType hslot htag).trans ?_⟩
    rw [resolveWithin_mono (Nat.le_max_left m n) hm, resolveWithin_mono (Nat.le_max_right m n) hn]
    rfl
  | member hslot hkind _ _ ihowner ihnameAndType =>
    obtain ⟨m, hm⟩ := ihowner
    obtain ⟨n, hn⟩ := ihnameAndType
    refine ⟨max m n + 1, (resolveWithin_member hslot hkind).trans ?_⟩
    rw [resolveWithin_mono (Nat.le_max_left m n) hm, resolveWithin_mono (Nat.le_max_right m n) hn]
    rfl

theorem Denotes.unique {text' : Bytes} (h : p.Denotes i text) (h' : p.Denotes i text') :
    text = text' := by
  obtain ⟨m, hm⟩ := h.exists_depth
  obtain ⟨n, hn⟩ := h'.exists_depth
  have hm := resolveWithin_mono (Nat.le_max_left m n) hm
  exact Except.ok.inj (hm.symm.trans (resolveWithin_mono (Nat.le_max_right m n) hn))

/-! ## Circles -/

theorem Circles.behind (hij : p.Refers i j) (h : p.Circles j) : p.Circles i := by
  obtain ⟨k, hreach, hcircle⟩ := h
  exact ⟨k, .head hij hreach, hcircle⟩

/-- A circle that an index leads into is met after its first reference. -/
theorem Circles.ahead (h : p.Circles i) : ∃ j, p.Refers i j ∧ p.Circles j := by
  obtain ⟨k, hreach, hcircle⟩ := h
  rcases Relation.ReflTransGen.cases_head hreach with rfl | ⟨j, hij, hreach⟩
  · obtain ⟨j, hij, hback⟩ := Relation.TransGen.head'_iff.1 hcircle
    exact ⟨j, hij, i, hback, hcircle⟩
  · exact ⟨j, hij, k, hreach, hcircle⟩

theorem Denotes.not_circles (h : p.Denotes i text) : ¬p.Circles i := by
  refine h.descend (motive := fun i => ¬p.Circles i) fun _ ih hcircles => ?_
  obtain ⟨j, hij, hj⟩ := hcircles.ahead
  exact ih j hij hj

/-- A number of references can be followed one after another and end at a slot. -/
def Leads (p : Pool) : Nat → UInt16 → Prop
  | 0, i => i.toNat < p.size
  | n + 1, i => ∃ j, p.Refers i j ∧ Leads p n j

open Classical in
/-- The numbers of the slots that an index leads to. -/
noncomputable def slotsAhead (p : Pool) (i : UInt16) : Finset Nat :=
  (Finset.range p.size).filter fun n => p.Reaches i (UInt16.ofNat n)

theorem mem_slotsAhead {n : Nat} :
    n ∈ p.slotsAhead i ↔ n < p.size ∧ p.Reaches i (UInt16.ofNat n) := by
  classical
  rw [slotsAhead, Finset.mem_filter, Finset.mem_range]

theorem card_slotsAhead_le (p : Pool) (i : UInt16) : (p.slotsAhead i).card ≤ p.size :=
  (Finset.card_le_card fun _ hn => Finset.mem_range.2 (mem_slotsAhead.1 hn).1).trans_eq
    (Finset.card_range _)

/-- Without a circle every reference leaves a slot behind for good. -/
theorem slotsAhead_ssubset (hij : p.Refers i j) (h : ¬p.Circles i) :
    p.slotsAhead j ⊂ p.slotsAhead i := by
  refine (Finset.ssubset_iff_of_subset fun n hn => ?_).2 ⟨i.toNat, ?_, fun hi => ?_⟩
  · obtain ⟨hlt, hreach⟩ := mem_slotsAhead.1 hn
    exact mem_slotsAhead.2 ⟨hlt, .head hij hreach⟩
  · obtain ⟨e, hslot, -⟩ := hij
    exact mem_slotsAhead.2 ⟨hslot.lt_size, by rw [UInt16.ofNat_toNat]; exact .refl⟩
  · obtain ⟨-, hback⟩ := mem_slotsAhead.1 hi
    rw [UInt16.ofNat_toNat] at hback
    exact h ⟨i, .refl, .head' hij hback⟩

theorem Leads.lt_card {n : Nat} (h : p.Leads n i) (hnone : ¬p.Circles i) :
    n < (p.slotsAhead i).card := by
  induction n generalizing i with
  | zero =>
    refine Finset.card_pos.2 ⟨i.toNat, mem_slotsAhead.2 ⟨h, ?_⟩⟩
    rw [UInt16.ofNat_toNat]
    exact .refl
  | succ n ih =>
    obtain ⟨j, hij, hj⟩ := h
    have hless := Finset.card_lt_card (slotsAhead_ssubset hij hnone)
    have hj := ih hj fun hcircles => hnone (hcircles.behind hij)
    omega

/-- To follow as many references as there are slots is to run in a circle. -/
theorem Leads.circles (h : p.Leads p.size i) : p.Circles i := by
  by_contra hnone
  have hlt := h.lt_card hnone
  have hle := card_slotsAhead_le p i
  omega

/-! ## Errors -/

/-- The error names an index that was reached: one without a slot, or one whose entry has no text
unless `deep` is what keeps it from having one. -/
def Explains (p : Pool) (i : UInt16) (deep : Prop) : ResolveError → Prop
  | .outOfRange j => p.Reaches i j ∧ (j = 0 ∨ p.size ≤ j.toNat)
  | .unresolvable j tag =>
    p.Reaches i j ∧ ∃ e, p.Holds j e ∧ e.tag = tag ∧ (e.IsTextless ∨ deep)

variable {deep deep' : Prop} {err : ResolveError}

theorem Explains.mono (h : p.Explains i deep err) (hdeep : deep → deep') :
    p.Explains i deep' err := by
  cases err with
  | outOfRange k => exact h
  | unresolvable k tag =>
    obtain ⟨hreach, e, hslot, htag, hcause⟩ := h
    exact ⟨hreach, e, hslot, htag, hcause.imp_right hdeep⟩

theorem Explains.behind (hij : p.Refers i j) (h : p.Explains j deep err) :
    p.Explains i deep err := by
  cases err with
  | outOfRange k => exact ⟨.head hij h.1, h.2⟩
  | unresolvable k tag => exact ⟨.head hij h.1, h.2⟩

theorem explains_of_resolveWithin (h : p.resolveWithin depth i = .error err) :
    p.Explains i (p.Leads depth i) err := by
  induction depth generalizing i with
  | zero =>
    cases hentry : p.entry i with
    | error cause =>
      rw [resolveWithin, hentry] at h
      cases h
      obtain ⟨rfl, hbad⟩ := entry_error hentry
      exact ⟨.refl, hbad⟩
    | ok e =>
      have hslot := holds_iff.2 hentry
      rw [resolveWithin_zero hslot] at h
      cases h
      exact ⟨.refl, e, hslot, rfl, .inr hslot.lt_size⟩
  | succ depth ih =>
    cases hentry : p.entry i with
    | error cause =>
      rw [resolveWithin, hentry] at h
      cases h
      obtain ⟨rfl, hbad⟩ := entry_error hentry
      exact ⟨.refl, hbad⟩
    | ok e =>
      have hslot := holds_iff.2 hentry
      have hpart {j : UInt16} (hj : j ∈ e.parts) (h : p.resolveWithin depth j = .error err) :
          p.Explains i (p.Leads (depth + 1) i) err :=
        have hij := hslot.refers_iff.2 hj
        ((ih h).behind hij).mono fun hdeep => ⟨j, hij, hdeep⟩
      have hparts (hboth : e.parts = [e.index1, e.index2]) {join : Bytes → Bytes → Bytes}
          (h : (do
            let first ← p.resolveWithin depth e.index1
            let second ← p.resolveWithin depth e.index2
            return join first second) = .error err) :
          p.Explains i (p.Leads (depth + 1) i) err := by
        rcases bind_eq_error.1 h with h | ⟨first, -, h⟩
        · exact hpart (by simp [hboth]) h
        · rcases bind_eq_error.1 h with h | ⟨second, -, h⟩
          · exact hpart (by simp [hboth]) h
          · cases h
      rcases e.kinds with hkind | hkind | hkind | hkind | hkind
      · rw [resolveWithin_utf8 hslot hkind] at h
        cases h
      · rw [resolveWithin_reference hslot hkind] at h
        exact hpart (by simp [Entry.parts_reference hkind]) h
      · rw [resolveWithin_nameAndType hslot hkind] at h
        exact hparts (Entry.parts_nameAndType hkind) h
      · rw [resolveWithin_member hslot hkind] at h
        exact hparts (Entry.parts_member hkind) h
      · rw [resolveWithin_textless hslot hkind] at h
        cases h
        exact ⟨.refl, e, hslot, rfl, .inl hkind⟩

/-! ## Resolution -/

theorem Denotes.holds (h : p.Denotes i text) : ∃ e, p.Holds i e ∧ ¬e.IsTextless := by
  cases h with
  | utf8 hslot htag => exact ⟨_, hslot, fun hnone => hnone.1 htag⟩
  | reference hslot hkind _ => exact ⟨_, hslot, fun hnone => hnone.2.1 hkind⟩
  | nameAndType hslot htag _ _ => exact ⟨_, hslot, fun hnone => hnone.2.2.1 htag⟩
  | member hslot hkind _ _ => exact ⟨_, hslot, fun hnone => hnone.2.2.2 hkind⟩

/-- Whatever the text of an index is made of has a text. -/
theorem Denotes.of_reaches (h : p.Denotes i text) (hij : p.Reaches i j) :
    ∃ text, p.Denotes j text := by
  refine h.descend (motive := fun i => p.Reaches i j → ∃ text, p.Denotes j text)
    (fun {i text} h ih hij => ?_) hij
  rcases Relation.ReflTransGen.cases_head hij with rfl | ⟨k, hik, hkj⟩
  · exact ⟨text, h⟩
  · exact ih k hik hkj

theorem Explains.not_denotes (h : p.Explains i (p.Circles i) err) : ¬p.Denotes i text := by
  intro htext
  cases err with
  | outOfRange j =>
    obtain ⟨hreach, hbad⟩ := h
    obtain ⟨_, hj⟩ := htext.of_reaches hreach
    obtain ⟨e, hslot, -⟩ := hj.holds
    rcases hbad with hzero | hpast
    · exact hslot.1 hzero
    · exact absurd hslot.lt_size (Nat.not_lt.2 hpast)
  | unresolvable j tag =>
    obtain ⟨hreach, e, hslot, -, htextless | hcircles⟩ := h
    · obtain ⟨_, hj⟩ := htext.of_reaches hreach
      obtain ⟨e', hslot', hkind⟩ := hj.holds
      exact hkind (hslot.unique hslot' ▸ htextless)
    · exact htext.not_circles hcircles

theorem explains_of_resolve (h : p.resolve i = .error err) : p.Explains i (p.Circles i) err :=
  (explains_of_resolveWithin h).mono Leads.circles

/-- Resolution finds the texts that the rules give, however long their chains of references are,
and no others. What leads into a circle is refused, and so is what has no text for another reason.
The error then names an index that was reached: one without a slot, or one whose entry has a kind
without texts, or any if there is a circle. -/
theorem resolve_meaning (p : Pool) (i : UInt16) :
    (∀ text, p.resolve i = .ok text ↔ p.Denotes i text) ∧
      (p.Circles i → ∃ err, p.resolve i = .error err) ∧
      ((¬∃ text, p.Denotes i text) →
        ∃ err, p.resolve i = .error err ∧ p.Explains i (p.Circles i) err) := by
  cases hresolve : p.resolve i with
  | ok found =>
    have hfound := denotes_of_resolveWithin hresolve
    refine ⟨fun text => ⟨fun htext => ?_, fun htext => ?_⟩,
      fun hcircles => absurd hcircles hfound.not_circles,
      fun hnone => absurd ⟨found, hfound⟩ hnone⟩
    · exact Except.ok.inj htext ▸ hfound
    · rw [hfound.unique htext]
  | error err =>
    have hexplains := explains_of_resolve hresolve
    refine ⟨fun text => ⟨nofun, fun htext => absurd htext hexplains.not_denotes⟩,
      fun _ => ⟨err, rfl⟩, fun _ => ⟨err, rfl, hexplains⟩⟩

end Pool

end MiniJvm
