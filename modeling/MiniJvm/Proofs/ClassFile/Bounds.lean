import Mathlib
import MiniJvm.ClassFile.Reader
import MiniJvm.Proofs.Basic

/-!
# What a class file can hold

Counts and lengths in a class file have two bytes, and all names are texts of constants. `Yields`
is the judgment that carries such a property of what is read through the steps of a reader.
-/

namespace MiniJvm

/-! ## Texts of constants -/

namespace Pool

variable {p : Pool} {index : UInt16} {text : Bytes}

theorem mem_of_entry {e : Entry} (h : p.entry index = .ok e) : e ∈ p.entries := by
  unfold entry at h
  split at h
  · cases h
  · split at h
    · rename_i found hfound
      cases h
      exact Array.mem_of_getElem? hfound
    · cases h

theorem mem_of_utf8 (h : p.utf8 index = .ok text) : ∃ e ∈ p.entries, e.text = text := by
  unfold utf8 at h
  cases he : p.entry index with
  | error err => rw [he] at h; cases h
  | ok e =>
    rw [he] at h
    change (if e.tag? = some .utf8 then Except.ok e.text else _) = _ at h
    split at h
    · cases h
      exact ⟨e, mem_of_entry he, rfl⟩
    · cases h

/-- Texts of references are put together from the texts of the pool and ASCII characters. -/
theorem valid_of_resolveWithin (hall : ∀ e ∈ p.entries, Utf8.valid e.text = true) {depth : Nat}
    (h : p.resolveWithin depth index = .ok text) : Utf8.valid text = true := by
  have hjoin {a b : Bytes} (mark : Bytes) (hmark : Utf8.valid mark = true)
      (ha : Utf8.valid a = true) (hb : Utf8.valid b = true) :
      Utf8.valid (a ++ mark ++ b) = true :=
    Utf8.valid_append (Utf8.valid_append ha hmark) hb
  induction depth generalizing index text with
  | zero =>
    rw [resolveWithin] at h
    cases he : p.entry index <;> rw [he] at h <;> cases h
  | succ depth ih =>
    rw [resolveWithin] at h
    cases he : p.entry index with
    | error err => rw [he] at h; cases h
    | ok e =>
      have htwo {mark : Bytes} (hmark : Utf8.valid mark = true)
          (h : (do
            let first ← p.resolveWithin depth e.index1
            let second ← p.resolveWithin depth e.index2
            return first ++ mark ++ second) = Except.ok text) : Utf8.valid text = true := by
        cases hfirst : p.resolveWithin depth e.index1 with
        | error err => rw [hfirst] at h; cases h
        | ok first =>
          cases hsecond : p.resolveWithin depth e.index2 with
          | error err => rw [hfirst, hsecond] at h; cases h
          | ok second =>
            rw [hfirst, hsecond] at h
            cases h
            exact hjoin mark hmark (ih hfirst) (ih hsecond)
      rw [he] at h
      dsimp only at h
      split at h
      · cases h
        exact hall e (mem_of_entry he)
      · exact ih h
      · exact ih h
      · exact htwo (by decide) h
      · exact htwo (by decide) h
      · exact htwo (by decide) h
      · exact htwo (by decide) h
      · cases h

end Pool

namespace ClassFile

/-! ## Steps -/

section Yields

variable {α β : Type} {p : α → Prop} {q : β → Prop}

/-- Whatever the step reads has the property. -/
def Yields (p : α → Prop) (x : Reader α) : Prop := ∀ c a c', x c = .ok (a, c') → p a

theorem Yields.bind {x : Reader α} {k : α → Reader β} (h : Yields p x)
    (hk : ∀ a, p a → Yields q (k a)) : Yields q (x >>= k) := by
  intro c b c' hrun
  change (x c >>= fun read => k read.1 read.2) = _ at hrun
  cases hx : x c with
  | error e => rw [hx] at hrun; cases hrun
  | ok read =>
    rw [hx] at hrun
    exact hk _ (h c read.1 read.2 hx) _ _ _ hrun

/-- What is read first does not matter. -/
theorem Yields.after (x : Reader α) {k : α → Reader β} (hk : ∀ a, Yields q (k a)) :
    Yields q (x >>= k) :=
  Yields.bind (p := fun _ => True) (fun _ _ _ _ => trivial) fun a _ => hk a

theorem yields_pure {a : α} (h : p a) : Yields p (pure a : Reader α) := by
  intro c b c' hrun
  cases hrun
  exact h

theorem yields_fail (cause : Cause) : Yields p (fail cause) := nofun

theorem Yields.within {x : Reader α} (h : Yields p x) (place : Place) :
    Yields p (ClassFile.within place x) := by
  intro c a c' hrun
  unfold ClassFile.within at hrun
  cases hx : x c with
  | error e => rw [hx] at hrun; cases hrun
  | ok read =>
    rw [hx] at hrun
    cases hrun
    exact h c a c' hx

theorem yields_lookUp (place : Place) {r : Except Pool.ResolveError α}
    (h : ∀ a, r = .ok a → p a) : Yields p (lookUp place r) := by
  cases r with
  | error e => exact (yields_fail _).within place
  | ok a => exact yields_pure (h a rfl)

theorem yields_take (n : Nat) : Yields (fun s => s.length = n) (take n) := by
  intro c s c' hrun
  unfold take at hrun
  cases hsplit : Bytes.split? n c.rest with
  | none => rw [hsplit] at hrun; cases hrun
  | some cut =>
    rw [hsplit] at hrun
    cases hrun
    exact (Bytes.of_split? hsplit).1

theorem yields_times {step : Nat → Reader α} (h : ∀ i, Yields p (step i)) (count index : Nat) :
    Yields (fun read => read.length = count ∧ ∀ a ∈ read, p a) (times step count index) := by
  induction count generalizing index with
  | zero => exact yields_pure ⟨rfl, nofun⟩
  | succ count ih =>
    refine (h index).bind fun a ha => (ih (index + 1)).bind fun rest hrest => yields_pure ?_
    exact ⟨by rw [List.length_cons, hrest.1], List.forall_mem_cons.2 ⟨ha, hrest.2⟩⟩

end Yields

/-! ## Constants -/

/-- The length of a text has two bytes. -/
def ShortText (e : Entry) : Prop := e.text.length < 65536

theorem yields_constant (index : Nat) : Yields ShortText (constant index) := by
  have hempty {e : Entry} (h : e.text = []) : ShortText e := by
    rw [ShortText, h]
    exact Nat.zero_lt_succ _
  refine .after _ fun tag => ?_
  split
  · refine .after _ fun n => (yields_take n.toNat).bind fun text htext => yields_pure ?_
    change text.length < 65536
    rw [htext]
    exact n.toNat_lt
  · exact .after _ fun _ => yields_pure (hempty rfl)
  · exact .after _ fun _ => yields_pure (hempty rfl)
  · exact .after _ fun _ => yields_pure (hempty rfl)
  · exact .after _ fun _ => yields_pure (hempty rfl)
  all_goals first
    | exact yields_fail _
    | exact .after _ fun _ => yields_pure (hempty rfl)
    | exact .after _ fun _ => .after _ fun _ => yields_pure (hempty rfl)

theorem shortText_placeholder : ShortText .placeholder := Nat.zero_lt_succ _

theorem yields_constants (slots index : Nat) :
    Yields (fun entries => entries.length ≤ slots + 1 ∧ ∀ e ∈ entries, ShortText e)
      (constants slots index) := by
  induction slots using Nat.twoStepInduction generalizing index with
  | zero => exact yields_pure ⟨Nat.zero_le _, nofun⟩
  | one =>
    refine (yields_constant index).bind fun e he => ?_
    split
    · refine yields_pure ⟨Nat.le_refl _, ?_⟩
      exact List.forall_mem_cons.2 ⟨he, List.forall_mem_singleton.2 shortText_placeholder⟩
    · exact yields_pure ⟨Nat.le_succ _, List.forall_mem_singleton.2 he⟩
  | more slots ih ih' =>
    refine (yields_constant index).bind fun e he => ?_
    split
    · refine (ih (index + 2)).bind fun rest hrest => yields_pure ⟨?_, ?_⟩
      · simpa using hrest.1
      · exact List.forall_mem_cons.2
          ⟨he, List.forall_mem_cons.2 ⟨shortText_placeholder, hrest.2⟩⟩
    · refine (ih' (index + 1)).bind fun rest hrest => yields_pure ⟨?_, ?_⟩
      · simpa using hrest.1
      · exact List.forall_mem_cons.2 ⟨he, hrest.2⟩

/-- The constants of a class file: their number and their lengths. -/
structure SmallPool (p : Pool) : Prop where
  slots : p.entries.size ≤ 65537
  texts : ∀ e ∈ p.entries, ShortText e

theorem yields_readPool : Yields SmallPool readPool := by
  refine .after _ fun count => (yields_constants (count.toNat - 1) 1).bind fun entries h =>
    yields_pure ⟨?_, fun e he => ?_⟩
  · have hcount := count.toNat_lt
    have hlength := h.1
    simp only [List.size_toArray, List.length_cons]
    omega
  · rcases List.mem_cons.1 (List.mem_toArray.1 he) with rfl | he
    · exact shortText_placeholder
    · exact h.2 e he

/-! ## Classes -/

/-- Name and descriptor of the method are texts of the pool. -/
structure NamedIn (p : Pool) (m : MethodInfo) : Prop where
  name : ∃ e ∈ p.entries, e.text = m.name
  descriptor : ∃ e ∈ p.entries, e.text = m.descriptor

theorem yields_readMethod (p : Pool) : Yields (NamedIn p) (readMethod p) := by
  refine .after _ fun access => .after _ fun nameIndex => ?_
  refine (yields_lookUp _ fun _ h => Pool.mem_of_utf8 h).bind fun name hname => ?_
  refine .after _ fun descriptorIndex => ?_
  refine (yields_lookUp _ fun _ h => Pool.mem_of_utf8 h).bind fun descriptor hdescriptor => ?_
  exact .after _ fun count => .after _ fun codes => yields_pure ⟨hname, hdescriptor⟩

/-- The text is resolved from the pool, or there is none. -/
def ResolvedIn (p : Pool) (text : Bytes) : Prop :=
  text = [] ∨ ∃ index, p.resolve index = .ok text

theorem ResolvedIn.valid {p : Pool} {text : Bytes} (h : ResolvedIn p text)
    (hall : ∀ e ∈ p.entries, Utf8.valid e.text = true) : Utf8.valid text = true := by
  rcases h with rfl | ⟨index, hresolve⟩
  · rfl
  · exact Pool.valid_of_resolveWithin hall hresolve

theorem yields_readSuper (p : Pool) : Yields (ResolvedIn p) (readSuper p) := by
  refine .after _ fun index => ?_
  split
  · exact yields_pure (.inl rfl)
  · exact yields_lookUp _ fun text h => .inr ⟨index, h⟩

/-- What holds of every class file that was read. -/
structure Bounded (c : ClassFile) : Prop where
  pool : SmallPool c.pool
  name : ResolvedIn c.pool c.name
  superName : ResolvedIn c.pool c.superName
  methods : c.methods.length < 65536
  named : ∀ m ∈ c.methods, NamedIn c.pool m

theorem yields_readClass : Yields Bounded readClass := by
  refine .after _ fun magic => ?_
  dsimp only
  split
  · exact Yields.bind (p := fun _ => False) (yields_fail _) fun _ h => h.elim
  refine .after _ fun minor => .after _ fun major => ?_
  refine (yields_readPool.within _).bind fun pool hpool => .after _ fun access => ?_
  refine .after _ fun thisIndex => ?_
  refine (yields_lookUp _ fun text h => (.inr ⟨thisIndex, h⟩ : ResolvedIn pool text)).bind
    fun name hname => ?_
  refine (yields_readSuper pool).bind fun superName hsuper => ?_
  refine .after _ fun interfaceCount => .after _ fun interfaces => ?_
  refine .after _ fun fieldCount => .after _ fun fields => .after _ fun methodCount => ?_
  refine (yields_times (fun i => (yields_readMethod pool).within _) methodCount.toNat 0).bind
    fun methods hmethods => .after _ fun _ => yields_pure ?_
  exact ⟨hpool, hname, hsuper, hmethods.1 ▸ methodCount.toNat_lt, hmethods.2⟩

theorem bounded_of_parse {bytes : Bytes} {c : ClassFile} (h : parse bytes = .ok c) : Bounded c := by
  unfold parse at h
  cases hread : readClass ⟨bytes, 0⟩ with
  | error e => rw [hread] at h; cases h
  | ok read =>
    rw [hread] at h
    cases h
    exact yields_readClass _ _ _ hread

end ClassFile

end MiniJvm
