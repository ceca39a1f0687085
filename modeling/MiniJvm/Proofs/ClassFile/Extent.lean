import Mathlib
import MiniJvm.Proofs.ClassFile.DeclaredSize
import MiniJvm.Proofs.ClassFile.RoundTrip

/-!
# The extent of a class file

A class file ends where its last attribute ends, and nothing behind that is looked at. Bytes that
break off before this end are refused because they end too early and for no other reason, wherever
they break off (`parse_extent`). `Measured` is the judgment that carries both through the steps of
the reader: what a step reads is a front of the bytes, and each part of that front is too short.
-/

namespace MiniJvm.ClassFile

/-- The bytes were too few, wherever this was noticed. -/
def ReadError.EndsEarly (e : ReadError) : Prop := ∃ offset, e.cause = .endOfData offset

/-! ## Steps -/

section Measured

variable {α β : Type} {x : Reader α} {k : α → Reader β} {a : α} {s t : Bytes}

/-- On all that is shorter than these bytes the step runs out of data. -/
def RunsOut (x : Reader α) (s : Bytes) : Prop :=
  ∀ n < s.length, ∀ offset, ∃ e, x ⟨s.take n, offset⟩ = .error e ∧ e.EndsEarly

theorem runsOut_nil (x : Reader α) : RunsOut x [] := nofun

/-- A step that succeeds has read a front of the bytes, would read the same from it whatever
follows, and needs all of it. -/
def Measured (x : Reader α) : Prop :=
  ∀ c a c', x c = .ok (a, c') →
    ∃ front, c.rest = front ++ c'.rest ∧ Consumes x front a ∧ RunsOut x front

theorem error_of_bind {c : Cursor} {e : ReadError} (h : x c = .error e) :
    (x >>= k) c = .error e := by
  change (x c >>= fun read => k read.1 read.2) = _
  rw [h]
  rfl

theorem Consumes.andThen (h : Consumes x s a) (rest : Bytes) (offset : Nat) :
    (x >>= k) ⟨s ++ rest, offset⟩ = k a ⟨rest, offset + s.length⟩ := by
  change (x ⟨s ++ rest, offset⟩ >>= fun read => k read.1 read.2) = _
  rw [h]
  rfl

/-- Data runs out in the first part, or behind it in the second. -/
theorem RunsOut.bind (hx : Consumes x s a) (hs : RunsOut x s) (ht : RunsOut (k a) t) :
    RunsOut (x >>= k) (s ++ t) := by
  intro n hn offset
  rw [List.length_append] at hn
  rcases Nat.lt_or_ge n s.length with hfirst | hsecond
  · obtain ⟨e, hfails, hends⟩ := hs n hfirst offset
    rw [List.take_append_of_le_length (Nat.le_of_lt hfirst)]
    exact ⟨e, error_of_bind hfails, hends⟩
  · obtain ⟨e, hfails, hends⟩ := ht (n - s.length) (by omega) (offset + s.length)
    rw [List.take_append, List.take_of_length_le hsecond, hx.andThen]
    exact ⟨e, hfails, hends⟩

theorem Measured.bind (h : Measured x) (hk : ∀ a, Measured (k a)) : Measured (x >>= k) := by
  intro c b c'' hrun
  obtain ⟨a, c', hx, hrun⟩ := ok_of_bind hrun
  obtain ⟨s, hsplit, hconsumes, hshort⟩ := h c a c' hx
  obtain ⟨t, hsplit', hconsumes', hshort'⟩ := hk a c' b c'' hrun
  refine ⟨s ++ t, ?_, hconsumes.bind hconsumes', .bind hconsumes hshort hshort'⟩
  rw [hsplit, hsplit', List.append_assoc]

/-- A step that reads no bytes and does not depend on them. -/
theorem Measured.still (h : ∀ c a c', x c = .ok (a, c') → ∀ d, x d = .ok (a, d)) :
    Measured x := by
  intro c a c' hrun
  have hsame := h c a c' hrun
  cases (hsame c).symm.trans hrun
  exact ⟨[], rfl, fun rest offset => hsame _, runsOut_nil x⟩

theorem measured_pure (a : α) : Measured (pure a : Reader α) := by
  refine .still fun c b c' hrun d => ?_
  cases hrun
  rfl

theorem measured_fail (cause : Cause) : Measured (fail cause : Reader α) := nofun

theorem Measured.within (h : Measured x) (place : Place) :
    Measured (ClassFile.within place x) := by
  intro c a c' hrun
  obtain ⟨s, hsplit, hconsumes, hshort⟩ := h c a c' (of_within hrun)
  refine ⟨s, hsplit, hconsumes.within place, fun n hn offset => ?_⟩
  obtain ⟨e, hfails, hends⟩ := hshort n hn offset
  refine ⟨{ e with places := place :: e.places }, ?_, hends⟩
  unfold ClassFile.within
  rw [hfails]

theorem measured_lookUp (place : Place) (r : Except Pool.ResolveError α) :
    Measured (lookUp place r) := by
  cases r with
  | error e => exact (measured_fail _).within place
  | ok a => exact measured_pure a

/-- The bytes of a body were taken before, so its end is not the end of the data. -/
theorem measured_inBody (x : Reader α) (body : Bytes) : Measured (inBody x body) := by
  refine .still fun c a c' hrun d => ?_
  unfold inBody at hrun ⊢
  cases hbody : x ⟨body, 0⟩ with
  | error e => rw [hbody] at hrun; cases hrun
  | ok read =>
    rw [hbody] at hrun
    cases hrun
    rfl

theorem measured_take (n : Nat) : Measured (take n) := by
  intro c s c' hrun
  have hlength : s.length = n := yields_take n _ _ _ hrun
  obtain ⟨hfront, hrest⟩ := of_take hrun
  refine ⟨s, ?_, consumes_take hlength, fun m hm offset => ?_⟩
  · rw [hfront, hrest, List.take_append_drop]
  · have hshort : (s.take m).length < n := by
      rw [List.length_take]
      omega
    refine ⟨⟨[], .endOfData offset⟩, ?_, offset, rfl⟩
    rw [take, Bytes.split?_eq, if_neg (Nat.not_le.2 hshort)]

theorem measured_u1 : Measured u1 := (measured_take 1).bind fun _ => measured_pure _

theorem measured_u2 : Measured u2 := (measured_take 2).bind fun _ => measured_pure _

theorem measured_u4 : Measured u4 := (measured_take 4).bind fun _ => measured_pure _

theorem measured_u8 : Measured u8 := (measured_take 8).bind fun _ => measured_pure _

theorem measured_times {step : Nat → Reader α} (h : ∀ i, Measured (step i)) (count index : Nat) :
    Measured (times step count index) := by
  induction count generalizing index with
  | zero => exact measured_pure []
  | succ count ih => exact (h index).bind fun a => (ih (index + 1)).bind fun _ => measured_pure _

end Measured

/-! ## Constants -/

theorem measured_constant (index : Nat) : Measured (constant index) := by
  have hone (e : UInt16 → Entry) : Measured (u2 >>= fun index1 => pure (e index1)) :=
    measured_u2.bind fun _ => measured_pure _
  refine measured_u1.bind fun tag => ?_
  split
  · exact measured_u2.bind fun n => (measured_take n.toNat).bind fun _ => measured_pure _
  · exact measured_u4.bind fun _ => measured_pure _
  · exact measured_u4.bind fun _ => measured_pure _
  · exact measured_u8.bind fun _ => measured_pure _
  · exact measured_u8.bind fun _ => measured_pure _
  all_goals first
    | exact measured_fail _
    | exact hone _
    | exact measured_u2.bind fun _ => hone _
    | exact measured_u1.bind fun _ => hone _

theorem measured_constants (slots index : Nat) : Measured (constants slots index) := by
  induction slots using Nat.twoStepInduction generalizing index with
  | zero => exact measured_pure []
  | one =>
    refine (measured_constant index).bind fun e => ?_
    split <;> exact measured_pure _
  | more slots ih ih' =>
    refine (measured_constant index).bind fun e => ?_
    split
    · exact (ih (index + 2)).bind fun _ => measured_pure _
    · exact (ih' (index + 1)).bind fun _ => measured_pure _

theorem measured_readPool : Measured readPool :=
  measured_u2.bind fun _ => (measured_constants _ 1).bind fun _ => measured_pure _

/-! ## Classes -/

theorem measured_skipAttributes : Measured skipAttributes := by
  have hone : Measured skipAttribute :=
    measured_u2.bind fun _ => measured_u4.bind fun length =>
      (measured_take length.toNat).bind fun _ => measured_pure ()
  exact measured_u2.bind fun _ => (measured_times (fun _ => hone) _ 0).bind fun _ =>
    measured_pure ()

theorem measured_methodAttribute (p : Pool) (method : Bytes) :
    Measured (methodAttribute p method) := by
  refine measured_u2.bind fun nameIndex => (measured_lookUp _ _).bind fun name => ?_
  refine measured_u4.bind fun length => (measured_take length.toNat).bind fun body => ?_
  split
  · exact ((measured_inBody codeBody body).within _).bind fun _ => measured_pure _
  · exact measured_pure none

theorem measured_readMethod (p : Pool) : Measured (readMethod p) := by
  refine measured_u2.bind fun access => ?_
  refine measured_u2.bind fun nameIndex => (measured_lookUp _ _).bind fun name => ?_
  refine measured_u2.bind fun descriptorIndex => (measured_lookUp _ _).bind fun descriptor => ?_
  exact measured_u2.bind fun count =>
    (measured_times (fun _ => measured_methodAttribute p name) _ 0).bind fun _ => measured_pure _

theorem measured_readSuper (p : Pool) : Measured (readSuper p) := by
  refine measured_u2.bind fun index => ?_
  split
  · exact measured_pure []
  · exact measured_lookUp _ _

theorem measured_readInterface (p : Pool) (i : Nat) : Measured (readInterface p i) :=
  measured_u2.bind fun _ => measured_lookUp _ _

theorem measured_skipField (i : Nat) : Measured (skipField i) :=
  (measured_take 6).bind fun _ => measured_skipAttributes.within _

theorem measured_readClass : Measured readClass := by
  refine measured_u4.bind fun magic => ?_
  dsimp only
  split
  · intro c f c' hrun
    obtain ⟨_, _, hfail, _⟩ := ok_of_bind hrun
    cases hfail
  refine measured_u2.bind fun minor => measured_u2.bind fun major => ?_
  refine (measured_readPool.within _).bind fun pool => measured_u2.bind fun access => ?_
  refine measured_u2.bind fun thisIndex => (measured_lookUp _ _).bind fun name => ?_
  refine (measured_readSuper pool).bind fun superName => ?_
  refine measured_u2.bind fun interfaceCount => ?_
  refine (measured_times (measured_readInterface pool) _ 0).bind fun interfaces => ?_
  refine measured_u2.bind fun fieldCount => ?_
  refine (measured_times measured_skipField _ 0).bind fun fields => ?_
  refine measured_u2.bind fun methodCount => ?_
  refine (measured_times (fun i => (measured_readMethod pool).within _) _ 0).bind fun methods => ?_
  exact (measured_skipAttributes.within _).bind fun _ => measured_pure _

/-- The bytes of a class file that is read have a front that is read as the same class whatever
follows it, and of which every shorter part is refused because it ends too early. -/
theorem parse_extent {bytes : Bytes} {c : ClassFile} (h : parse bytes = .ok c) :
    ∃ n ≤ bytes.length, (∀ rest, parse (bytes.take n ++ rest) = .ok c) ∧
      ∀ k < n, ∃ e, parse (bytes.take k) = .error e ∧ e.EndsEarly := by
  obtain ⟨⟨_, c'⟩, hread, hc⟩ := bind_eq_ok.1 h
  cases hc
  obtain ⟨front, hsplit, hconsumes, hshort⟩ := measured_readClass _ _ _ hread
  change bytes = front ++ c'.rest at hsplit
  subst hsplit
  refine ⟨front.length, by rw [List.length_append]; omega, fun rest => ?_, fun k hk => ?_⟩
  · rw [List.take_left, parse, hconsumes rest 0]
    rfl
  · obtain ⟨e, hfails, hends⟩ := hshort k hk 0
    refine ⟨e, ?_, hends⟩
    rw [List.take_append_of_le_length (Nat.le_of_lt hk), parse, hfails]
    rfl

def padded : Bytes := sampleLayout.bytes ++ [0xCA, 0xFE]

theorem parse_extent_padded :
    ∃ c, parse padded = .ok c ∧
      ∃ n ≤ padded.length, (∀ rest, parse (padded.take n ++ rest) = .ok c) ∧
        ∀ k < n, ∃ e, parse (padded.take k) = .error e ∧ e.EndsEarly := by
  have hparse : parse padded = .ok sampleLayout.classFile := by
    rw [padded, parse, consumes_readClass sampleLayout _ 0]
    rfl
  exact ⟨_, hparse, parse_extent hparse⟩

end MiniJvm.ClassFile
