import Mathlib
import MiniJvm.ClassFile.Reader
import MiniJvm.Proofs.Cbor.RoundTrip
import MiniJvm.Proofs.ClassFile.Layout

/-!
# Reading what was laid out

Every class file that is laid out is read back, whatever bytes follow it (`parse_layout`).
`Consumes` is the judgment that carries this through the steps of the reader: a step takes exactly
the bytes of one part and leaves the rest, so every part is read where the part before it ends.
-/

namespace MiniJvm.ClassFile

open Bytes (bigEndian number number_bigEndian)

/-! ## Steps -/

section Consumes

variable {α β : Type} {x : Reader α} {k : α → Reader β} {a : α} {b : β} {s t : Bytes}

/-- From these bytes, wherever they stand and whatever follows, the step reads the value. -/
def Consumes (x : Reader α) (s : Bytes) (a : α) : Prop :=
  ∀ rest offset, x ⟨s ++ rest, offset⟩ = .ok (a, ⟨rest, offset + s.length⟩)

theorem consumes_pure (a : α) : Consumes (pure a) [] a := fun _ _ => rfl

theorem Consumes.bind (h : Consumes x s a) (hk : Consumes (k a) t b) :
    Consumes (x >>= k) (s ++ t) b := by
  intro rest offset
  change (x ⟨s ++ t ++ rest, offset⟩ >>= fun read => k read.1 read.2) = _
  rw [List.append_assoc, h]
  change k a ⟨t ++ rest, offset + s.length⟩ = _
  rw [hk, List.length_append, Nat.add_assoc]

/-- The last part of a record. -/
theorem Consumes.last (h : Consumes x s a) (hk : k a = pure b) : Consumes (x >>= k) s b := by
  have hboth := h.bind (hk ▸ consumes_pure b)
  rwa [List.append_nil] at hboth

theorem Consumes.within (h : Consumes x s a) (place : Place) :
    Consumes (ClassFile.within place x) s a := by
  intro rest offset
  unfold ClassFile.within
  rw [h]

/-- A look-up that succeeds reads nothing. -/
theorem Consumes.lookUp {r : Except Pool.ResolveError α} (hr : r = .ok a) (place : Place)
    (hk : Consumes (k a) s b) : Consumes (ClassFile.lookUp place r >>= k) s b := by
  rw [hr]
  exact (consumes_pure a).bind hk

/-- A body that is taken out of the bytes is read to its end. -/
theorem Consumes.inBody (h : Consumes x s a) : Consumes (ClassFile.inBody x s) [] a := by
  have hbody := h [] 0
  rw [List.append_nil] at hbody
  intro rest offset
  unfold ClassFile.inBody
  rw [hbody]
  rfl

end Consumes

/-! ## Numbers and lists -/

theorem consumes_take {n : Nat} {s : Bytes} (h : s.length = n) : Consumes (take n) s s := by
  intro rest offset
  subst h
  rw [take, Bytes.split?_append]

theorem consumes_bigEndian (count n : Nat) : Consumes (take count) (bigEndian count n)
    (bigEndian count n) :=
  consumes_take (Bytes.length_bigEndian count n)

theorem consumes_u1 (n : UInt8) : Consumes u1 [n] n := by
  refine (consumes_take (n := 1) rfl).last (congrArg pure ?_)
  simp [number]

theorem consumes_u2 (n : UInt16) : Consumes u2 (word2 n) n := by
  refine (consumes_bigEndian 2 _).last (congrArg pure ?_)
  rw [number_bigEndian n.toNat_lt]
  exact UInt16.ofNat_toNat

theorem consumes_u4 (n : UInt32) : Consumes u4 (word4 n) n := by
  refine (consumes_bigEndian 4 _).last (congrArg pure ?_)
  rw [number_bigEndian n.toNat_lt]
  exact UInt32.ofNat_toNat

theorem consumes_u8 (n : UInt64) : Consumes u8 (word8 n) n := by
  refine (consumes_bigEndian 8 _).last (congrArg pure ?_)
  rw [number_bigEndian n.toNat_lt]
  exact UInt64.ofNat_toNat

section Lists

variable {α β γ : Type} {step : Nat → Reader β} {item : α → Bytes} {v : α → β}

theorem consumes_times (h : ∀ i a, Consumes (step i) (item a) (v a)) (items : List α)
    (index : Nat) :
    Consumes (times step items.length index) (items.flatMap item) (items.map v) := by
  induction items generalizing index with
  | nil => exact consumes_pure []
  | cons a rest ih => exact (h index a).bind ((ih (index + 1)).last rfl)

/-- A counted list is read as its items are. -/
theorem Consumes.counted {k : List β → Reader γ} {c : γ} {s : Bytes}
    (h : ∀ i a, Consumes (step i) (item a) (v a)) (items : Counted α)
    (hk : Consumes (k (items.1.map v)) s c) :
    Consumes (u2 >>= fun count => times step count.toNat 0 >>= k)
      (ClassFile.counted item items ++ s) c := by
  unfold ClassFile.counted
  rw [List.append_assoc]
  refine (consumes_u2 _).bind (Consumes.bind ?_ hk)
  rw [UInt16.toNat_ofNat_of_lt' items.2]
  exact consumes_times h items.1 0

/-- Contents are read behind their length. -/
theorem Consumes.sized {k : Bytes → Reader γ} {c : γ} {s : Bytes} (contents : Contents)
    (hk : Consumes (k contents.1) s c) :
    Consumes (u4 >>= fun length => take length.toNat >>= k) (ClassFile.sized contents ++ s) c := by
  unfold ClassFile.sized
  rw [List.append_assoc]
  refine (consumes_u4 _).bind (Consumes.bind ?_ hk)
  rw [UInt32.toNat_ofNat_of_lt' contents.2]
  exact consumes_take rfl

end Lists

/-! ## Constants -/

theorem consumes_constant (c : Constant) (index : Nat) :
    Consumes (constant index) c.bytes c.entry := by
  refine (consumes_u1 c.tag.byte).bind (t := c.operands) ?_
  rw [Tag.ofByte?_byte]
  cases c with
  | utf8 text short =>
    refine (consumes_u2 _).bind (Consumes.last (consumes_take ?_) rfl)
    exact (UInt16.toNat_ofNat_of_lt' short).symm
  | integer value => exact (consumes_u4 _).last rfl
  | float bits => exact (consumes_u4 _).last rfl
  | long value => exact (consumes_u8 _).last rfl
  | double bits => exact (consumes_u8 _).last rfl
  | one tag kind index =>
    simp only [oneIndex, List.mem_cons, List.not_mem_nil, or_false] at kind
    rcases kind with rfl | rfl | rfl | rfl | rfl <;> exact (consumes_u2 _).last rfl
  | two tag kind first second =>
    simp only [twoIndices, List.mem_cons, List.not_mem_nil, or_false] at kind
    rcases kind with rfl | rfl | rfl | rfl | rfl | rfl <;>
      exact (consumes_u2 _).bind ((consumes_u2 _).last rfl)
  | methodHandle kind index => exact (consumes_u1 kind).bind ((consumes_u2 _).last rfl)

/-- Indices do not make a constant wide. -/
theorem narrow_of_mem :
    ∀ tag ∈ oneIndex ++ twoIndices, tag ≠ .placeholder ∧ tag ≠ .long ∧ tag ≠ .double := by
  decide

theorem tag?_entry (c : Constant) : c.entry.tag? = some c.tag := by
  have htag : c.entry.tag = c.tag.byte := by cases c <;> rfl
  rw [Entry.tag?, htag, Tag.ofByte?_byte]

theorem tag_ne_placeholder (c : Constant) : c.tag ≠ .placeholder := by
  cases c with
  | one tag kind index => exact (narrow_of_mem tag (List.mem_append_left _ kind)).1
  | two tag kind first second => exact (narrow_of_mem tag (List.mem_append_right _ kind)).1
  | _ => exact nofun

theorem isWide_entry (c : Constant) : c.entry.isWide = c.isWide := by
  rw [Entry.isWide, tag?_entry]
  cases c with
  | one tag kind index => simp [Constant.tag, Constant.isWide, narrow_of_mem tag (by simp [kind])]
  | two tag kind first second =>
    simp [Constant.tag, Constant.isWide, narrow_of_mem tag (by simp [kind])]
  | _ => rfl

/-- Constants are read until their slots are filled. -/
theorem consumes_constants (cs : List Constant) (index : Nat) :
    Consumes (constants (cs.flatMap Constant.slots).length index) (cs.flatMap Constant.bytes)
      (cs.flatMap Constant.slots) := by
  induction cs generalizing index with
  | nil => exact consumes_pure []
  | cons c rest ih =>
    rw [List.flatMap_cons, List.flatMap_cons, Constant.slots]
    have hwide := isWide_entry c
    cases h : c.isWide with
    | true =>
      rw [h] at hwide
      rw [if_pos rfl, List.cons_append, List.cons_append, List.nil_append, List.length_cons,
        List.length_cons]
      refine (consumes_constant c index).bind ?_
      rw [if_pos hwide]
      exact (ih (index + 2)).last rfl
    | false =>
      rw [h] at hwide
      rw [if_neg Bool.false_ne_true, List.cons_append, List.nil_append, List.length_cons, constants]
      refine (consumes_constant c index).bind ?_
      rw [if_neg (by rw [hwide]; exact Bool.false_ne_true)]
      exact (ih (index + 1)).last rfl

/-- Behind a narrow entry, exactly the entries behind a wide one are placeholders. -/
theorem placeholder_iff_behind_wide (cs : List Constant) {front : Entry}
    (hfront : front.isWide = false) {i : Nat} {e : Entry}
    (he : (front :: cs.flatMap Constant.slots)[i + 1]? = some e) :
    e.tag? = some .placeholder ↔ ∃ before,
      (front :: cs.flatMap Constant.slots)[i]? = some before ∧ before.isWide = true := by
  induction cs generalizing front i with
  | nil => cases he
  | cons c rest ih =>
    have hplain : c.entry.tag? ≠ some .placeholder := by
      rw [tag?_entry]
      exact fun h => tag_ne_placeholder c (Option.some.inj h)
    have hwide := isWide_entry c
    rw [List.flatMap_cons, Constant.slots] at he ⊢
    cases h : c.isWide with
    | false =>
      rw [h] at hwide he
      cases i with
      | zero =>
        cases he
        exact iff_of_false hplain (by simp [hfront])
      | succ i => exact ih hwide he
    | true =>
      rw [h] at hwide he
      match i with
      | 0 =>
        cases he
        exact iff_of_false hplain (by simp [hfront])
      | 1 =>
        cases he
        exact iff_of_true rfl ⟨c.entry, rfl, hwide⟩
      | i + 2 => exact @ih .placeholder rfl _ he

theorem consumes_readPool {cs : List Constant} (room : (poolOf cs).size < 65536) :
    Consumes readPool
      (word2 (UInt16.ofNat (poolOf cs).size) ++ cs.flatMap Constant.bytes) (poolOf cs) := by
  refine (consumes_u2 _).bind (Consumes.last ?_ rfl)
  rw [UInt16.toNat_ofNat_of_lt' room]
  exact consumes_constants cs 1

/-! ## Attributes -/

theorem consumes_skipAttribute (a : RawAttribute) : Consumes skipAttribute a.bytes () := by
  have hcontents : Consumes (u4 >>= fun length => take length.toNat >>= fun _ => pure ())
      (sized a.contents ++ []) () := .sized _ (consumes_pure ())
  rw [List.append_nil] at hcontents
  exact (consumes_u2 _).bind hcontents

theorem consumes_skipAttributes (attributes : Counted RawAttribute) :
    Consumes skipAttributes (counted RawAttribute.bytes attributes) () := by
  have hattributes : Consumes (u2 >>= fun count => times (fun _ => skipAttribute) count.toNat 0 >>=
      fun _ => pure ()) (counted RawAttribute.bytes attributes ++ []) () :=
    .counted (v := fun _ => ()) (fun _ => consumes_skipAttribute) _ (consumes_pure ())
  rwa [List.append_nil] at hattributes

theorem length_handlers (handlers : List Handler) :
    (handlers.flatMap Handler.bytes).length = handlers.length * 8 := by
  induction handlers with
  | nil => rfl
  | cons h rest ih =>
    rw [List.flatMap_cons, List.length_append, ih, List.length_cons, Nat.succ_mul, Nat.add_comm]
    rfl

theorem consumes_codeBody (c : CodeLayout) : Consumes codeBody c.bytes c.body := by
  refine (consumes_u2 _).bind ((consumes_u2 _).bind (Consumes.sized c.code ?_))
  have hhandlers : Consumes (take ((UInt16.ofNat c.handlers.1.length).toNat * 8))
      (c.handlers.1.flatMap Handler.bytes) (c.handlers.1.flatMap Handler.bytes) := by
    refine consumes_take ?_
    rw [UInt16.toNat_ofNat_of_lt' c.handlers.2, length_handlers]
  rw [counted, List.append_assoc]
  exact (consumes_u2 _).bind (hhandlers.bind ((consumes_skipAttributes c.attributes).last rfl))

theorem consumes_methodAttribute {p : Pool} (method : Bytes) (a : MethodAttribute p) :
    Consumes (methodAttribute p method) a.bytes a.body? := by
  cases a with
  | code name isCode layout fits =>
    refine (consumes_u2 _).bind (Consumes.lookUp name.found _ ?_)
    rw [← List.append_nil (sized _)]
    refine Consumes.sized _ ?_
    rw [if_pos isCode]
    exact ((consumes_codeBody layout).inBody.within _).last rfl
  | other name isOther contents =>
    refine (consumes_u2 _).bind (Consumes.lookUp name.found _ ?_)
    rw [← List.append_nil (sized _)]
    refine Consumes.sized _ ?_
    rw [if_neg isOther]
    exact consumes_pure none

/-! ## Fields and methods -/

theorem consumes_skipField (i : Nat) (f : FieldLayout) : Consumes (skipField i) f.bytes () := by
  have hhead : Consumes (take 6) (word2 f.access ++ (word2 f.name ++ word2 f.descriptor))
      (word2 f.access ++ (word2 f.name ++ word2 f.descriptor)) := consumes_take rfl
  have hfield := hhead.bind (k := fun _ => within (.field i) skipAttributes)
    ((consumes_skipAttributes f.attributes).within _)
  rwa [List.append_assoc, List.append_assoc] at hfield

/-- The last of the bodies is kept. -/
theorem lastCode_eq (codes : List (Option CodeBody)) :
    lastCode codes = (codes.filterMap id).getLast? := by
  unfold lastCode
  induction codes using List.reverseRecOn with
  | nil => rfl
  | append_singleton codes c ih =>
    rw [List.foldl_append, ih, List.filterMap_append]
    cases c with
    | none => simp
    | some body => simp

theorem consumes_readMethod {p : Pool} (m : MethodLayout p) :
    Consumes (readMethod p) m.bytes m.info := by
  refine (consumes_u2 _).bind ((consumes_u2 _).bind (Consumes.lookUp m.name.found _ ?_))
  refine (consumes_u2 _).bind (Consumes.lookUp m.descriptor.found _ ?_)
  rw [← List.append_nil (counted _ _)]
  refine Consumes.counted (fun _ => consumes_methodAttribute m.name.text) m.attributes ?_
  rw [lastCode_eq, List.filterMap_map]
  exact consumes_pure _

/-! ## Classes -/

/-- Nothing stands in slot 0. -/
theorem NameIndex.index_ne_zero {p : Pool} (name : NameIndex p) : name.index ≠ 0 := by
  intro hzero
  have hresolves := name.resolves
  rw [hzero, Pool.resolve, Pool.resolveWithin] at hresolves
  cases hresolves

theorem consumes_readSuper {p : Pool} (superName : Option (NameIndex p)) :
    Consumes (readSuper p) (word2 ((superName.map NameIndex.index).getD 0))
      ((superName.map NameIndex.text).getD []) := by
  refine (consumes_u2 _).last ?_
  cases superName with
  | none => rfl
  | some name =>
    change (if name.index = 0 then _ else lookUp .superClass (p.resolve name.index)) = _
    rw [if_neg name.index_ne_zero, name.resolves]
    rfl

theorem consumes_readInterface {p : Pool} (i : Nat) (name : NameIndex p) :
    Consumes (readInterface p i) (word2 name.index) name.text := by
  refine (consumes_u2 _).last ?_
  rw [name.resolves]
  rfl

theorem consumes_readClass (l : Layout) : Consumes readClass l.bytes l.classFile := by
  refine (consumes_u4 _).bind ?_
  refine (consumes_u2 l.minor).bind ((consumes_u2 l.major).bind ?_)
  refine ((consumes_readPool l.room).within _).bind ((consumes_u2 l.access).bind ?_)
  refine (consumes_u2 l.name.index).bind (Consumes.lookUp l.name.resolves _ ?_)
  refine (consumes_readSuper l.superName).bind ?_
  refine Consumes.counted consumes_readInterface l.interfaces ?_
  refine Consumes.counted (v := fun _ => ()) consumes_skipField l.fields ?_
  refine Consumes.counted (fun i m => (consumes_readMethod m).within (.method i)) l.methods ?_
  exact ((consumes_skipAttributes l.attributes).within _).last rfl

/-- The bytes of a layout are read as its class, whatever follows them. In the pool of the class
exactly slot 0 and the slots behind constants of 64 bits are unused. -/
theorem parse_layout (l : Layout) (rest : Bytes) :
    parse (l.bytes ++ rest) = .ok l.classFile ∧
    ∀ i e, l.classFile.pool.entries[i]? = some e →
      (e.tag? = some .placeholder ↔
        i = 0 ∨ ∃ before, l.classFile.pool.entries[i - 1]? = some before ∧
          before.isWide = true) := by
  refine ⟨?_, fun i e he => ?_⟩
  · rw [parse, consumes_readClass l rest 0]
    rfl
  · have hentries : l.classFile.pool.entries =
        (Entry.placeholder :: l.constants.flatMap Constant.slots).toArray := rfl
    rw [hentries] at he ⊢
    rw [List.getElem?_toArray] at he ⊢
    cases i with
    | zero =>
      cases he
      exact iff_of_true rfl (.inl rfl)
    | succ i =>
      rw [placeholder_iff_behind_wide l.constants rfl he]
      simp

/-! ## A layout with all parts -/

/-- Two names, a class, constants of 64 bits in the middle and at the end, and a method type. -/
def sampleConstants : List Constant :=
  [.utf8 "Code" (by decide), .utf8 "A" (by decide), .one .classRef (by decide) 2, .long (-1),
    .two .nameAndType (by decide) 2 2, .methodHandle 6 7, .float 0x7F800001,
    .double 0x3FF8000000000000]

def samplePool : Pool := poolOf sampleConstants

def sampleName : NameIndex samplePool := ⟨3, "A", by decide +kernel⟩

def sampleText : TextIndex samplePool := ⟨2, "A", by decide +kernel⟩

def codeText : TextIndex samplePool := ⟨1, "Code", by decide +kernel⟩

def sampleAttribute : RawAttribute := ⟨65535, ⟨[0xCA, 0xFE], by decide⟩⟩

/-- Code of one byte with an exception handler and an attribute of its own. -/
def sampleCode (byte : UInt8) : CodeLayout :=
  { maxStack := 1, maxLocals := 2, code := ⟨[byte], (by decide : 1 < 4294967296)⟩
    handlers := ⟨[⟨0, 1, 0, 3⟩], by decide⟩, attributes := ⟨[sampleAttribute], by decide⟩ }

/-- A class with a field, an interface, and a method whose code is given twice. -/
def sampleLayout : Layout where
  minor := 3
  major := 52
  constants := sampleConstants
  room := by decide +kernel
  access := 0x21
  name := sampleName
  superName := none
  interfaces := ⟨[sampleName], by decide⟩
  fields := ⟨[⟨2, 2, 2, ⟨[sampleAttribute, sampleAttribute], by decide⟩⟩], by decide⟩
  methods := ⟨[{ access := 9, name := sampleText, descriptor := codeText
                 attributes := ⟨[.code codeText rfl (sampleCode 0xAC) (by decide +kernel),
                   .other sampleText (by decide) ⟨[1], by decide⟩,
                   .code codeText rfl (sampleCode 0xB1) (by decide +kernel)], by decide⟩ }],
    by decide⟩
  attributes := ⟨[sampleAttribute], by decide⟩

theorem parse_layout_sample :
    parse (sampleLayout.bytes ++ [0]) = .ok sampleLayout.classFile ∧
      sampleLayout.classFile.pool.size = 11 ∧
      sampleLayout.classFile.methods.map MethodInfo.code = [some ⟨1, 2, [0xB1]⟩] :=
  ⟨(parse_layout sampleLayout [0]).1, by decide +kernel, by decide +kernel⟩

end MiniJvm.ClassFile
