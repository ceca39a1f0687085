import Mathlib
import MiniJvm.Proofs.Image.Record

/-!
# Storing and reading back

An image that is written and read back is the same but for its constants: of the two zeros one is
kept, and all NaNs are one. What was never given stays apart from what is empty. An image and what
is read back of it have the same bytes, and no two images with the same bytes differ in more than
that.
-/

namespace MiniJvm

open Cbor Image

/-! ## What is kept -/

/-- The entry as it is kept: with one NaN and one zero for all. -/
def Entry.normal (e : Entry) : Entry := { e with float := e.float.normal }

def ClassDef.normal (c : ClassDef) : ClassDef :=
  { c with pool := c.pool.map (List.map Entry.normal) }

def Image.normal (i : Image) : Image :=
  { i with classes := i.classes.map (List.map ClassDef.normal) }

/-- A text of a length that has 64 bits. -/
def SizedText (s : Bytes) : Prop := s.length < 18446744073709551616

/-- A text that can be stored: UTF-8, of a length that has 64 bits. -/
def StorableText (s : Bytes) : Prop := Utf8.valid s = true ∧ s.length < 18446744073709551616

/-- A list within the limit of what is read, or one that was never given. -/
def StorableList {α : Type} (items : Option (List α)) : Prop :=
  (items.getD []).length ≤ maxElements

instance (s : Bytes) : Decidable (StorableText s) := inferInstanceAs (Decidable (_ ∧ _))

instance {α : Type} (items : Option (List α)) : Decidable (StorableList items) :=
  inferInstanceAs (Decidable (_ ≤ _))

/-- A method whose texts and lists are within the limits of what is written. -/
structure MethodDef.Sized (m : MethodDef) : Prop where
  name : SizedText m.name
  descriptor : SizedText m.descriptor
  code : StorableList m.code

structure MethodDef.Storable (m : MethodDef) : Prop where
  name : StorableText m.name
  descriptor : StorableText m.descriptor
  code : StorableList m.code

instance (m : MethodDef) : Decidable m.Storable :=
  decidable_of_iff
    (StorableText m.name ∧ StorableText m.descriptor ∧ StorableList m.code)
    ⟨fun ⟨name, descriptor, code⟩ => ⟨name, descriptor, code⟩,
      fun h => ⟨h.name, h.descriptor, h.code⟩⟩

theorem MethodDef.Storable.sized {m : MethodDef} (h : m.Storable) : m.Sized :=
  ⟨h.name.2, h.descriptor.2, h.code⟩

/-- A class whose texts and lists are within the limits of what is written. -/
structure ClassDef.Sized (c : ClassDef) : Prop where
  name : SizedText c.name
  superName : SizedText c.superName
  pool : StorableList c.pool
  texts : ∀ e ∈ c.constants, SizedText e.text
  methods : StorableList c.methods
  each : ∀ m ∈ c.methodList, m.Sized

/-- A class whose texts and lists can be stored. -/
structure ClassDef.Storable (c : ClassDef) : Prop where
  name : StorableText c.name
  superName : StorableText c.superName
  pool : StorableList c.pool
  texts : ∀ e ∈ c.constants, StorableText e.text
  methods : StorableList c.methods
  each : ∀ m ∈ c.methodList, m.Storable

instance (c : ClassDef) : Decidable c.Storable :=
  decidable_of_iff
    (StorableText c.name ∧ StorableText c.superName ∧ StorableList c.pool ∧
      (∀ e ∈ c.constants, StorableText e.text) ∧ StorableList c.methods ∧
      ∀ m ∈ c.methodList, m.Storable)
    ⟨fun ⟨name, superName, pool, texts, methods, each⟩ =>
        ⟨name, superName, pool, texts, methods, each⟩,
      fun h => ⟨h.name, h.superName, h.pool, h.texts, h.methods, h.each⟩⟩

theorem ClassDef.Storable.sized {c : ClassDef} (h : c.Storable) : c.Sized :=
  ⟨h.name.2, h.superName.2, h.pool, fun e he => (h.texts e he).2, h.methods,
    fun m hm => (h.each m hm).sized⟩

/-- An image whose texts and lists are within the limits of what is written. -/
structure Image.Sized (i : Image) : Prop where
  entry : SizedText i.entry
  classes : StorableList i.classes
  each : ∀ c ∈ i.classList, c.Sized

/-- An image of the current version whose texts and lists can be stored. -/
structure Image.Storable (i : Image) : Prop where
  version : i.version = currentVersion
  entry : StorableText i.entry
  classes : StorableList i.classes
  each : ∀ c ∈ i.classList, c.Storable

instance (i : Image) : Decidable i.Storable :=
  decidable_of_iff
    (i.version = currentVersion ∧ StorableText i.entry ∧ StorableList i.classes ∧
      ∀ c ∈ i.classList, c.Storable)
    ⟨fun ⟨version, entry, classes, each⟩ => ⟨version, entry, classes, each⟩,
      fun h => ⟨h.version, h.entry, h.classes, h.each⟩⟩

theorem Image.Storable.sized {i : Image} (h : i.Storable) : i.Sized :=
  ⟨h.entry.2, h.classes, fun c hc => (h.each c hc).sized⟩

namespace Image

/-! ## Instructions -/

def instructionSlots (i : Instruction) : List Slot :=
  [⟨1, false, .unsigned i.op.byte.toNat⟩, ⟨2, i.a = 0, itemOfInt i.a.toInt⟩,
    ⟨3, i.b = 0, itemOfInt i.b.toInt⟩]

theorem itemOfInstruction_eq (i : Instruction) :
    itemOfInstruction i = .map (record (instructionSlots i)) := by
  simp [itemOfInstruction, instructionSlots, record, unlessZero]

theorem instructionOfItem_itemOfInstruction (i : Instruction) :
    instructionOfItem (itemOfInstruction i) = some i := by
  have hnodup : ((instructionSlots i).map Slot.number).Nodup := (by decide : [1, 2, 3].Nodup)
  have hop : field (written (instructionSlots i)) 1 fillUInt8 = some i.op.byte :=
    field_written hnodup 0 rfl (.always (fillUInt8_unsigned _))
  have ha : field (written (instructionSlots i)) 2 fillInt32 = some i.a :=
    field_written hnodup 1 rfl (.unlessZero (fillInt32_itemOfInt _) rfl)
  have hb : field (written (instructionSlots i)) 3 fillInt32 = some i.b :=
    field_written hnodup 2 rfl (.unlessZero (fillInt32_itemOfInt _) rfl)
  rw [itemOfInstruction_eq, instructionOfItem, fillFields_record (by simp [instructionSlots])]
  simp only [Option.bind_eq_bind, Option.bind_some, hop, ha, hb]
  rfl

theorem readable_instruction (depth : Nat) (i : Instruction) :
    Readable (depth + 1) (itemOfInstruction i) := by
  rw [itemOfInstruction_eq]
  refine readable_record (Nat.le_of_ble_eq_true rfl) (by simp [instructionSlots]) ?_
  simp only [instructionSlots, List.forall_mem_cons]
  exact ⟨fun _ => readable_uint8 _ _, fun _ => readable_int32 _ _, fun _ => readable_int32 _ _,
    nofun⟩

/-! ## Entries -/

def entrySlots (e : Entry) : List Slot :=
  [⟨1, false, .unsigned e.tag.toNat⟩, ⟨2, e.index1 = 0, .unsigned e.index1.toNat⟩,
    ⟨3, e.index2 = 0, .unsigned e.index2.toNat⟩, ⟨4, e.kind = 0, .unsigned e.kind.toNat⟩,
    ⟨5, e.int = 0, itemOfInt e.int.toInt⟩, ⟨6, e.float.isZero, .float e.float⟩,
    ⟨7, e.text.isEmpty, itemOfText e.text⟩]

theorem itemOfEntry_eq (e : Entry) : itemOfEntry e = .map (record (entrySlots e)) := by
  simp [itemOfEntry, entrySlots, record, unlessZero]

theorem fills_text {number : Nat} {s : Bytes} (h : StorableText s) :
    Slot.Fills ⟨number, s.isEmpty, itemOfText s⟩ fillText s :=
  ⟨fillText_itemOfText h.1, fun hempty => by rw [List.isEmpty_iff.1 hempty]; rfl⟩

theorem fills_normal (number : Nat) (d : Double) :
    Slot.Fills ⟨number, d.normal.isZero, .float d.normal⟩ fillDouble d.normal := by
  refine ⟨rfl, fun hzero => ?_⟩
  rw [Double.isZero_normal] at hzero
  rw [Double.normal_of_isZero hzero]
  rfl

theorem entryOfItem_itemOfEntry {e : Entry} (h : StorableText e.text) :
    entryOfItem (itemOfEntry e.normal) = some e.normal := by
  have hnodup : ((entrySlots e.normal).map Slot.number).Nodup :=
    (by decide : [1, 2, 3, 4, 5, 6, 7].Nodup)
  have htag : field (written (entrySlots e.normal)) 1 fillUInt8 = some e.tag :=
    field_written hnodup 0 rfl (.always (fillUInt8_unsigned _))
  have hindex1 : field (written (entrySlots e.normal)) 2 fillUInt16 = some e.index1 :=
    field_written hnodup 1 rfl (.unlessZero (fillUInt16_unsigned _) rfl)
  have hindex2 : field (written (entrySlots e.normal)) 3 fillUInt16 = some e.index2 :=
    field_written hnodup 2 rfl (.unlessZero (fillUInt16_unsigned _) rfl)
  have hkind : field (written (entrySlots e.normal)) 4 fillUInt8 = some e.kind :=
    field_written hnodup 3 rfl (.unlessZero (fillUInt8_unsigned _) rfl)
  have hint : field (written (entrySlots e.normal)) 5 fillInt64 = some e.int :=
    field_written hnodup 4 rfl (.unlessZero (fillInt64_itemOfInt _) rfl)
  have hfloat : field (written (entrySlots e.normal)) 6 fillDouble = some e.float.normal :=
    field_written hnodup 5 rfl (fills_normal _ _)
  have htext : field (written (entrySlots e.normal)) 7 fillText = some e.text :=
    field_written hnodup 6 rfl (fills_text h)
  rw [itemOfEntry_eq, entryOfItem, fillFields_record (by simp [entrySlots])]
  simp only [Option.bind_eq_bind, Option.bind_some, htag, hindex1, hindex2, hkind, hint, hfloat,
    htext]
  rfl

theorem readable_text (depth : Nat) {s : Bytes} (h : SizedText s) :
    Readable depth (itemOfText s) := .text h

theorem readable_entry (depth : Nat) {e : Entry} (h : SizedText e.text) :
    Readable (depth + 1) (itemOfEntry e.normal) := by
  rw [itemOfEntry_eq]
  refine readable_record (Nat.le_of_ble_eq_true rfl) (by simp [entrySlots]) ?_
  simp only [entrySlots, List.forall_mem_cons]
  exact ⟨fun _ => readable_uint8 _ _, fun _ => readable_uint16 _ _, fun _ => readable_uint16 _ _,
    fun _ => readable_uint8 _ _, fun _ => readable_int64 _ _,
    fun _ => .float (Double.quieted_normal _), fun _ => readable_text _ h, nofun⟩

theorem encode_itemOfEntry_normal (e : Entry) :
    (itemOfEntry e.normal).encode = (itemOfEntry e).encode := by
  rw [itemOfEntry_eq, itemOfEntry_eq]
  refine encode_record_congr ?_
  have hfloat : Alike ⟨6, e.float.normal.isZero, .float e.float.normal⟩
      ⟨6, e.float.isZero, .float e.float⟩ := by
    refine ⟨rfl, Double.isZero_normal _, fun hzero => ?_⟩
    have hzero : e.float.isZero = false := (Double.isZero_normal _).symm.trans hzero
    rw [Double.normal_of_isZero_eq_false hzero, Item.encode, encodeFloat_quieted, Item.encode]
  exact .cons (.refl _) (.cons (.refl _) (.cons (.refl _) (.cons (.refl _) (.cons (.refl _)
    (.cons hfloat (.cons (.refl _) .nil))))))

/-! ## Methods -/

def methodSlots (m : MethodDef) : List Slot :=
  [⟨1, false, itemOfText m.name⟩, ⟨2, false, itemOfText m.descriptor⟩,
    ⟨3, false, itemOfInt m.maxStack.toInt⟩, ⟨4, false, itemOfInt m.maxLocals.toInt⟩,
    ⟨5, false, itemOfList itemOfInstruction m.code⟩]

theorem itemOfMethod_eq (m : MethodDef) : itemOfMethod m = .map (record (methodSlots m)) := by
  simp [itemOfMethod, methodSlots, record, unlessZero]

theorem methodOfItem_itemOfMethod {m : MethodDef} (h : m.Storable) :
    methodOfItem (itemOfMethod m) = some m := by
  have hnodup : ((methodSlots m).map Slot.number).Nodup := (by decide : [1, 2, 3, 4, 5].Nodup)
  have hname : field (written (methodSlots m)) 1 fillText = some m.name :=
    field_written hnodup 0 rfl (.always (fillText_itemOfText h.name.1))
  have hdescriptor : field (written (methodSlots m)) 2 fillText = some m.descriptor :=
    field_written hnodup 1 rfl (.always (fillText_itemOfText h.descriptor.1))
  have hstack : field (written (methodSlots m)) 3 fillInt64 = some m.maxStack :=
    field_written hnodup 2 rfl (.always (fillInt64_itemOfInt _))
  have hlocals : field (written (methodSlots m)) 4 fillInt64 = some m.maxLocals :=
    field_written hnodup 3 rfl (.always (fillInt64_itemOfInt _))
  have hcode : field (written (methodSlots m)) 5 (fillList instructionOfItem) = some m.code :=
    field_written hnodup 4 rfl
      (.always (fillList_itemOfList fun i _ => instructionOfItem_itemOfInstruction i))
  rw [itemOfMethod_eq, methodOfItem, fillFields_record (by simp [methodSlots])]
  simp only [Option.bind_eq_bind, Option.bind_some, hname, hdescriptor, hstack, hlocals, hcode]
  rfl

theorem readable_method (depth : Nat) {m : MethodDef} (h : m.Sized) :
    Readable (depth + 3) (itemOfMethod m) := by
  rw [itemOfMethod_eq]
  refine readable_record (Nat.le_of_ble_eq_true rfl) (by simp [methodSlots]) ?_
  simp only [methodSlots, List.forall_mem_cons]
  exact ⟨fun _ => readable_text _ h.name, fun _ => readable_text _ h.descriptor,
    fun _ => readable_int64 _ _, fun _ => readable_int64 _ _,
    fun _ => readable_itemOfList h.code fun i _ => readable_instruction _ i, nofun⟩

/-! ## Classes -/

def classSlots (c : ClassDef) : List Slot :=
  [⟨1, false, itemOfText c.name⟩, ⟨2, c.superName.isEmpty, itemOfText c.superName⟩,
    ⟨3, false, itemOfList itemOfEntry c.pool⟩, ⟨4, false, itemOfList itemOfMethod c.methods⟩]

theorem itemOfClass_eq (c : ClassDef) : itemOfClass c = .map (record (classSlots c)) := by
  simp [itemOfClass, classSlots, record, unlessZero]

section Lists

variable {α : Type} {change : α → α} {items : Option (List α)}

theorem forall_mem_map_change {P : α → Prop} (h : ∀ x ∈ items.getD [], P (change x)) :
    ∀ x ∈ (items.map (List.map change)).getD [], P x := by
  cases items with
  | none => nofun
  | some items => exact List.forall_mem_map.2 h

theorem storableList_map (h : StorableList items) :
    StorableList (items.map (List.map change)) := by
  cases items with
  | none => exact h
  | some items => simpa [StorableList] using h

end Lists

theorem classOfItem_itemOfClass {c : ClassDef} (h : c.Storable) :
    classOfItem (itemOfClass c.normal) = some c.normal := by
  have hnodup : ((classSlots c.normal).map Slot.number).Nodup := (by decide : [1, 2, 3, 4].Nodup)
  have hname : field (written (classSlots c.normal)) 1 fillText = some c.name :=
    field_written hnodup 0 rfl (.always (fillText_itemOfText h.name.1))
  have hsuper : field (written (classSlots c.normal)) 2 fillText = some c.superName :=
    field_written hnodup 1 rfl (fills_text h.superName)
  have hpool : field (written (classSlots c.normal)) 3 (fillList entryOfItem) =
      some c.normal.pool :=
    field_written hnodup 2 rfl (.always (fillList_itemOfList
      (forall_mem_map_change fun e he => entryOfItem_itemOfEntry (h.texts e he))))
  have hmethods : field (written (classSlots c.normal)) 4 (fillList methodOfItem) =
      some c.methods :=
    field_written hnodup 3 rfl (.always (fillList_itemOfList
      fun m hm => methodOfItem_itemOfMethod (h.each m hm)))
  rw [itemOfClass_eq, classOfItem, fillFields_record (by simp [classSlots])]
  simp only [Option.bind_eq_bind, Option.bind_some, hname, hsuper, hpool, hmethods]
  rfl

theorem readable_class (depth : Nat) {c : ClassDef} (h : c.Sized) :
    Readable (depth + 5) (itemOfClass c.normal) := by
  rw [itemOfClass_eq]
  refine readable_record (Nat.le_of_ble_eq_true rfl) (by simp [classSlots]) ?_
  simp only [classSlots, List.forall_mem_cons]
  exact ⟨fun _ => readable_text _ h.name, fun _ => readable_text _ h.superName,
    fun _ => readable_itemOfList (storableList_map h.pool)
      (forall_mem_map_change fun e he => readable_entry _ (h.texts e he)),
    fun _ => readable_itemOfList h.methods fun m hm => readable_method _ (h.each m hm), nofun⟩

theorem encode_itemOfClass_normal (c : ClassDef) :
    (itemOfClass c.normal).encode = (itemOfClass c).encode := by
  rw [itemOfClass_eq, itemOfClass_eq]
  refine encode_record_congr ?_
  have hpool : Alike ⟨3, false, itemOfList itemOfEntry c.normal.pool⟩
      ⟨3, false, itemOfList itemOfEntry c.pool⟩ :=
    ⟨rfl, rfl, fun _ => encode_itemOfList_map encode_itemOfEntry_normal c.pool⟩
  exact .cons (.refl _) (.cons (.refl _) (.cons hpool (.cons (.refl _) .nil)))

/-! ## Images -/

def imageSlots (i : Image) : List Slot :=
  [⟨1, false, .unsigned i.version.toNat⟩, ⟨2, i.entry.isEmpty, itemOfText i.entry⟩,
    ⟨3, false, itemOfList itemOfClass i.classes⟩]

theorem itemOfImage_eq (i : Image) : itemOfImage i = .map (record (imageSlots i)) := by
  simp [itemOfImage, imageSlots, record, unlessZero]

theorem imageOfItem_itemOfImage {i : Image} (h : i.Storable) :
    imageOfItem (itemOfImage i.normal) = some i.normal := by
  have hnodup : ((imageSlots i.normal).map Slot.number).Nodup := (by decide : [1, 2, 3].Nodup)
  have hversion : field (written (imageSlots i.normal)) 1 fillUInt8 = some i.version :=
    field_written hnodup 0 rfl (.always (fillUInt8_unsigned _))
  have hentry : field (written (imageSlots i.normal)) 2 fillText = some i.entry :=
    field_written hnodup 1 rfl (fills_text h.entry)
  have hclasses : field (written (imageSlots i.normal)) 3 (fillList classOfItem) =
      some i.normal.classes :=
    field_written hnodup 2 rfl (.always (fillList_itemOfList
      (forall_mem_map_change fun c hc => classOfItem_itemOfClass (h.each c hc))))
  rw [itemOfImage_eq, imageOfItem, fillFields_record (by simp [imageSlots])]
  simp only [Option.bind_eq_bind, Option.bind_some, hversion, hentry, hclasses]
  rfl

theorem readable_image (depth : Nat) {i : Image} (h : i.Sized) :
    Readable (depth + 7) (itemOfImage i.normal) := by
  rw [itemOfImage_eq]
  refine readable_record (Nat.le_of_ble_eq_true rfl) (by simp [imageSlots]) ?_
  simp only [imageSlots, List.forall_mem_cons]
  exact ⟨fun _ => readable_uint8 _ _, fun _ => readable_text _ h.entry,
    fun _ => readable_itemOfList (storableList_map h.classes)
      (forall_mem_map_change fun c hc => readable_class _ (h.each c hc)), nofun⟩

theorem encode_itemOfImage_normal (i : Image) :
    (itemOfImage i.normal).encode = (itemOfImage i).encode := by
  rw [itemOfImage_eq, itemOfImage_eq]
  refine encode_record_congr ?_
  have hclasses : Alike ⟨3, false, itemOfList itemOfClass i.normal.classes⟩
      ⟨3, false, itemOfList itemOfClass i.classes⟩ :=
    ⟨rfl, rfl, fun _ => encode_itemOfList_map encode_itemOfClass_normal i.classes⟩
  exact .cons (.refl _) (.cons (.refl _) (.cons hclasses .nil))

/-! ## Bytes -/

theorem unmarshalClass_marshalClass {c : ClassDef} (h : c.Storable) :
    unmarshalClass (marshalClass c) = some c.normal := by
  rw [unmarshalClass, marshalClass, ← encode_itemOfClass_normal,
    decode_encode (readable_class 27 h.sized), Option.bind_some, classOfItem_itemOfClass h]

/-- What was written within the limits is read as the item that was written. -/
theorem decode_marshal {i : Image} (h : i.Sized) :
    Cbor.decode i.marshal = some (itemOfImage i.normal) := by
  rw [marshal, ← encode_itemOfImage_normal, decode_encode (readable_image 25 h)]

theorem unmarshal_marshal {i : Image} (h : i.Storable) : unmarshal i.marshal = .ok i.normal := by
  rw [unmarshal, decode_marshal h.sized, Option.bind_some, imageOfItem_itemOfImage h]
  exact if_pos h.version

theorem marshal_normal (i : Image) : i.normal.marshal = i.marshal := encode_itemOfImage_normal i

theorem digest_normal (i : Image) : i.normal.digest = i.digest :=
  congrArg Digest.hex (marshal_normal i)

theorem classList_normal (i : Image) : i.normal.classList = i.classList.map ClassDef.normal := by
  unfold normal classList
  cases i.classes <;> rfl

theorem marshalClass_normal (c : ClassDef) : marshalClass c.normal = marshalClass c :=
  encode_itemOfClass_normal c

theorem marshal_eq_iff {i j : Image} (hi : i.Storable) (hj : j.Storable) :
    i.marshal = j.marshal ↔ i.normal = j.normal := by
  constructor
  · intro h
    have hread := unmarshal_marshal hi
    rw [h, unmarshal_marshal hj] at hread
    exact (Except.ok.inj hread).symm
  · intro h
    rw [← marshal_normal i, h, marshal_normal]

theorem marshalClass_eq_iff {c d : ClassDef} (hc : c.Storable) (hd : d.Storable) :
    marshalClass c = marshalClass d ↔ c.normal = d.normal := by
  constructor
  · intro h
    have hread := unmarshalClass_marshalClass hc
    rw [h, unmarshalClass_marshalClass hd] at hread
    exact (Option.some.inj hread).symm
  · intro h
    rw [← marshalClass_normal c, h, marshalClass_normal]

/-- Written and read back, images and classes are what is kept of them, which has the same bytes
and the same digest again. The bytes of two are equal exactly when the same is kept of both. -/
theorem marshal_faithful :
    (∀ i : Image, i.Storable →
      unmarshal i.marshal = .ok i.normal ∧ i.normal.marshal = i.marshal ∧
      i.normal.digest = i.digest ∧
      ∀ j : Image, j.Storable → (i.marshal = j.marshal ↔ i.normal = j.normal)) ∧
    ∀ c : ClassDef, c.Storable →
      unmarshalClass (marshalClass c) = some c.normal ∧ marshalClass c.normal = marshalClass c ∧
      classDigest c.normal = classDigest c ∧
      ∀ d : ClassDef, d.Storable → (marshalClass c = marshalClass d ↔ c.normal = d.normal) := by
  refine ⟨fun i hi => ⟨unmarshal_marshal hi, marshal_normal i, ?_, fun j hj => ?_⟩,
    fun c hc => ⟨unmarshalClass_marshalClass hc, marshalClass_normal c, ?_, fun d hd => ?_⟩⟩
  · rw [digest, digest, marshal_normal]
  · exact marshal_eq_iff hi hj
  · rw [classDigest, classDigest, marshalClass_normal]
  · exact marshalClass_eq_iff hc hd

/-- A class with constants of all widths, the other zero and a NaN of its own among them, and with
code that was never given beside code that is empty. -/
def mixed : ClassDef :=
  { name := "M", superName := "Base"
    pool := some [.placeholder, .double ⟨0x8000000000000000⟩, .double ⟨0xFFF0000000000001⟩,
      .double ⟨0x3FF8000000000000⟩, .single ⟨0x47EFFFFFE0000000⟩, .double ⟨0x3FB999999999999A⟩,
      .long (-9223372036854775808), .integer (-1), .utf8 [0xC3, 0xA9], .methodRef 24 65535]
    methods := some [⟨"f", "()V", -1, 300, none⟩, ⟨"g", "()V", 0, 0, some []⟩,
      ⟨"h", "()I", 1, 0, some [⟨⟨0xA7⟩, -2147483648, 70000⟩, ⟨⟨0xFF⟩, 0, 0⟩]⟩] }

/-- An image of a class without constants and methods, and of one with both. -/
def assorted : Image := ⟨1, "M.f:()V", some [{ name := "E", methods := some [] }, mixed]⟩

theorem marshal_faithful_assorted :
    assorted.Storable ∧ mixed.Storable ∧ unmarshal assorted.marshal = .ok assorted.normal ∧
    unmarshalClass (marshalClass mixed) = some mixed.normal ∧ assorted.normal ≠ assorted := by
  have hassorted : assorted.Storable := by decide +kernel
  have hmixed : mixed.Storable := by decide +kernel
  exact ⟨hassorted, hmixed, (marshal_faithful.1 _ hassorted).1, (marshal_faithful.2 _ hmixed).1,
    by decide +kernel⟩

end Image

end MiniJvm

/-! ## Images that are not read back

Texts are written as they are, and read only where they are UTF-8. So an image with a constant of
any other text is written, and what was written is not an image. -/

namespace MiniJvm.Image

open Cbor

theorem fillText_invalid {s : Bytes} (h : Utf8.valid s = false) :
    fillText (itemOfText s) = none := by
  simp [fillText, itemOfText, Item.filling, Item.content, h]

/-- A field that is written and cannot be filled is not filled. -/
theorem field_written_none {α : Type} {fill : Item → Option α} {slots : List Slot}
    (hnodup : (slots.map Slot.number).Nodup) (k : Nat) {s : Slot} (hs : slots[k]? = some s)
    (hzero : s.zero = false) (h : fill s.item = none) :
    field (written slots) s.number fill = none := by
  rw [field, lookup_written hnodup (List.mem_of_getElem? hs), hzero]
  exact h

theorem fillList_itemOfList_none {α : Type} {f : α → Item} {fill : Item → Option α}
    {items : Option (List α)} (h : ∃ x ∈ items.getD [], fill (f x) = none) :
    fillList fill (itemOfList f items) = none := by
  have hall {items : List α} (h : ∃ x ∈ items, fill (f x) = none) :
      (items.map f).mapM fill = none := by
    induction items with
    | nil => obtain ⟨x, hx, -⟩ := h; cases hx
    | cons y items ih =>
      rw [List.map_cons, List.mapM_cons]
      obtain ⟨x, hx, hnone⟩ := h
      rcases List.mem_cons.1 hx with rfl | hx
      · rw [hnone]
        rfl
      · rw [ih ⟨x, hx, hnone⟩]
        cases fill (f y) <;> rfl
  cases items with
  | none => obtain ⟨x, hx, -⟩ := h; cases hx
  | some items =>
    have hitems : (items.map f).mapM fill = none := hall h
    simp only [fillList, itemOfList, Item.filling, Item.content, hitems, Option.map_none]

/-- A text that is not UTF-8 is among the constants. -/
def IllFormed (c : ClassDef) : Prop := ∃ e ∈ c.constants, Utf8.valid e.text = false

theorem entryOfItem_invalid {e : Entry} (h : Utf8.valid e.text = false) :
    entryOfItem (itemOfEntry e) = none := by
  have hnodup : ((entrySlots e).map Slot.number).Nodup := (by decide : [1, 2, 3, 4, 5, 6, 7].Nodup)
  have hwritten : e.text.isEmpty = false := by
    cases htext : e.text with
    | nil => rw [htext] at h; cases h
    | cons b rest => rfl
  have htext : field (written (entrySlots e)) 7 fillText = none :=
    field_written_none hnodup 6 rfl hwritten (fillText_invalid h)
  rw [itemOfEntry_eq, entryOfItem, fillFields_record (by simp [entrySlots])]
  simp [htext]

theorem classOfItem_illFormed {c : ClassDef} (h : IllFormed c) :
    classOfItem (itemOfClass c.normal) = none := by
  have hnodup : ((classSlots c.normal).map Slot.number).Nodup := (by decide : [1, 2, 3, 4].Nodup)
  have hentry : ∃ e ∈ c.normal.pool.getD [], entryOfItem (itemOfEntry e) = none := by
    obtain ⟨e, he, hinvalid⟩ := h
    unfold ClassDef.constants at he
    unfold ClassDef.normal
    cases hpool : c.pool with
    | none => rw [hpool] at he; cases he
    | some entries =>
      rw [hpool] at he
      exact ⟨e.normal, List.mem_map_of_mem he, entryOfItem_invalid hinvalid⟩
  have hpool : field (written (classSlots c.normal)) 3 (fillList entryOfItem) = none :=
    field_written_none hnodup 2 rfl rfl (fillList_itemOfList_none hentry)
  rw [itemOfClass_eq, classOfItem, fillFields_record (by simp [classSlots])]
  simp [hpool]

theorem imageOfItem_illFormed {i : Image} (h : ∃ c ∈ i.classList, IllFormed c) :
    imageOfItem (itemOfImage i.normal) = none := by
  have hnodup : ((imageSlots i.normal).map Slot.number).Nodup := (by decide : [1, 2, 3].Nodup)
  have hclass : ∃ c ∈ i.normal.classList, classOfItem (itemOfClass c) = none := by
    obtain ⟨c, hc, hill⟩ := h
    rw [classList_normal]
    exact ⟨c.normal, List.mem_map_of_mem hc, classOfItem_illFormed hill⟩
  have hclasses : field (written (imageSlots i.normal)) 3 (fillList classOfItem) = none :=
    field_written_none hnodup 2 rfl rfl (fillList_itemOfList_none hclass)
  rw [itemOfImage_eq, imageOfItem, fillFields_record (by simp [imageSlots])]
  simp [hclasses]

/-- An image with an ill-formed class is written as any other, and cannot be read. -/
theorem unmarshal_illFormed {i : Image} (hsized : i.Sized) (h : ∃ c ∈ i.classList, IllFormed c) :
    unmarshal i.marshal = .error .malformed := by
  rw [unmarshal, decode_marshal hsized, Option.bind_some, imageOfItem_illFormed h]

end MiniJvm.Image
