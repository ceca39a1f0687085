import MiniJvm.ClassFile.Reader

/-!
# The layout of class files

A class file as a record and as bytes. Numbers have their highest byte first, every list stands
behind its length in two bytes, and the contents of an attribute stand behind their length in four.
Constants are numbered from one, and one of 64 bits takes two numbers. Indices that have to lead to
a name carry the name, so a record is always the layout of a class (`Layout.classFile`).
-/

namespace MiniJvm.ClassFile

open Bytes (bigEndian)

/-! ## Numbers and lists -/

def word2 (n : UInt16) : Bytes := bigEndian 2 n.toNat

def word4 (n : UInt32) : Bytes := bigEndian 4 n.toNat

def word8 (n : UInt64) : Bytes := bigEndian 8 n.toNat

/-- A list whose length has two bytes. -/
abbrev Counted (α : Type) := { items : List α // items.length < 65536 }

/-- The number of the items and the items one after another. -/
def counted {α : Type} (item : α → Bytes) (items : Counted α) : Bytes :=
  word2 (UInt16.ofNat items.1.length) ++ items.1.flatMap item

/-- Contents whose length has four bytes. -/
abbrev Contents := { bytes : Bytes // bytes.length < 4294967296 }

def sized (contents : Contents) : Bytes :=
  word4 (UInt32.ofNat contents.1.length) ++ contents.1

/-! ## Constants -/

/-- The kinds of constants that hold one index. -/
def oneIndex : List Tag := [.classRef, .stringRef, .methodType, .module, .package]

/-- The kinds of constants that hold two indices. -/
def twoIndices : List Tag :=
  [.fieldRef, .methodRef, .interfaceMethodRef, .nameAndType, .dynamic, .invokeDynamic]

/-- A constant. Floating point numbers are given by their bits. -/
inductive Constant where
  | utf8 (text : Bytes) (short : text.length < 65536)
  | integer (value : Int32)
  | float (bits : UInt32)
  | long (value : Int64)
  | double (bits : UInt64)
  | one (tag : Tag) (kind : tag ∈ oneIndex) (index : UInt16)
  | two (tag : Tag) (kind : tag ∈ twoIndices) (first second : UInt16)
  | methodHandle (kind : UInt8) (index : UInt16)
  deriving DecidableEq

namespace Constant

def tag : Constant → Tag
  | .utf8 .. => .utf8
  | .integer _ => .integer
  | .float _ => .float
  | .long _ => .long
  | .double _ => .double
  | .one tag .. | .two tag .. => tag
  | .methodHandle .. => .methodHandle

def operands : Constant → Bytes
  | .utf8 text _ => word2 (UInt16.ofNat text.length) ++ text
  | .integer value => word4 value.toUInt32
  | .float bits => word4 bits
  | .long value => word8 value.toUInt64
  | .double bits => word8 bits
  | .one _ _ index => word2 index
  | .two _ _ first second => word2 first ++ word2 second
  | .methodHandle kind index => kind :: word2 index

def bytes (c : Constant) : Bytes := c.tag.byte :: c.operands

def entry : Constant → Entry
  | .utf8 text _ => .utf8 text
  | .integer value => .integer value
  | .float bits => .single (.ofSingle bits)
  | .long value => .long value
  | .double bits => .double (.ofBits bits)
  | .one tag _ index => { tag := tag.byte, index1 := index }
  | .two tag _ first second => { tag := tag.byte, index1 := first, index2 := second }
  | .methodHandle kind index => { tag := Tag.methodHandle.byte, index1 := index, kind }

def isWide : Constant → Bool
  | .long _ | .double _ => true
  | _ => false

/-- The slots of the constant. One of 64 bits leaves its second slot unused. -/
def slots (c : Constant) : List Entry := if c.isWide then [c.entry, .placeholder] else [c.entry]

end Constant

/-- The pool of constants that are numbered one after another. -/
def poolOf (constants : List Constant) : Pool :=
  ⟨(Entry.placeholder :: constants.flatMap Constant.slots).toArray⟩

/-! ## Names -/

/-- An index whose constant has a text. -/
structure NameIndex (p : Pool) where
  index : UInt16
  text : Bytes
  resolves : p.resolve index = .ok text

/-- The index of a Utf8 constant. -/
structure TextIndex (p : Pool) where
  index : UInt16
  text : Bytes
  found : p.utf8 index = .ok text

/-! ## Attributes, fields and methods -/

/-- An attribute that is skipped. Its name may be any number. -/
structure RawAttribute where
  name : UInt16
  contents : Contents

def RawAttribute.bytes (a : RawAttribute) : Bytes := word2 a.name ++ sized a.contents

/-- A range of code with the place that handles the exceptions of a class in it. -/
structure Handler where
  start : UInt16
  stop : UInt16
  handler : UInt16
  caught : UInt16

def Handler.bytes (h : Handler) : Bytes :=
  word2 h.start ++ (word2 h.stop ++ (word2 h.handler ++ word2 h.caught))

/-- What a `Code` attribute contains. -/
structure CodeLayout where
  maxStack : UInt16
  maxLocals : UInt16
  code : Contents
  handlers : Counted Handler
  attributes : Counted RawAttribute

def CodeLayout.bytes (c : CodeLayout) : Bytes :=
  word2 c.maxStack ++ (word2 c.maxLocals ++ (sized c.code ++
    (counted Handler.bytes c.handlers ++ counted RawAttribute.bytes c.attributes)))

def CodeLayout.body (c : CodeLayout) : CodeBody := ⟨c.maxStack, c.maxLocals, c.code.1⟩

/-- An attribute of a method: one named `Code`, which contains code, or one with any other name. -/
inductive MethodAttribute (p : Pool) where
  | code (name : TextIndex p) (isCode : name.text = ("Code" : Bytes)) (layout : CodeLayout)
      (fits : layout.bytes.length < 4294967296)
  | other (name : TextIndex p) (isOther : name.text ≠ ("Code" : Bytes)) (contents : Contents)

namespace MethodAttribute

variable {p : Pool}

def bytes : MethodAttribute p → Bytes
  | .code name _ layout fits => word2 name.index ++ sized ⟨layout.bytes, fits⟩
  | .other name _ contents => word2 name.index ++ sized contents

def body? : MethodAttribute p → Option CodeBody
  | .code _ _ layout _ => some layout.body
  | .other .. => none

end MethodAttribute

structure FieldLayout where
  access : UInt16
  name : UInt16
  descriptor : UInt16
  attributes : Counted RawAttribute

def FieldLayout.bytes (f : FieldLayout) : Bytes :=
  word2 f.access ++ (word2 f.name ++ (word2 f.descriptor ++
    counted RawAttribute.bytes f.attributes))

structure MethodLayout (p : Pool) where
  access : UInt16
  name : TextIndex p
  descriptor : TextIndex p
  attributes : Counted (MethodAttribute p)

namespace MethodLayout

variable {p : Pool}

def bytes (m : MethodLayout p) : Bytes :=
  word2 m.access ++ (word2 m.name.index ++ (word2 m.descriptor.index ++
    counted MethodAttribute.bytes m.attributes))

/-- The method: its code is that of its last `Code` attribute. -/
def info (m : MethodLayout p) : MethodInfo :=
  { access := m.access, name := m.name.text, descriptor := m.descriptor.text
    code := (m.attributes.1.filterMap MethodAttribute.body?).getLast? }

end MethodLayout

/-! ## Classes -/

structure Layout where
  minor : UInt16
  major : UInt16
  constants : List Constant
  /-- The number of slots has two bytes. -/
  room : (poolOf constants).size < 65536
  access : UInt16
  name : NameIndex (poolOf constants)
  /-- The super class, if there is one. -/
  superName : Option (NameIndex (poolOf constants))
  interfaces : Counted (NameIndex (poolOf constants))
  fields : Counted FieldLayout
  methods : Counted (MethodLayout (poolOf constants))
  attributes : Counted RawAttribute

namespace Layout

def pool (l : Layout) : Pool := poolOf l.constants

/-- The index of the super class; 0 stands for none. -/
def superIndex (l : Layout) : UInt16 := (l.superName.map NameIndex.index).getD 0

def bytes (l : Layout) : Bytes :=
  word4 0xCAFEBABE ++ (word2 l.minor ++ (word2 l.major ++
    ((word2 (UInt16.ofNat l.pool.size) ++ l.constants.flatMap Constant.bytes) ++
    (word2 l.access ++ (word2 l.name.index ++ (word2 l.superIndex ++
    (counted (fun i => word2 i.index) l.interfaces ++
    (counted FieldLayout.bytes l.fields ++
    (counted MethodLayout.bytes l.methods ++ counted RawAttribute.bytes l.attributes)))))))))

def classFile (l : Layout) : ClassFile :=
  { minor := l.minor, major := l.major, pool := l.pool, access := l.access, name := l.name.text
    superName := (l.superName.map NameIndex.text).getD []
    interfaces := l.interfaces.1.map NameIndex.text
    methods := l.methods.1.map MethodLayout.info }

end Layout

end MiniJvm.ClassFile
