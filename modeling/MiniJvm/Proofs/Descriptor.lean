import Mathlib
import MiniJvm.Descriptor

/-!
# The grammar of descriptors

A descriptor is the text of a method type, which can be read off it in one way only. Reading
accepts exactly these texts, and finds the slots of the arguments and whether there is a result
(`parse?_iff_text`).
-/

namespace MiniJvm.Descriptor

/-! ## Slots -/

theorem fieldType_le {s after : Bytes} {size : Nat} (h : fieldType s = some (size, after)) :
    size ≤ 2 := by
  unfold fieldType at h
  split at h
  · cases h
  split at h
  · cases h
    exact Nat.le_refl 2
  split at h
  · split at h
    · cases h
    · split at h
      · cases h
      · cases h
        exact Nat.le_succ 1
  split at h
  · obtain ⟨_, -, hsize⟩ := Option.map_eq_some_iff.1 h
    cases hsize
    exact Nat.le_succ 1
  split at h
  · cases h
    exact Nat.le_succ 1
  · cases h

theorem arguments_le {most slots n : Nat} {s after : Bytes}
    (h : arguments most slots s = some (n, after)) : n ≤ slots + 2 * most := by
  induction most generalizing slots s with
  | zero =>
    unfold arguments at h
    split at h
    · cases h
    · split at h <;> cases h
      exact Nat.le_refl _
  | succ most ih =>
    unfold arguments at h
    split at h
    · cases h
    split at h
    · cases h
      exact Nat.le_add_right ..
    · dsimp only at h
      split at h
      · cases h
      · rename_i hfield
        have hsize := fieldType_le hfield
        have hrest := ih h
        omega

/-- Every byte of a descriptor counts for two slots at most. -/
theorem slots_le {s : Bytes} {d : Descriptor} (h : parse? s = some d) : d.slots ≤ 2 * s.length := by
  unfold parse? at h
  split at h
  · split at h
    · cases h
    · rename_i rest _ slots after hargs
      obtain ⟨void, -, rfl⟩ := Option.map_eq_some_iff.1 h
      have hle := arguments_le hargs
      rw [List.length_cons]
      dsimp only
      omega
  · cases h

/-! ## Types -/

/-- The types with a letter of their own. -/
inductive Primitive where
  | byte
  | char
  | float
  | int
  | short
  | boolean
  | long
  | double
  deriving DecidableEq, Repr

def Primitive.letter : Primitive → UInt8
  | .byte => 66
  | .char => 67
  | .float => 70
  | .int => 73
  | .short => 83
  | .boolean => 90
  | .long => 74
  | .double => 68

def Primitive.slots : Primitive → Nat
  | .long | .double => 2
  | _ => 1

/-- What may stand between `L` and `;`. -/
structure ClassName where
  bytes : Bytes
  nonempty : bytes ≠ []
  closed : 59 ∉ bytes
  deriving DecidableEq, Repr

inductive FieldType where
  | primitive (p : Primitive)
  | object (name : ClassName)
  | array (element : FieldType)
  deriving DecidableEq, Repr

namespace FieldType

def text : FieldType → Bytes
  | primitive p => [p.letter]
  | object name => 76 :: (name.bytes ++ [59])
  | array element => 91 :: element.text

/-- The local slots of a value of the type. An array is a reference, whatever it holds. -/
def slots : FieldType → Nat
  | primitive p => p.slots
  | object _ | array _ => 1

end FieldType

/-- The types of the arguments of a method, and that of its result if it has one. -/
structure MethodType where
  arguments : List FieldType
  result : Option FieldType
  deriving DecidableEq, Repr

namespace MethodType

def resultText : Option FieldType → Bytes
  | none => [86]
  | some t => t.text

def argumentsText (ts : List FieldType) : Bytes := ts.flatMap FieldType.text

def argumentsSlots (ts : List FieldType) : Nat := (ts.map FieldType.slots).sum

def text (t : MethodType) : Bytes :=
  40 :: (argumentsText t.arguments ++ 41 :: resultText t.result)

/-- What calls need to know of a method type. -/
def descriptor (t : MethodType) : Descriptor :=
  ⟨argumentsSlots t.arguments, t.result.isNone⟩

end MethodType

/-! ## Field types -/

theorem letter_ne_bracket (p : Primitive) : p.letter ≠ 91 := by cases p <;> decide

theorem letter_ne_object (p : Primitive) : p.letter ≠ 76 := by cases p <;> decide

theorem letter_injective : Function.Injective Primitive.letter := by
  intro p q h
  cases p <;> cases q <;> first | rfl | cases h

/-- A name ends at the first semicolon. -/
theorem span_name (name : ClassName) (rest : Bytes) :
    (name.bytes ++ 59 :: rest).takeWhile (· != 59) = name.bytes ∧
      (name.bytes ++ 59 :: rest).dropWhile (· != 59) = 59 :: rest := by
  have hall : ∀ b ∈ name.bytes, (b != 59) = true := by
    intro b hb
    rw [bne_iff_ne]
    rintro rfl
    exact name.closed hb
  constructor
  · rw [List.takeWhile_append_of_pos hall, List.takeWhile_cons_of_neg (by decide),
      List.append_nil]
  · rw [List.dropWhile_append_of_pos hall, List.dropWhile_cons_of_neg (by decide)]

theorem fieldType_object (rest : Bytes) :
    fieldType (76 :: rest) = match rest.dropWhile (· != 59) with
      | [] => none
      | _ :: after => if rest.head? = some 59 then none else some (1, after) := by
  rw [fieldType]
  rfl

theorem fieldType_array (rest : Bytes) :
    fieldType (91 :: rest) = (fieldType rest).map fun (_, after) => (1, after) := by
  rw [fieldType]
  rfl

theorem fieldType_primitive (p : Primitive) (rest : Bytes) :
    fieldType (p.letter :: rest) = some (p.slots, rest) := by
  rw [fieldType]
  cases p <;> rfl

/-- The text of a type is read as that type, whatever follows it. -/
theorem fieldType_text_append (t : FieldType) (rest : Bytes) :
    fieldType (t.text ++ rest) = some (t.slots, rest) := by
  induction t with
  | primitive p => exact fieldType_primitive p rest
  | object name =>
    have htext : (FieldType.object name).text ++ rest = 76 :: (name.bytes ++ 59 :: rest) := by
      simp [FieldType.text]
    have hhead : (name.bytes ++ 59 :: rest).head? ≠ some 59 := by
      obtain ⟨bytes, hne, hclosed⟩ := name
      obtain ⟨b, bytes, rfl⟩ := List.exists_cons_of_ne_nil hne
      rintro ⟨⟩
      exact hclosed List.mem_cons_self
    rw [htext, fieldType_object, (span_name name rest).2]
    exact if_neg hhead
  | array element ih =>
    rw [FieldType.text, List.cons_append, fieldType_array, ih]
    rfl

/-- Other bytes start no field type. -/
theorem fieldType_of_other {c : UInt8} (hletter : ∀ p : Primitive, p.letter ≠ c) (hobject : c ≠ 76)
    (harray : c ≠ 91) (rest : Bytes) : fieldType (c :: rest) = none := by
  have hwide : ¬(c = 74 || c = 68) = true := by
    rw [Bool.or_eq_true, decide_eq_true_eq, decide_eq_true_eq]
    rintro (rfl | rfl)
    · exact hletter .long rfl
    · exact hletter .double rfl
  have hsmall : ¬[66, 67, 70, 73, 83, 90].contains c = true := by
    rw [List.contains_iff_mem]
    intro hmem
    obtain ⟨p, hp⟩ : ∃ p : Primitive, p.letter = c := by
      simp only [List.mem_cons, List.not_mem_nil, or_false] at hmem
      rcases hmem with rfl | rfl | rfl | rfl | rfl | rfl
      exacts [⟨.byte, rfl⟩, ⟨.char, rfl⟩, ⟨.float, rfl⟩, ⟨.int, rfl⟩, ⟨.short, rfl⟩,
        ⟨.boolean, rfl⟩]
    exact hletter p hp
  rw [fieldType, if_neg hwide, if_neg hobject, if_neg harray, if_neg hsmall]

/-- What is read as a class is a name and its semicolon. -/
theorem exists_name_of_fieldType {rest after : Bytes} {size : Nat}
    (h : fieldType (76 :: rest) = some (size, after)) :
    ∃ name : ClassName, name.bytes ++ 59 :: after = rest ∧ size = 1 := by
  rw [fieldType_object] at h
  have hstop := List.head?_dropWhile_not (· != 59) rest
  have hsplit := List.takeWhile_append_dropWhile (p := (· != 59)) (l := rest)
  split at h
  · cases h
  rename_i b after' hdrop
  split at h <;> cases h
  rename_i hhead
  rw [hdrop] at hsplit hstop
  obtain rfl : b = 59 := by simpa using hstop
  refine ⟨⟨rest.takeWhile (· != 59), fun hnil => ?_, fun hmem => ?_⟩, hsplit, rfl⟩
  · rw [hnil] at hsplit
    exact hhead (by rw [← hsplit]; rfl)
  · exact absurd (List.mem_takeWhile_imp hmem) (by decide)

/-- What is read as a field type is the text of one. -/
theorem exists_text_of_fieldType {s after : Bytes} {size : Nat}
    (h : fieldType s = some (size, after)) :
    ∃ t : FieldType, t.text ++ after = s ∧ t.slots = size := by
  induction s generalizing size after with
  | nil => cases h
  | cons c rest ih =>
    by_cases hletter : ∃ p : Primitive, p.letter = c
    · obtain ⟨p, rfl⟩ := hletter
      rw [fieldType_primitive] at h
      cases h
      exact ⟨.primitive p, rfl, rfl⟩
    by_cases hobject : c = 76
    · subst hobject
      obtain ⟨name, rfl, rfl⟩ := exists_name_of_fieldType h
      exact ⟨.object name, by simp [FieldType.text], rfl⟩
    by_cases harray : c = 91
    · subst harray
      rw [fieldType_array] at h
      obtain ⟨⟨size', after'⟩, helement, heq⟩ := Option.map_eq_some_iff.1 h
      cases heq
      obtain ⟨t, rfl, -⟩ := ih helement
      exact ⟨.array t, rfl, rfl⟩
    · rw [fieldType_of_other (not_exists.1 hletter) hobject harray] at h
      cases h

/-! ## One reading only -/

theorem name_unique {name name' : ClassName} {r r' : Bytes}
    (h : name.bytes ++ 59 :: r = name'.bytes ++ 59 :: r') : name = name' ∧ r = r' := by
  have hname : name.bytes = name'.bytes := by
    rw [← (span_name name r).1, ← (span_name name' r').1, h]
  have hrest : 59 :: r = 59 :: r' := by
    rw [← (span_name name r).2, ← (span_name name' r').2, h]
  obtain ⟨bytes, _, _⟩ := name
  obtain ⟨bytes', _, _⟩ := name'
  cases hname
  exact ⟨rfl, (List.cons.inj hrest).2⟩

/-- The type that a text starts with is determined. -/
theorem fieldType_unique {t u : FieldType} {r r' : Bytes} (h : t.text ++ r = u.text ++ r') :
    t = u ∧ r = r' := by
  induction t generalizing u with
  | primitive p =>
    cases u with
    | primitive q =>
      obtain ⟨hletter, hrest⟩ := List.cons.inj h
      exact ⟨congrArg _ (letter_injective hletter), hrest⟩
    | object name => exact absurd (List.cons.inj h).1 (letter_ne_object p)
    | array element => exact absurd (List.cons.inj h).1 (letter_ne_bracket p)
  | object name =>
    cases u with
    | primitive q => exact absurd (List.cons.inj h).1.symm (letter_ne_object q)
    | object name' =>
      rw [FieldType.text, FieldType.text, List.cons_append, List.cons_append, List.append_assoc,
        List.append_assoc] at h
      obtain ⟨rfl, hrest⟩ := name_unique (List.cons.inj h).2
      exact ⟨rfl, hrest⟩
    | array element => exact absurd (List.cons.inj h).1 (by decide)
  | array element ih =>
    cases u with
    | primitive q => exact absurd (List.cons.inj h).1.symm (letter_ne_bracket q)
    | object name => exact absurd (List.cons.inj h).1 (by decide)
    | array element' =>
      obtain ⟨rfl, hrest⟩ := ih (List.cons.inj h).2
      exact ⟨rfl, hrest⟩

/-! ## Arguments -/

/-- A field type starts with a byte that closes no arguments and is no result. -/
theorem text_eq_cons (t : FieldType) : ∃ c rest, t.text = c :: rest ∧ c ≠ 41 ∧ c ≠ 86 := by
  cases t with
  | primitive p => exact ⟨p.letter, [], rfl, by cases p <;> decide, by cases p <;> decide⟩
  | object name => exact ⟨76, _, rfl, by decide, by decide⟩
  | array element => exact ⟨91, _, rfl, by decide, by decide⟩

theorem length_le_argumentsText (ts : List FieldType) :
    ts.length ≤ (MethodType.argumentsText ts).length := by
  induction ts with
  | nil => exact Nat.le_refl 0
  | cons t rest ih =>
    obtain ⟨c, text, htext, -⟩ := text_eq_cons t
    rw [MethodType.argumentsText, List.flatMap_cons, htext, List.cons_append, List.length_cons,
      List.length_cons, List.length_append]
    rw [MethodType.argumentsText] at ih
    omega

/-- One more argument is read. -/
theorem arguments_cons (most slots : Nat) (t : FieldType) (s : Bytes) :
    arguments (most + 1) slots (t.text ++ s) = arguments most (slots + t.slots) s := by
  have hread := fieldType_text_append t s
  obtain ⟨c, text, htext, hclose, -⟩ := text_eq_cons t
  rw [htext, List.cons_append] at hread ⊢
  rw [arguments]
  simp only [if_neg hclose, hread]

/-- With a turn for every argument, the arguments are read up to the bracket. -/
theorem arguments_text {ts : List FieldType} {most : Nat} (h : ts.length ≤ most) (slots : Nat)
    (after : Bytes) :
    arguments most slots (MethodType.argumentsText ts ++ 41 :: after) =
      some (slots + MethodType.argumentsSlots ts, after) := by
  induction ts generalizing most slots with
  | nil =>
    unfold arguments
    rfl
  | cons t rest ih =>
    obtain ⟨most, rfl⟩ : ∃ n, most = n + 1 := ⟨most - 1, by rw [List.length_cons] at h; omega⟩
    have htext : MethodType.argumentsText (t :: rest) ++ 41 :: after =
        t.text ++ (MethodType.argumentsText rest ++ 41 :: after) := by
      simp [MethodType.argumentsText]
    rw [htext, arguments_cons, ih (Nat.le_of_succ_le_succ h), MethodType.argumentsSlots,
      MethodType.argumentsSlots, List.map_cons, List.sum_cons, Nat.add_assoc]

/-- What is read as arguments is the text of some. -/
theorem exists_text_of_arguments {most slots total : Nat} {s after : Bytes}
    (h : arguments most slots s = some (total, after)) :
    ∃ ts, MethodType.argumentsText ts ++ 41 :: after = s ∧
      slots + MethodType.argumentsSlots ts = total := by
  induction most generalizing slots s with
  | zero =>
    unfold arguments at h
    split at h
    · cases h
    · split at h <;> cases h
      rename_i hclose
      exact ⟨[], hclose ▸ rfl, rfl⟩
  | succ most ih =>
    unfold arguments at h
    split at h
    · cases h
    split at h
    · cases h
      rename_i hclose
      exact ⟨[], hclose ▸ rfl, rfl⟩
    dsimp only at h
    split at h
    · cases h
    · rename_i size rest hfield
      obtain ⟨t, ht, rfl⟩ := exists_text_of_fieldType hfield
      obtain ⟨ts, rfl, rfl⟩ := ih h
      refine ⟨t :: ts, ?_, ?_⟩
      · rw [← ht]
        simp [MethodType.argumentsText]
      · rw [MethodType.argumentsSlots, MethodType.argumentsSlots, List.map_cons, List.sum_cons,
          Nat.add_assoc]

/-- The arguments before a bracket are determined. -/
theorem arguments_unique {ts us : List FieldType} {r r' : Bytes}
    (h : MethodType.argumentsText ts ++ 41 :: r = MethodType.argumentsText us ++ 41 :: r') :
    ts = us ∧ r = r' := by
  induction ts generalizing us with
  | nil =>
    cases us with
    | nil => exact ⟨rfl, (List.cons.inj h).2⟩
    | cons u us =>
      obtain ⟨c, text, htext, hclose, -⟩ := text_eq_cons u
      rw [MethodType.argumentsText, MethodType.argumentsText, List.flatMap_cons, htext] at h
      exact absurd (List.cons.inj h).1.symm hclose
  | cons t ts ih =>
    cases us with
    | nil =>
      obtain ⟨c, text, htext, hclose, -⟩ := text_eq_cons t
      rw [MethodType.argumentsText, MethodType.argumentsText, List.flatMap_cons, htext] at h
      exact absurd (List.cons.inj h).1 hclose
    | cons u us =>
      rw [MethodType.argumentsText, MethodType.argumentsText, List.flatMap_cons,
        List.flatMap_cons, List.append_assoc, List.append_assoc] at h
      obtain ⟨rfl, hrest⟩ := fieldType_unique h
      obtain ⟨rfl, hafter⟩ := ih hrest
      exact ⟨rfl, hafter⟩

/-! ## Results -/

theorem result?_text (r : Option FieldType) :
    result? (MethodType.resultText r) = some r.isNone := by
  cases r with
  | none => rfl
  | some t =>
    obtain ⟨c, text, htext, -, hvoid⟩ := text_eq_cons t
    have hread := fieldType_text_append t []
    rw [List.append_nil] at hread
    have hne : t.text ≠ [86] := by
      rw [htext]
      rintro ⟨⟩
      exact hvoid rfl
    rw [MethodType.resultText, result?, if_neg hne, hread]
    rfl

theorem exists_text_of_result? {s : Bytes} {void : Bool} (h : result? s = some void) :
    ∃ r, MethodType.resultText r = s ∧ r.isNone = void := by
  unfold result? at h
  split at h
  · rename_i hvoid
    cases h
    exact ⟨none, hvoid.symm, rfl⟩
  split at h
  · rename_i hfield
    cases h
    obtain ⟨t, ht, -⟩ := exists_text_of_fieldType hfield
    rw [List.append_nil] at ht
    exact ⟨some t, ht, rfl⟩
  · cases h

theorem resultText_injective : Function.Injective MethodType.resultText := by
  intro r q h
  cases r with
  | none =>
    cases q with
    | none => rfl
    | some u =>
      obtain ⟨c, text, htext, -, hvoid⟩ := text_eq_cons u
      rw [MethodType.resultText, MethodType.resultText, htext] at h
      exact absurd (List.cons.inj h).1.symm hvoid
  | some t =>
    cases q with
    | none =>
      obtain ⟨c, text, htext, -, hvoid⟩ := text_eq_cons t
      rw [MethodType.resultText, MethodType.resultText, htext] at h
      exact absurd (List.cons.inj h).1 hvoid
    | some u =>
      have h : t.text ++ [] = u.text ++ [] := by rwa [List.append_nil, List.append_nil]
      exact congrArg some (fieldType_unique h).1

/-! ## Descriptors -/

theorem text_injective : Function.Injective MethodType.text := by
  rintro ⟨ts, r⟩ ⟨us, q⟩ h
  obtain ⟨harguments, hresult⟩ := arguments_unique (List.cons.inj h).2
  cases harguments
  cases resultText_injective hresult
  rfl

theorem parse?_text (t : MethodType) : parse? t.text = some t.descriptor := by
  have hturns : t.arguments.length ≤
      (MethodType.argumentsText t.arguments ++ 41 :: MethodType.resultText t.result).length := by
    rw [List.length_append]
    exact (length_le_argumentsText t.arguments).trans (Nat.le_add_right ..)
  rw [MethodType.text, parse?, arguments_text hturns 0]
  simp [result?_text, MethodType.descriptor]

theorem exists_text_of_parse? {s : Bytes} {d : Descriptor} (h : parse? s = some d) :
    ∃ t : MethodType, t.text = s ∧ t.descriptor = d := by
  unfold parse? at h
  split at h
  · rename_i rest
    split at h
    · cases h
    · rename_i slots after harguments
      obtain ⟨ts, rfl, rfl⟩ := exists_text_of_arguments harguments
      obtain ⟨void, hresult, rfl⟩ := Option.map_eq_some_iff.1 h
      obtain ⟨r, rfl, rfl⟩ := exists_text_of_result? hresult
      exact ⟨⟨ts, r⟩, rfl, by simp [MethodType.descriptor]⟩
  · cases h

/-- A text is accepted exactly when it is that of a method type, which is then the only one it is
the text of and says the slots and whether there is a result. All other texts are refused, however
long they are. No byte behind the end is looked at: the types that are read stand in the text. -/
theorem parse?_iff_text (s : Bytes) :
    (∀ d, parse? s = some d ↔
      ∃ t : MethodType, t.text = s ∧ t.descriptor = d ∧ ∀ u : MethodType, u.text = s → u = t) ∧
    (parse? s = none ↔ ∀ t : MethodType, t.text ≠ s) ∧
    ∀ size after, fieldType s = some (size, after) ↔
      ∃ t : FieldType, t.text ++ after = s ∧ t.slots = size := by
  refine ⟨fun d => ⟨fun h => ?_, ?_⟩, ⟨fun h t ht => ?_, fun h => ?_⟩,
    fun size after => ⟨exists_text_of_fieldType, ?_⟩⟩
  · obtain ⟨t, rfl, rfl⟩ := exists_text_of_parse? h
    exact ⟨t, rfl, rfl, fun u hu => text_injective hu⟩
  · rintro ⟨t, rfl, rfl, -⟩
    exact parse?_text t
  · rw [← ht, parse?_text] at h
    cases h
  · cases hparse : parse? s with
    | none => rfl
    | some d =>
      obtain ⟨t, ht, -⟩ := exists_text_of_parse? hparse
      exact absurd ht (h t)
  · rintro ⟨t, rfl, rfl⟩
    exact fieldType_text_append t after

example : parse? "(JL(D)V;[[J)Lx:(I)V;" = some ⟨4, false⟩ := by decide +kernel

end MiniJvm.Descriptor
