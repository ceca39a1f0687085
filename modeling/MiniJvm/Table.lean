import MiniJvm.Text.Bytes

/-!
# Tables

Finite maps from names to values. An insertion replaces what stood under the name before.
-/

namespace MiniJvm

structure Table (α : Type) where
  items : List (Bytes × α)
  deriving Repr, DecidableEq

namespace Table

variable {α : Type}

def empty : Table α := ⟨[]⟩

instance : Inhabited (Table α) := ⟨empty⟩

def get? (t : Table α) (name : Bytes) : Option α :=
  (t.items.find? fun item => item.1 == name).map Prod.snd

def contains (t : Table α) (name : Bytes) : Bool := (t.get? name).isSome

def erase (t : Table α) (name : Bytes) : Table α := ⟨t.items.filter fun item => item.1 != name⟩

def insert (t : Table α) (name : Bytes) (value : α) : Table α :=
  ⟨(name, value) :: (t.erase name).items⟩

def size (t : Table α) : Nat := t.items.length

/-- The names in byte order. -/
def names (t : Table α) : List Bytes := Bytes.sort (t.items.map Prod.fst)

/-- The values in the byte order of their names. -/
def values (t : Table α) : List α := t.names.filterMap t.get?

@[simp] theorem get?_empty (name : Bytes) : (empty : Table α).get? name = none := rfl

theorem get?_erase (t : Table α) (a b : Bytes) :
    (t.erase a).get? b = if a = b then none else t.get? b := by
  obtain ⟨items⟩ := t
  induction items with
  | nil => simp [get?, erase]
  | cons item rest ih =>
    simp only [get?, erase] at ih ⊢
    by_cases h : item.1 = a
    · by_cases h' : a = b
      · simp_all
      · simp_all
    · by_cases h' : item.1 = b
      · have : ¬a = b := fun e => h (h'.trans e.symm)
        simp_all
      · simp_all

theorem get?_insert (t : Table α) (a b : Bytes) (v : α) :
    (t.insert a v).get? b = if a = b then some v else t.get? b := by
  by_cases h : a = b
  · simp [get?, insert, h]
  · have := get?_erase t a b
    simp only [get?, h, if_false] at this
    simp [get?, insert, h, this]

end Table

end MiniJvm
