import Mathlib
import MiniJvm.Machine.Run
import MiniJvm.Proofs.Image.RoundTrip
import MiniJvm.Proofs.Machine.Frame
import MiniJvm.Proofs.Machine.Load

/-!
# Runs of what is kept

Storing a class changes nothing but floating point constants: one zero and one NaN stand for all.
A run reads constants only to find the names of the methods that it calls. So a class that was
stored and read back is loaded as the class itself is, and runs in the same way: each operation on
what is kept does what it does on the original, and leaves what is kept of the outcome.
-/

namespace MiniJvm

/-! ## Constants -/

namespace Pool

def normal (p : Pool) : Pool := ⟨p.entries.map Entry.normal⟩

theorem entry_normal (p : Pool) (index : UInt16) :
    p.normal.entry index = (p.entry index).map Entry.normal := by
  unfold entry normal
  split
  · rfl
  · rw [Array.getElem?_map]
    cases p.entries[index.toNat]? <;> rfl

theorem resolveWithin_normal (p : Pool) (depth : Nat) (index : UInt16) :
    p.normal.resolveWithin depth index = p.resolveWithin depth index := by
  induction depth generalizing index with
  | zero =>
    rw [resolveWithin, resolveWithin, entry_normal]
    cases p.entry index <;> rfl
  | succ depth ih =>
    rw [resolveWithin, resolveWithin, entry_normal]
    cases p.entry index with
    | error err => rfl
    | ok e =>
      simp only [Except.map, ih]
      rfl

theorem resolve_normal (p : Pool) (index : UInt16) : p.normal.resolve index = p.resolve index := by
  have hsize : p.normal.size = p.size := Array.size_map
  rw [resolve, resolve, hsize, resolveWithin_normal]

theorem ofEntries_normal (entries : List Entry) :
    ofEntries (entries.map Entry.normal) = (ofEntries entries).normal := by
  have hplaceholder : Entry.placeholder.normal = Entry.placeholder := by decide
  cases entries with
  | nil => simp [ofEntries, normal, hplaceholder]
  | cons e rest =>
    have htag : e.normal.tag = e.tag := rfl
    rw [List.map_cons, ofEntries, ofEntries, htag]
    split <;> simp [normal, hplaceholder]

end Pool

/-! ## Frames -/

namespace Frame

variable {α β : Type}

def normal (f : Frame) : Frame := { f with pool := f.pool.map Pool.normal }

/-- The operation does the same with what is kept of a frame, and leaves what is kept of the
frame that it leaves otherwise. -/
def Blind (x : FrameM α) : Prop := ∀ f, x f.normal = ((x f).1, (x f).2.normal)

theorem Blind.bind {x : FrameM α} {k : α → FrameM β} (h : Blind x) (hk : ∀ a, Blind (k a)) :
    Blind (x >>= k) := by
  intro f
  rw [bind_apply, bind_apply, h f]
  rcases x f with ⟨why | a, g⟩
  · rfl
  · exact hk a g

theorem blind_pure (a : α) : Blind (pure a : FrameM α) := fun _ => rfl

theorem blind_raise (cause : FaultCause) : Blind (raise cause : FrameM α) := fun _ => rfl

theorem blind_push (v : Int32) : Blind (push v) := by
  intro f
  rw [push_apply, push_apply]
  change (if f.method.maxStack.toInt ≤ f.stack.size then _ else _) = _
  split <;> rfl

theorem blind_pop : Blind pop := by
  intro f
  have hback : f.normal.stack.back? = f.stack.back? := rfl
  rw [pop_apply, pop_apply, hback]
  cases f.stack.back? <;> rfl

theorem blind_popArgs (count : Int64) : Blind (popArgs count) := by
  intro f
  rw [popArgs_apply, popArgs_apply]
  change (if count < 0 then _ else if f.stack.size < count.toInt.toNat then _ else _) = _
  split
  · rfl
  · split <;> rfl

theorem blind_load (slot : Int) : Blind (load slot) := by
  intro f
  have hget : f.normal.locals[slot.toNat]? = f.locals[slot.toNat]? := rfl
  rw [load_apply, load_apply, hget]
  split
  · rfl
  · cases f.locals[slot.toNat]? <;> rfl

theorem blind_store (slot : Int) (v : Int32) : Blind (store slot v) := by
  intro f
  rw [store_apply, store_apply]
  change (if 0 ≤ slot ∧ slot < f.locals.size then _ else _) = _
  split <;> rfl

theorem blind_jump (target : Int32) : Blind (jump target) := by
  intro f
  rw [jump_apply, jump_apply]
  change (if 0 ≤ target.toInt ∧ target.toInt ≤ f.method.code.size then _ else _) = _
  split <;> rfl

theorem blind_callee (i : Instruction) : Blind (callee i) := by
  intro f
  rw [callee_apply, callee_apply]
  have hpool : f.normal.pool = f.pool.map Pool.normal := rfl
  rw [hpool]
  cases f.pool with
  | none =>
    dsimp only [Option.map_none]
    split <;> rfl
  | some pool =>
    dsimp only [Option.map_some]
    rw [Pool.resolve_normal]
    cases pool.resolve i.poolIndex <;> rfl

theorem compositional_blind : Compositional Blind where
  pure := blind_pure
  bind := .bind
  raise := blind_raise
  push := blind_push
  pop := blind_pop
  load := blind_load
  store := blind_store
  jump := blind_jump
  callee := blind_callee

theorem blind_step : Blind step := by
  intro f
  have hnext : f.normal.next? = f.next? := rfl
  rw [step_apply, step_apply, hnext]
  cases f.next? with
  | none => rfl
  | some i => exact compositional_blind.execute i f.advance

theorem create_normal (m : Method) (pool : Option Pool) (args : List Int32) :
    create m (pool.map Pool.normal) args = (create m pool args).map normal := by
  unfold create
  split
  · rfl
  split
  · rfl
  split <;> rfl

end Frame

/-! ## Registries -/

def Class.normal (c : Class) : Class := { c with pool := c.pool.map Pool.normal }

namespace Table

variable {α β : Type}

def map (f : α → β) (t : Table α) : Table β := ⟨t.items.map fun item => (item.1, f item.2)⟩

theorem get?_map (f : α → β) (t : Table α) (name : Bytes) :
    (t.map f).get? name = (t.get? name).map f := by
  obtain ⟨items⟩ := t
  induction items with
  | nil => rfl
  | cons item rest ih =>
    simp only [get?, map, List.map_cons, List.find?_cons] at ih ⊢
    cases item.1 == name with
    | true => rfl
    | false => exact ih

theorem map_insert (f : α → β) (t : Table α) (name : Bytes) (value : α) :
    (t.insert name value).map f = (t.map f).insert name (f value) := by
  simp only [insert, erase, map, List.map_cons, List.filter_map]
  rfl

end Table

namespace Registry

def normal (r : Registry) : Registry := { r with classes := r.classes.map Class.normal }

end Registry

def Loading.normal {α : Type} (l : Loading α) : Loading α :=
  { l with registry := l.registry.normal }

namespace Registry

theorem loadMethods_normal (r : Registry) (owner : Bytes) (own : Table Method)
    (defs : List MethodDef) :
    r.normal.loadMethods owner own defs = (r.loadMethods owner own defs).normal := by
  induction defs generalizing r own with
  | nil => rfl
  | cons d rest ih =>
    simp only [loadMethods]
    cases makeMethod owner d with
    | error e => rfl
    | ok made =>
      rcases hstamp : r.stampMethod made with ⟨m, s⟩
      have hnormal : r.normal.stampMethod made = (m, s.normal) := by
        cases hstamp
        rfl
      have hrest := ih (s.registerMethod m.signature m) (own.insert m.signature m)
      change (s.normal.registerMethod m.signature m).loadMethods owner _ rest = _ at hrest
      have hcontains : r.normal.methods.contains m.signature = r.methods.contains m.signature := rfl
      simp only [hstamp, hnormal, hrest, hcontains]
      split <;> rfl

theorem dropItem_normal (successor : Class) (r : Registry) (item : Bytes × Method) :
    dropItem successor.normal r.normal item = (dropItem successor r item).normal := by
  have hmethods : successor.normal.methods = successor.methods := rfl
  have hget : r.normal.methods.get? item.1 = r.methods.get? item.1 := rfl
  unfold dropItem removeMethod
  rw [hmethods, hget]
  split
  · rfl
  · cases r.methods.get? item.1 with
    | none => rfl
    | some found =>
      dsimp only
      split <;> rfl

theorem dropMethods_normal (r : Registry) (old successor : Class) :
    r.normal.dropMethods old.normal successor.normal = (r.dropMethods old successor).normal := by
  have hitems : old.normal.methods.items = old.methods.items := rfl
  rw [dropMethods_eq, dropMethods_eq, hitems]
  induction old.methods.items generalizing r with
  | nil => rfl
  | cons item rest ih => rw [List.foldl_cons, List.foldl_cons, dropItem_normal, ih]

theorem registerClass_normal (r : Registry) (c : Class) :
    r.normal.registerClass c.normal = (r.registerClass c).normal := by
  unfold registerClass normal
  rw [Table.map_insert]
  rfl

theorem installClass_normal (r : Registry) (c : Class) :
    r.normal.installClass c.normal = ((r.installClass c).1.normal, (r.installClass c).2) := by
  unfold installClass
  have hget : r.normal.classes.get? c.normal.name = (r.classes.get? c.name).map Class.normal :=
    Table.get?_map ..
  rw [hget]
  cases r.classes.get? c.name with
  | none =>
    dsimp only [Option.map_none]
    rw [registerClass_normal]
    rfl
  | some old =>
    dsimp only [Option.map_some]
    rw [registerClass_normal, dropMethods_normal]
    rfl

theorem classOf_normal (d : ClassDef) (methods : Table Method) :
    classOf d.normal methods = (classOf d methods).normal := by
  have hconstants : d.normal.constants = d.constants.map Entry.normal := by
    rw [ClassDef.constants, ClassDef.constants, ClassDef.normal]
    cases d.pool <;> rfl
  rw [classOf, hconstants, Pool.ofEntries_normal]
  rfl

theorem loadClass_eq (r : Registry) (d : ClassDef) :
    r.loadClass d =
      if d.name.isEmpty then ⟨r, [], .error .emptyName⟩
      else
        let loaded := r.loadMethods d.name .empty d.methodList
        match loaded.outcome with
        | .error e => ⟨loaded.registry, loaded.events, .error e⟩
        | .ok methods =>
          ⟨(loaded.registry.installClass (classOf d methods)).1,
            loaded.events ++ (loaded.registry.installClass (classOf d methods)).2, .ok ()⟩ := rfl

theorem loadClass_normal (r : Registry) (d : ClassDef) :
    r.normal.loadClass d.normal = (r.loadClass d).normal := by
  have hmethods : r.normal.loadMethods d.normal.name .empty d.normal.methodList =
      (r.loadMethods d.name .empty d.methodList).normal := loadMethods_normal ..
  have hname : d.normal.name = d.name := rfl
  rw [loadClass_eq, loadClass_eq, hmethods, hname]
  split
  · rfl
  · rcases r.loadMethods d.name .empty d.methodList with ⟨loaded, events, e | methods⟩
    · rfl
    · simp only [Loading.normal, classOf_normal, installClass_normal]

theorem loadAll_normal (r : Registry) (defs : List ClassDef) :
    r.normal.loadAll (defs.map ClassDef.normal) = (r.loadAll defs).normal := by
  induction defs generalizing r with
  | nil => rfl
  | cons d rest ih =>
    rw [List.map_cons, loadAll, loadAll, loadClass_normal]
    dsimp only [Loading.normal]
    cases (r.loadClass d).outcome with
    | error e => rfl
    | ok u =>
      dsimp only
      rw [ih]
      rfl

theorem load_normal (defs : List ClassDef) :
    load (defs.map ClassDef.normal) = (load defs).map normal := by
  have hempty : empty.normal = empty := rfl
  rw [load_eq, load_eq, ← hempty, loadAll_normal, hempty]
  dsimp only [Loading.normal]
  cases (empty.loadAll defs).outcome <;> rfl

end Registry

/-! ## Call stacks -/

namespace CallStack

def normal (c : CallStack) : CallStack :=
  { c with registry := c.registry.normal, frames := c.frames.map Frame.normal }

end CallStack

def Progress.normal : Progress → Progress
  | .running c => .running c.normal
  | .finished c => .finished c.normal
  | .stopped why c => .stopped why c.normal

namespace CallStack

theorem find_normal (r : Registry) (signature : Bytes) :
    find r.normal signature =
      (find r signature).map fun found => (found.1, found.2.map Pool.normal) := by
  have hmethod : r.normal.lookupMethod signature = r.lookupMethod signature := rfl
  have hclass (name : Bytes) :
      r.normal.lookupClass name = (r.lookupClass name).map Class.normal := by
    have hget : r.normal.classes.get? name = (r.classes.get? name).map Class.normal :=
      Table.get?_map ..
    rw [Registry.lookupClass, Registry.lookupClass, hget]
    cases r.classes.get? name <;> rfl
  unfold find
  rw [hmethod]
  cases r.lookupMethod signature with
  | error e => rfl
  | ok m =>
    change (r.normal.lookupClass m.owner >>= fun c => pure (m, c.pool)) =
      (r.lookupClass m.owner >>= fun c => pure (m, c.pool)).map _
    rw [hclass]
    cases r.lookupClass m.owner <;> rfl

theorem callFrame_normal (r : Registry) (caller : Frame) (signature : Bytes) (special : Bool) :
    callFrame r.normal caller.normal signature special =
      ((callFrame r caller signature special).1.map fun made => (made.1.normal, made.2),
        (callFrame r caller signature special).2.normal) := by
  unfold callFrame
  rw [find_normal]
  rcases find r signature with e | ⟨m, pool⟩
  · rfl
  · dsimp only [Except.map]
    rw [Frame.blind_popArgs]
    rcases Frame.popArgs (if special then m.argSlots + 1 else m.argSlots) caller with
      ⟨why | args, below⟩
    · rfl
    · dsimp only
      rw [Frame.create_normal]
      cases Frame.create m pool args <;> rfl

theorem drop_normal (c : CallStack) : c.normal.drop = c.drop.normal := by
  simp [drop, normal]

theorem restore_normal (c : CallStack) (f : Frame) :
    c.normal.restore f.normal = (c.restore f).normal := by
  simp [restore, normal]

theorem push_normal (c : CallStack) (f : Frame) : c.normal.push f.normal = (c.push f).normal := by
  simp [push, normal]

theorem report_normal (c : CallStack) (e : TraceEvent) :
    c.normal.report e = (c.report e).normal := by
  unfold report
  change (if c.trace then _ else _) = _
  split <;> rfl

theorem back?_normal (c : CallStack) : c.normal.frames.back? = c.frames.back?.map Frame.normal := by
  simp [normal, Array.back?]

theorem receive_normal (c : CallStack) (value : Int32) :
    c.normal.receive value = (c.receive value).normal := by
  unfold receive
  rw [back?_normal]
  cases c.frames.back? with
  | none => rfl
  | some caller =>
    dsimp only [Option.map_some]
    rw [Frame.blind_push, drop_normal]
    rcases Frame.push value caller with ⟨why | u, left⟩ <;>
      simp only [restore_normal, Progress.normal]

theorem reportNext_normal (c : CallStack) (f : Frame) :
    c.normal.reportNext f.normal = (c.reportNext f).normal := by
  have hnext : f.normal.next? = f.next? := rfl
  unfold reportNext
  rw [hnext]
  cases f.next? with
  | none => rfl
  | some i => exact report_normal c.countInstruction _

theorem handle_normal (c : CallStack) (f : Frame) (s : Signal) :
    c.normal.handle f.normal s = (c.handle f s).normal := by
  cases s with
  | ended => exact congrArg Progress.running (report_normal ..)
  | returned value =>
    dsimp only [handle]
    rw [report_normal, receive_normal]
    rfl
  | invoke signature special =>
    have hcall : callFrame c.normal.registry f.normal signature special = _ :=
      callFrame_normal c.registry f signature special
    dsimp only [handle]
    rw [hcall]
    rcases callFrame c.registry f signature special with ⟨why | ⟨callee, args⟩, left⟩
    · simp only [Except.map, restore_normal, Progress.normal]
    · have hcount : c.normal.countInvocation = c.countInvocation.normal := rfl
      simp only [Except.map, hcount, report_normal, restore_normal, push_normal, Progress.normal]
      rfl

theorem step_normal (c : CallStack) : c.normal.step = c.step.normal := by
  unfold step
  rw [back?_normal]
  cases c.frames.back? with
  | none => rfl
  | some f =>
    dsimp only [Option.map_some]
    rw [Frame.blind_step, drop_normal, reportNext_normal]
    rcases Frame.step f with ⟨why | _ | signal, left⟩ <;>
      simp only [restore_normal, handle_normal, Progress.normal]

theorem run_normal (fuel : Nat) (c : CallStack) : c.normal.run fuel = (c.run fuel).normal := by
  induction fuel generalizing c with
  | zero => rfl
  | succ fuel ih =>
    rw [run, run, step_normal]
    cases c.step with
    | running c => exact ih c
    | finished c | stopped why c => rfl

end CallStack

namespace Registry

theorem start_normal (r : Registry) (entry : Bytes) (args : List Int32) (trace : Bool) :
    r.normal.start entry args trace = (r.start entry args trace).map CallStack.normal := by
  unfold start
  rw [CallStack.find_normal]
  rcases CallStack.find r entry with e | ⟨m, pool⟩
  · rfl
  · dsimp only [Except.map]
    rw [Frame.create_normal]
    cases Frame.create m pool args with
    | error why => rfl
    | ok f =>
      have hcreate : CallStack.create r.normal trace = (CallStack.create r trace).normal := by
        simp [CallStack.create, CallStack.normal]
      have hpush := CallStack.push_normal (.create r trace) f
      rw [← hcreate] at hpush
      exact congrArg Except.ok hpush

/-- A run does not see what is lost when its classes are stored. -/
theorem execute_normal (r : Registry) (fuel : Nat) (entry : Bytes) (args : List Int32)
    (trace : Bool) : r.normal.execute fuel entry args trace = r.execute fuel entry args trace := by
  unfold execute
  rw [start_normal]
  cases r.start entry args trace with
  | error why => rfl
  | ok c =>
    dsimp only [Except.map]
    rw [CallStack.run_normal]
    cases c.run fuel <;> rfl

end Registry

end MiniJvm
