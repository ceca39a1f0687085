import MiniJvm.Descriptor
import MiniJvm.Machine.Registry

/-!
# Loading classes

Loading registers the methods of a definition one by one and then the class. What it replaces is
replaced under the same key; a replaced class takes the methods that the new one lacks with it.
When a method is refused, those registered before it stay.
-/

namespace MiniJvm

inductive LoadError where
  | emptyName
  | badDescriptor (owner name descriptor : Bytes)
  | negativeSize (owner name : Bytes)
  deriving DecidableEq, Repr

def LoadError.message : LoadError → Bytes
  | .emptyName => "load: class with empty name"
  | .badDescriptor owner name descriptor =>
    "load " ++ owner ++ "." ++ name ++ ": " ++ Descriptor.malformed descriptor
  | .negativeSize owner name =>
    "load " ++ owner ++ "." ++ name ++ ": negative max stack or locals"

inductive LoadEvent where
  | methodReplaced (signature : Bytes)
  | classReplaced (name : Bytes)
  | classLoaded (name : Bytes) (methods : Nat)
  deriving DecidableEq, Repr

def LoadEvent.line : LoadEvent → Log.Line
  | .methodReplaced signature => ⟨.warning, "ristretto.vm", "load: " ++ signature ++ " replaced"⟩
  | .classReplaced name => ⟨.warning, "ristretto.vm", "load: class " ++ name ++ " replaced"⟩
  | .classLoaded name methods =>
    ⟨.debug, "ristretto.vm",
      "load: class " ++ name ++ ", " ++ Bytes.ofNat methods ++ " methods"⟩

/-- How far loading came: the registry as it is now, the reports, and whether it went through. -/
structure Loading (α : Type) where
  registry : Registry
  events : List LoadEvent
  outcome : Except LoadError α

namespace Registry

/-- The method of a definition, not stamped yet. -/
def makeMethod (owner : Bytes) (d : MethodDef) : Except LoadError Method :=
  match Descriptor.parse? d.descriptor with
  | none => .error (.badDescriptor owner d.name d.descriptor)
  | some descriptor =>
    if d.maxStack < 0 || d.maxLocals < 0 then .error (.negativeSize owner d.name)
    else .ok
      { stamp := 0, owner, name := d.name, descriptor := d.descriptor,
        maxStack := d.maxStack, maxLocals := d.maxLocals,
        argSlots := Int64.ofNat descriptor.slots, void := descriptor.void,
        code := (d.code.getD []).toArray }

/-- Registers methods one by one, and collects them in the table of their class. -/
def loadMethods (r : Registry) (owner : Bytes) (own : Table Method) :
    List MethodDef → Loading (Table Method)
  | [] => ⟨r, [], .ok own⟩
  | d :: rest =>
    match makeMethod owner d with
    | .error e => ⟨r, [], .error e⟩
    | .ok made =>
      let (m, stamped) := r.stampMethod made
      let key := m.signature
      let after := (stamped.registerMethod key m).loadMethods owner (own.insert key m) rest
      if r.methods.contains key then { after with events := .methodReplaced key :: after.events }
      else after

/-- Removes the methods of a replaced class that its successor lacks. -/
def dropMethods (r : Registry) (old successor : Class) : Registry :=
  old.methods.items.foldl
    (fun r item => if successor.methods.contains item.1 then r else r.removeMethod item.1 item.2) r

/-- Registers a class whose methods are registered already. -/
def installClass (r : Registry) (c : Class) : Registry × List LoadEvent :=
  let loaded := [LoadEvent.classLoaded c.name c.methods.size]
  match r.classes.get? c.name with
  | none => (r.registerClass c, loaded)
  | some old => ((r.registerClass c).dropMethods old c, .classReplaced c.name :: loaded)

def loadClass (r : Registry) (d : ClassDef) : Loading Unit :=
  if d.name.isEmpty then ⟨r, [], .error .emptyName⟩
  else
    let loaded := r.loadMethods d.name .empty d.methodList
    match loaded.outcome with
    | .error e => { loaded with outcome := .error e }
    | .ok methods =>
      let c : Class :=
        { name := d.name, superName := d.superName, pool := some (Pool.ofEntries d.constants),
          methods }
      let (registry, events) := loaded.registry.installClass c
      ⟨registry, loaded.events ++ events, .ok ()⟩

/-- Loads definitions in order up to the first that is refused; the outcome counts them. -/
def loadAll (r : Registry) : List ClassDef → Loading Nat
  | [] => ⟨r, [], .ok 0⟩
  | d :: rest =>
    let first := r.loadClass d
    match first.outcome with
    | .error e => { first with outcome := .error e }
    | .ok () =>
      let after := first.registry.loadAll rest
      { after with
        events := first.events ++ after.events, outcome := after.outcome.map (· + 1) }

def load (defs : List ClassDef) : Except LoadError Registry :=
  let loaded := empty.loadAll defs
  loaded.outcome.map fun _ => loaded.registry

end Registry

/-- The descriptor of the method that a program starts with. -/
def mainDescriptor : Bytes := "([Ljava/lang/String;)V"

def defaultEntry (owner : Bytes) : Bytes := signature owner "main" mainDescriptor

end MiniJvm
