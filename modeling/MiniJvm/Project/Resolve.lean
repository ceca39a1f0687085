import MiniJvm.Project.Manifest
import MiniJvm.Text.Quoted

/-!
# Dependency resolution

Resolving finds a directory for every dependency of a project, and then for what those depend on.
The first declaration of a name that is met decides where it lies. The order that comes out is the
load order: what a project depends on stands before it. Nothing can be fetched from a repository,
so a dependency that is not here yet is refused.
-/

namespace MiniJvm

structure ResolvedDep where
  name : Bytes
  dir : Bytes
  /-- Its own manifest, if it has a readable one. -/
  manifest : Option Manifest
  deriving DecidableEq, Repr

inductive GitVerb where
  | clone
  | fetch
  | checkout
  deriving DecidableEq, Repr

def GitVerb.name : GitVerb → Bytes
  | .clone => "clone"
  | .fetch => "fetch"
  | .checkout => "checkout"

inductive DependencyError where
  | notFound (name dir : Bytes) (cause : FileError)
  | noDepsDir (cause : FileError)
  | git (verb : GitVerb)
  | noSource (name : Bytes)
  deriving DecidableEq, Repr

def DependencyError.message : DependencyError → Bytes
  | .notFound name dir cause =>
    "local dependency " ++ Quoted.quote name ++ " not found at " ++ dir ++ ": " ++ cause.message
  | .noDepsDir cause => "creating deps dir: " ++ cause.message
  | .git verb => "git " ++ verb.name
  | .noSource name => "dependency " ++ Quoted.quote name ++ " has no git or path specified"

inductive ResolveError where
  | lockUnreadable (cause : Lock.Error)
  | dependency (name : Bytes) (cause : DependencyError)
  | lockUnwritable (cause : FileError)
  deriving DecidableEq, Repr

def ResolveError.message : ResolveError → Bytes
  | .lockUnreadable cause => "reading lock file: " ++ cause.message
  | .dependency name cause => "resolving " ++ name ++ ": " ++ cause.message
  | .lockUnwritable cause => "writing lock file: " ++ cause.message

/-- How far resolution has come. -/
structure Resolving where
  files : Files
  /-- The names that have a directory already. -/
  resolved : List Bytes
  /-- What was logged, the oldest first. -/
  log : List Log.Line

abbrev ResolveM := ExceptT ResolveError (StateM Resolving)

namespace Resolve

def note (line : Log.Line) : ResolveM Unit := modify fun s => { s with log := s.log ++ [line] }

def refuse {α : Type} (name : Bytes) (cause : DependencyError) : ResolveM α :=
  throw (.dependency name cause)

/-- A dependency in a directory, with its manifest if it can be read. -/
def settle (name dir : Bytes) : ResolveM ResolvedDep := do
  match Manifest.load (← get).files dir with
  | .error _ => return ⟨name, dir, none⟩
  | .ok m =>
    note (Manifest.loadedLine dir)
    return ⟨name, dir, some m⟩

def resolvePath (base name path : Bytes) : ResolveM ResolvedDep := do
  let files := (← get).files
  let dir := files.absolute (Path.resolve base path)
  match files.stat dir with
  | .error e => refuse name (.notFound name dir e)
  | .ok _ => settle name dir

/-- A dependency from a repository. It must lie among the fetched ones already, and a tag would
have to be checked out. -/
def resolveGit (root : Manifest) (lock : Option Lock) (name : Bytes) (d : Dependency) :
    ResolveM ResolvedDep := do
  let dir := Path.join root.depsDir name
  let s ← get
  match s.files.stat dir with
  | .error ⟨_, _, .missing⟩ =>
    let (made, files) := s.files.makeDirs root.depsDir
    set { s with files }
    match made with
    | .error e => refuse name (.noDepsDir e)
    | .ok () =>
      note ⟨.info, "ristretto.manifest", "cloning " ++ name ++ " from " ++ d.git⟩
      refuse name (.git .clone)
  | _ =>
    if ((lock.bind fun l => l.find? name).map LockedDep.tag) != some d.tag then
      note ⟨.info, "ristretto.manifest", "fetching " ++ name⟩
      refuse name (.git .fetch)
    else if !d.tag.isEmpty then refuse name (.git .checkout)
    else settle name dir

def resolveOne (root : Manifest) (lock : Option Lock) (base name : Bytes) (d : Dependency) :
    ResolveM ResolvedDep :=
  if !d.path.isEmpty then resolvePath base name d.path
  else if !d.git.isEmpty then resolveGit root lock name d
  else refuse name (.noSource name)

def declared (deps : Table Dependency) : List (Bytes × Dependency) :=
  deps.names.filterMap fun name => (deps.get? name).map (name, ·)

/-- Resolves declarations one after another. What a dependency declares itself is resolved by
`inner`, in its own directory, and comes before it. -/
def resolveList (root : Manifest) (lock : Option Lock)
    (inner : Bytes → List (Bytes × Dependency) → ResolveM (List ResolvedDep)) (base : Bytes) :
    List (Bytes × Dependency) → ResolveM (List ResolvedDep)
  | [] => return []
  | (name, d) :: rest => do
    if (← get).resolved.contains name then resolveList root lock inner base rest
    else
      let found ← resolveOne root lock base name d
      modify fun s => { s with resolved := name :: s.resolved }
      let own := (found.manifest.map fun m => declared m.dependencies).getD []
      let before ← inner found.dir own
      let after ← resolveList root lock inner base rest
      return before ++ [found] ++ after

/-- Resolves declarations and what they lead to, at most `depth` manifests deep. -/
def resolveAll (root : Manifest) (lock : Option Lock) :
    Nat → Bytes → List (Bytes × Dependency) → ResolveM (List ResolvedDep)
  | 0, _, _ => return []
  | depth + 1, base, deps => resolveList root lock (resolveAll root lock depth) base deps

/-- The names that any file declares as dependencies. No chain of manifests is longer, because
each of them was reached by a name of its own. -/
def declaredNames (files : Files) : List Bytes :=
  (files.contents.filterMap Manifest.parse).flatMap fun m => m.dependencies.names

/-- The record of a resolved dependency. A name that the project itself takes from a repository is
recorded as such, any other by its directory. -/
def lockedDep (root : Manifest) (d : ResolvedDep) : LockedDep :=
  match root.dependencies.get? d.name with
  | some declared =>
    if declared.git.isEmpty then { name := d.name, path := d.dir }
    else { name := d.name, git := declared.git, tag := declared.tag }
  | none => { name := d.name, path := d.dir }

def writeLock (root : Manifest) (deps : List ResolvedDep) : ResolveM Unit := do
  let s ← get
  let (made, files) := s.files.makeDirs (Path.parent root.lockPath)
  set { s with files }
  match made.bind fun () => Lock.save files root.lockPath (deps.map (lockedDep root)) with
  | .error e => throw (.lockUnwritable e)
  | .ok files => set { s with files }

def run (root : Manifest) : ResolveM (List ResolvedDep) := do
  let files := (← get).files
  match Lock.load files root.lockPath with
  | .error e => throw (.lockUnreadable e)
  | .ok lock =>
    let depth := (declaredNames files).length + root.dependencies.size + 1
    let deps ← resolveAll root lock depth root.dir (declared root.dependencies)
    writeLock root deps
    return deps

end Resolve

/-- What resolution led to, the files as it left them, and what it logged. -/
structure Resolution where
  outcome : Except ResolveError (List ResolvedDep)
  files : Files
  log : List Log.Line

/-- The dependencies of a project in load order. A project without any leaves the files alone. -/
def Manifest.resolveDependencies (m : Manifest) (files : Files) : Resolution :=
  if m.dependencies.size = 0 then ⟨.ok [], files, []⟩
  else
    let (outcome, s) := (Resolve.run m).run.run ⟨files, [], []⟩
    ⟨outcome, s.files, s.log⟩

structure ClassSource where
  path : Bytes
  image : Bool
  deriving DecidableEq, Repr

/-- The class directories of a project, then its images. -/
def Manifest.ownSources (m : Manifest) : List ClassSource :=
  m.classDirPaths.map (⟨·, false⟩) ++ m.imagePaths.map (⟨·, true⟩)

/-- The sources of a dependency; without a manifest it has the usual class directory. -/
def ResolvedDep.sources (d : ResolvedDep) : List ClassSource :=
  match d.manifest with
  | some m => m.ownSources
  | none => [⟨Path.join d.dir Manifest.defaultClassDir, false⟩]

/-- The sources of a project in load order, its own last, so its classes replace those of its
dependencies. -/
def Manifest.classSources (m : Manifest) (deps : List ResolvedDep) : List ClassSource :=
  deps.flatMap ResolvedDep.sources ++ m.ownSources

end MiniJvm
