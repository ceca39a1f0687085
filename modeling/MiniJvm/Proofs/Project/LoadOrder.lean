import Mathlib
import MiniJvm.Proofs.Project.Traversal

/-!
# Load order

What resolution finds is the part of a graph that the project reaches: a dependency declares what
its own manifest names. Each name is found once, where the first declaration that is met puts it,
and stands behind everything that its manifest declares, unless that leads back to it
(`InOrder`). A dependency brings the sources that its manifest lists (`Brings`), so they are loaded
before those of its dependents (`resolveDependencies_loadOrder`).
-/

namespace MiniJvm

open Relation (ReflTransGen TransGen)

/-- The names that the manifest of a resolved dependency declares. -/
def ResolvedDep.declares (d : ResolvedDep) (name : Bytes) : Prop :=
  ∃ own, d.manifest = some own ∧ own.dependencies.contains name = true

theorem ResolvedDep.mem_declarations {d : ResolvedDep} {name : Bytes} {decl : Dependency} :
    (name, decl) ∈ d.declarations ↔
      ∃ own, d.manifest = some own ∧ own.dependencies.get? name = some decl := by
  unfold declarations
  cases d.manifest with
  | none => simp
  | some own =>
    rw [Option.map_some, Option.getD_some, Resolve.mem_declared]
    simp

theorem ResolvedDep.declares_iff {d : ResolvedDep} {name : Bytes} :
    d.declares name ↔ name ∈ d.declarations.map Prod.fst := by
  unfold declares declarations
  cases d.manifest with
  | none => simp
  | some own =>
    rw [Option.map_some, Option.getD_some, Resolve.mem_names_declared]
    simp

namespace Resolve

/-! ## Declarations among dependencies -/

/-- A dependency of the first name declares the second one. -/
def Declares (deps : List ResolvedDep) (x y : Bytes) : Prop :=
  ∃ d ∈ deps, d.name = x ∧ d.declares y

/-- No name leads back to itself. -/
def Acyclic (deps : List ResolvedDep) : Prop := ∀ name, ¬TransGen (Declares deps) name name

/-- The first dependency stands before the second one. -/
def Precedes (deps : List ResolvedDep) (e d : ResolvedDep) : Prop :=
  ∃ before between after, deps = before ++ e :: between ++ d :: after

theorem leads_mono {deps more : List ResolvedDep} (hsub : deps ⊆ more) {x y : Bytes}
    (h : ReflTransGen (Declares deps) x y) : ReflTransGen (Declares more) x y :=
  ReflTransGen.mono (fun _ _ ⟨d, hd, hdecl⟩ => ⟨d, hsub hd, hdecl⟩) x y h

/-! ## One traversal -/

variable {root : Manifest} {lock : Option Lock}

/-- What a traversal found from declarations in a directory after other names had been met: each
dependency is reached from the declarations and lies where it is declared, what it declares was
met, and what stands behind it and is declared by it leads back to it. -/
structure InOrder (root : Manifest) (files : Files) (base : Bytes)
    (deps : List (Bytes × Dependency)) (met : List Bytes) (out : List ResolvedDep) : Prop where
  reached : ∀ d ∈ out, ∃ name ∈ deps.map Prod.fst, ReflTransGen (Declares out) name d.name
  placed : ∀ d ∈ out, ∃ decl, (d.name, decl) ∈ deps ∧ d = lying files root base d.name decl ∨
    ∃ e ∈ out, (d.name, decl) ∈ e.declarations ∧ d = lying files root e.dir d.name decl
  covered : ∀ d ∈ out, ∀ name, d.declares name → name ∈ met ∨ name ∈ out.map ResolvedDep.name
  ordered : out.Pairwise fun e d => e.declares d.name → ReflTransGen (Declares out) d.name e.name

/-! ### After a dependency was found -/

section Found

variable {files : Files} {base name : Bytes} {d : Dependency} {met : List Bytes}
  {rest : List (Bytes × Dependency)} {found : ResolvedDep} {before after : List ResolvedDep}
  {t u v : Resolving}

theorem mem_found {e : ResolvedDep} :
    e ∈ before ++ [found] ++ after ↔ e ∈ before ∨ e = found ∨ e ∈ after := by
  simp

/-- What is found inside is reached through the dependency itself. -/
theorem InOrder.leads (h : InOrder root files found.dir found.declarations met before)
    {e : ResolvedDep} (he : e ∈ before) :
    ReflTransGen (Declares (before ++ [found] ++ after)) found.name e.name := by
  obtain ⟨n, hn, hlead⟩ := h.reached e he
  exact .head ⟨found, mem_found.2 (.inr (.inl rfl)), rfl, ResolvedDep.declares_iff.2 hn⟩
    (leads_mono (fun _ h => mem_found.2 (.inl h)) hlead)

/-- What stands behind others and leads back to what declares it still does so among more. -/
theorem pairwise_leads_mono {out more : List ResolvedDep} (hsub : out ⊆ more)
    (h : out.Pairwise fun e d => e.declares d.name → ReflTransGen (Declares out) d.name e.name) :
    out.Pairwise fun e d => e.declares d.name → ReflTransGen (Declares more) d.name e.name :=
  h.imp fun hlead hdecl => leads_mono hsub (hlead hdecl)

theorem InOrder.cons (hname : found.name = name) (hfound : found = lying files root base name d)
    (hmet : ∀ n, n ∈ t.resolved ↔ n = name ∨ n ∈ met)
    (hinner : InOrder root files found.dir found.declarations t.resolved before)
    (hgained : Gained found.declarations t before u)
    (hrest : InOrder root files base rest u.resolved after) (hlater : Gained rest u after v) :
    InOrder root files base ((name, d) :: rest) met (before ++ [found] ++ after) := by
  have hbefore : before ⊆ before ++ [found] ++ after := fun _ h => mem_found.2 (.inl h)
  have hafter : after ⊆ before ++ [found] ++ after := fun _ h => mem_found.2 (.inr (.inr h))
  have hfront : ∀ e ∈ before ++ [found], ∀ n, e.declares n → n ∈ u.resolved := by
    intro e he n hdecl
    rcases List.mem_append.1 he with he | he
    · rw [hgained.resolved]
      exact hinner.covered e he n hdecl
    · rw [List.mem_singleton.1 he] at hdecl
      exact hgained.covered n (ResolvedDep.declares_iff.1 hdecl)
  have hmet' : ∀ n ∈ u.resolved,
      n ∈ met ∨ n ∈ (before ++ [found] ++ after).map ResolvedDep.name := by
    intro n hn
    rw [hgained.resolved, hmet] at hn
    rw [mem_names_found, hname]
    tauto
  refine ⟨fun e he => ?_, fun e he => ?_, fun e he n hdecl => ?_, ?_⟩
  · rcases mem_found.1 he with he | rfl | he
    · exact ⟨name, List.mem_cons_self, hname ▸ hinner.leads he⟩
    · exact ⟨name, List.mem_cons_self, hname ▸ .refl⟩
    · obtain ⟨n, hn, hlead⟩ := hrest.reached e he
      exact ⟨n, List.mem_cons_of_mem _ hn, leads_mono hafter hlead⟩
  · rcases mem_found.1 he with he | rfl | he
    · obtain ⟨decl, ⟨hdecl, heq⟩ | ⟨e', he', hdecl⟩⟩ := hinner.placed e he
      · exact ⟨decl, .inr ⟨found, mem_found.2 (.inr (.inl rfl)), hdecl, heq⟩⟩
      · exact ⟨decl, .inr ⟨e', hbefore he', hdecl⟩⟩
    · exact ⟨d, .inl (hname ▸ ⟨List.mem_cons_self, hname ▸ hfound⟩)⟩
    · obtain ⟨decl, ⟨hdecl, heq⟩ | ⟨e', he', hdecl⟩⟩ := hrest.placed e he
      · exact ⟨decl, .inl ⟨List.mem_cons_of_mem _ hdecl, heq⟩⟩
      · exact ⟨decl, .inr ⟨e', hafter he', hdecl⟩⟩
  · rcases List.mem_append.1 he with he | he
    · exact hmet' n (hfront e he n hdecl)
    · rcases hrest.covered e he n hdecl with hn | hn
      · exact hmet' n hn
      · exact .inr (mem_names_found.2 (.inr (.inr hn)))
  · rw [List.pairwise_append, List.pairwise_append]
    refine ⟨⟨pairwise_leads_mono hbefore hinner.ordered, List.pairwise_singleton _ _,
      fun e he e' he' _ => ?_⟩, pairwise_leads_mono hafter hrest.ordered,
      fun e he e' he' hdecl => ?_⟩
    · rw [List.mem_singleton.1 he']
      exact hinner.leads he
    · exact absurd (hfront e he _ hdecl) (hlater.new _ (List.mem_map_of_mem he'))

end Found

theorem Visits.inOrder {base : Bytes} {deps : List (Bytes × Dependency)} {s t : Resolving}
    {outcome : Except ResolveError (List ResolvedDep)}
    (h : Visits root lock base deps s outcome t) :
    ∀ out, outcome = .ok out → InOrder root s.files base deps s.resolved out := by
  induction h with
  | done =>
    rintro _ ⟨⟩
    exact ⟨nofun, nofun, nofun, .nil⟩
  | again hseen _ ih =>
    intro out hout
    have h := ih out hout
    refine ⟨fun d hd => ?_, fun d hd => ?_, h.covered, h.ordered⟩
    · obtain ⟨n, hn, hlead⟩ := h.reached d hd
      exact ⟨n, List.mem_cons_of_mem _ hn, hlead⟩
    · obtain ⟨decl, hdecl⟩ := h.placed d hd
      exact ⟨decl, hdecl.imp_left fun ⟨hin, heq⟩ => ⟨List.mem_cons_of_mem _ hin, heq⟩⟩
  | refused => nofun
  | refusedInside => nofun
  | refusedLater => nofun
  | found hnew hone hvisit hlist ihinner ihrest =>
    rintro _ ⟨⟩
    obtain ⟨hfound, hfiles, hresolved⟩ := resolveOne_ok hone
    have hgained := hvisit.gained _ rfl
    have hinner := ihinner _ rfl
    have hrest := ihrest _ rfl
    have hmark := hfiles
    rw [← Resolving.mark_files] at hmark
    rw [hmark] at hinner
    rw [hgained.files, hmark] at hrest
    refine .cons (congrArg ResolvedDep.name hfound) hfound (fun n => ?_) hinner hgained hrest
      (hlist.gained _ rfl)
    rw [← hresolved]
    exact List.mem_cons

/-! ## Sources -/

/-- Where a path of a manifest leads: a relative one starts at the directory of the manifest. -/
inductive LeadsTo (dir : Bytes) : Bytes → Bytes → Prop where
  | absolute {path : Bytes} : Path.isAbsolute path = true → LeadsTo dir path path
  | relative {path : Bytes} : Path.isAbsolute path = false → LeadsTo dir path (Path.join dir path)

/-- The class directories that a manifest lists, and then its images. -/
inductive Lists (m : Manifest) : List ClassSource → Prop where
  | intro {dirs images : List Bytes} : List.Forall₂ (LeadsTo m.dir) m.classDirs dirs →
      List.Forall₂ (LeadsTo m.dir) m.images images →
      Lists m (dirs.map (⟨·, false⟩) ++ images.map (⟨·, true⟩))

/-- The sources of a dependency: those that its manifest lists, or its directory `classes` if there
is no manifest. -/
inductive Brings : ResolvedDep → List ClassSource → Prop where
  | listed {name dir : Bytes} {own : Manifest} {sources : List ClassSource} :
      Lists own sources → Brings ⟨name, dir, some own⟩ sources
  | bare {name dir : Bytes} :
      Brings ⟨name, dir, none⟩ [⟨Path.join dir "classes", false⟩]

theorem leadsTo_resolve (m : Manifest) (path : Bytes) : LeadsTo m.dir path (m.resolve path) := by
  unfold Manifest.resolve Path.resolve
  split
  · rename_i habsolute
    exact .absolute habsolute
  · rename_i hrelative
    exact .relative (eq_false_of_ne_true hrelative)

theorem lists_ownSources (m : Manifest) : Lists m m.ownSources := by
  have hpaths : ∀ paths : List Bytes, List.Forall₂ (LeadsTo m.dir) paths (paths.map m.resolve) :=
    fun paths => List.forall₂_map_right_iff.2 (List.forall₂_same.2 fun _ _ => leadsTo_resolve m _)
  exact .intro (hpaths m.classDirs) (hpaths m.images)

theorem brings_sources (d : ResolvedDep) : Brings d d.sources := by
  obtain ⟨name, dir, manifest⟩ := d
  cases manifest with
  | none => exact .bare
  | some own => exact .listed (lists_ownSources own)

/-! ## The order of a project -/

/-- The dependencies of a project in load order. -/
structure LoadOrder (m : Manifest) (files : Files) (deps : List ResolvedDep) : Prop where
  /-- No name occurs twice. -/
  once : (deps.map ResolvedDep.name).Nodup
  /-- The names are those to which the declarations of the project lead. -/
  names : ∀ name, name ∈ deps.map ResolvedDep.name ↔
    ∃ start, m.dependencies.contains start = true ∧ ReflTransGen (Declares deps) start name
  /-- Each lies where the project or another one of them declares it. -/
  placed : ∀ d ∈ deps, ∃ decl,
    m.dependencies.get? d.name = some decl ∧ d = lying files m m.dir d.name decl ∨
      ∃ e ∈ deps, ∃ own, e.manifest = some own ∧ own.dependencies.get? d.name = some decl ∧
        d = lying files m e.dir d.name decl
  /-- What a dependency declares stands before it, unless that leads back to it. -/
  precedes : ∀ d ∈ deps, ∀ name, d.declares name →
    ¬ReflTransGen (Declares deps) name d.name → ∃ e, e.name = name ∧ Precedes deps e d
  /-- So without circles all that it declares stands before it. -/
  precedesAll : Acyclic deps → ∀ d ∈ deps, ∀ name, d.declares name →
    ∃ e, e.name = name ∧ Precedes deps e d
  /-- The sources are those that the dependencies bring, in their order, and then those that the
  project lists. -/
  sources : ∃ brought own, List.Forall₂ Brings deps brought ∧ Lists m own ∧
    m.classSources deps = brought.flatten ++ own
  /-- So what one dependency brings stands before what a later one brings. -/
  sourcesPrecede : ∀ e d, Precedes deps e d → ∃ first second own before between after,
    Brings e first ∧ Brings d second ∧ Lists m own ∧
      m.classSources deps = before ++ first ++ between ++ second ++ after ++ own

theorem Ends.visits {m : Manifest} {files : Files} {deps : List ResolvedDep}
    (h : Ends m files (.ok deps)) :
    ∃ lock t, Visits m lock m.dir (declared m.dependencies) ⟨files, [], []⟩ (.ok deps) t := by
  cases h with
  | nothing hsize =>
    have hitems : m.dependencies.items = [] := List.eq_nil_of_length_eq_zero hsize
    have hnone : declared m.dependencies = [] := by
      simp [declared, Table.names, hitems, Bytes.sort]
    rw [hnone]
    exact ⟨none, _, .done⟩
  | resolved _ _ hvisit _ => exact ⟨_, _, hvisit⟩

section LoadOrder

variable {m : Manifest} {files : Files} {deps : List ResolvedDep} {s t : Resolving} {base : Bytes}
  {declarations : List (Bytes × Dependency)}

theorem InOrder.mem_names_iff (h : InOrder root files base declarations [] deps)
    (hgained : Gained declarations s deps t) (hstart : s.resolved = []) {name : Bytes} :
    name ∈ deps.map ResolvedDep.name ↔
      ∃ start ∈ declarations.map Prod.fst, ReflTransGen (Declares deps) start name := by
  constructor
  · intro hname
    obtain ⟨d, hd, rfl⟩ := List.mem_map.1 hname
    exact h.reached d hd
  · rintro ⟨start, hin, hlead⟩
    induction hlead with
    | refl =>
      have hmet := (hgained.resolved start).1 (hgained.covered start hin)
      rw [hstart] at hmet
      exact hmet.resolve_left List.not_mem_nil
    | tail _ hstep _ =>
      obtain ⟨d, hd, -, hdecl⟩ := hstep
      exact (h.covered d hd _ hdecl).resolve_left List.not_mem_nil

theorem InOrder.precedes (h : InOrder root files base declarations [] deps) {d : ResolvedDep}
    (hd : d ∈ deps) {name : Bytes} (hdecl : d.declares name)
    (hback : ¬ReflTransGen (Declares deps) name d.name) :
    ∃ e, e.name = name ∧ Precedes deps e d := by
  have hname := (h.covered d hd name hdecl).resolve_left List.not_mem_nil
  obtain ⟨e, he, rfl⟩ := List.mem_map.1 hname
  obtain ⟨front, behind, rfl⟩ := List.append_of_mem hd
  refine ⟨e, rfl, ?_⟩
  rcases List.mem_append.1 he with he | he
  · obtain ⟨before, between, rfl⟩ := List.append_of_mem he
    exact ⟨before, between, behind, rfl⟩
  rcases List.mem_cons.1 he with rfl | he
  · exact absurd .refl hback
  · have hbehind := (List.pairwise_append.1 h.ordered).2.1
    exact absurd ((List.pairwise_cons.1 hbehind).1 e he hdecl) hback

theorem classSources_brought (m : Manifest) (deps : List ResolvedDep) :
    ∃ brought own, List.Forall₂ Brings deps brought ∧ Lists m own ∧
      m.classSources deps = brought.flatten ++ own := by
  refine ⟨deps.map ResolvedDep.sources, m.ownSources, ?_, lists_ownSources m, ?_⟩
  · exact List.forall₂_map_right_iff.2 (List.forall₂_same.2 fun d _ => brings_sources d)
  · rw [Manifest.classSources, List.flatMap_def]

theorem classSources_of_precedes {e d : ResolvedDep} (h : Precedes deps e d) :
    ∃ first second own before between after, Brings e first ∧ Brings d second ∧ Lists m own ∧
      m.classSources deps = before ++ first ++ between ++ second ++ after ++ own := by
  obtain ⟨before, between, after, rfl⟩ := h
  refine ⟨e.sources, d.sources, m.ownSources, before.flatMap ResolvedDep.sources,
    between.flatMap ResolvedDep.sources, after.flatMap ResolvedDep.sources,
    brings_sources e, brings_sources d, lists_ownSources m, ?_⟩
  simp [Manifest.classSources]

theorem loadOrder_of_ends (h : Ends m files (.ok deps)) : LoadOrder m files deps := by
  obtain ⟨lock, t, hvisit⟩ := h.visits
  have hgained := hvisit.gained deps rfl
  have horder := hvisit.inOrder deps rfl
  refine ⟨hgained.once, fun name => ?_, fun d hd => ?_, fun d hd name => horder.precedes hd,
    fun hacyclic d hd name hdecl => ?_, classSources_brought m deps,
    fun e d => classSources_of_precedes⟩
  · rw [horder.mem_names_iff hgained rfl]
    simp only [mem_names_declared]
  · obtain ⟨decl, ⟨hdecl, heq⟩ | ⟨e, he, hdecl, heq⟩⟩ := horder.placed d hd
    · exact ⟨decl, .inl ⟨mem_declared.1 hdecl, heq⟩⟩
    · obtain ⟨own, hown, hdecl⟩ := ResolvedDep.mem_declarations.1 hdecl
      exact ⟨decl, .inr ⟨e, he, own, hown, hdecl, heq⟩⟩
  · exact horder.precedes hd hdecl fun hback =>
      hacyclic d.name (.head' ⟨d, hd, rfl, hdecl⟩ hback)

end LoadOrder

/-- Every resolution ends as it would if nothing bounded its depth, also in circles, and one that
succeeds gives the dependencies in load order. -/
theorem resolveDependencies_loadOrder (m : Manifest) (files : Files) :
    Ends m files (m.resolveDependencies files).outcome ∧
      ∀ deps, (m.resolveDependencies files).outcome = .ok deps → LoadOrder m files deps := by
  have hends := ends_resolveDependencies m files
  exact ⟨hends, fun deps hdeps => loadOrder_of_ends (hdeps ▸ hends)⟩

/-- A project that needs `a`, which needs `b`; `b` and `c` need each other. -/
def lasso : Manifest := { dir := "/app", dependencies := ⟨[("a", { path := "a" })]⟩ }

def lassoFiles : Files where
  root := .dir [("app", .dir [
    ("a", .dir [(Manifest.fileName, .file "[dependencies.b]\npath = '../b'")]),
    ("b", .dir [(Manifest.fileName, .file "[dependencies.c]\npath = '../c'")]),
    ("c", .dir [(Manifest.fileName, .file "[dependencies.b]\npath = '../b'")])])]
  workDir := []

theorem resolveDependencies_loadOrder_lasso :
    ∃ deps, (lasso.resolveDependencies lassoFiles).outcome = .ok deps ∧
      deps.map ResolvedDep.name = ["c", "b", "a"] ∧
      lasso.classSources deps =
        [⟨"/app/c/classes", false⟩, ⟨"/app/b/classes", false⟩, ⟨"/app/a/classes", false⟩] ∧
      LoadOrder lasso lassoFiles deps := by
  have hfound : (lasso.resolveDependencies lassoFiles).outcome.map
      (fun deps => (deps.map ResolvedDep.name, lasso.classSources deps)) =
      .ok (["c", "b", "a"],
        [⟨"/app/c/classes", false⟩, ⟨"/app/b/classes", false⟩, ⟨"/app/a/classes", false⟩]) := by
    decide +kernel
  cases hdeps : (lasso.resolveDependencies lassoFiles).outcome with
  | error e =>
    rw [hdeps] at hfound
    cases hfound
  | ok deps =>
    rw [hdeps] at hfound
    obtain ⟨hnames, hsources⟩ := Prod.mk.inj (Except.ok.inj hfound)
    have horder := (resolveDependencies_loadOrder lasso lassoFiles).2 deps hdeps
    exact ⟨deps, rfl, hnames, hsources, horder⟩

end Resolve

end MiniJvm
