import Mathlib
import MiniJvm.Proofs.Files.ReadWrite
import MiniJvm.Proofs.Project.LoadOrder
import MiniJvm.Proofs.Project.LockFile

/-!
# Declarations of the project itself

Resolution goes through the names that a project declares in byte order, and through what each of
them leads to before the next one. So a name lies where the project puts it, unless a name before
it leads to it: then it was met inside, and the declaration that was met there decided
(`resolveDependencies_own`). The lock file records the directory in either case.
-/

namespace MiniJvm.Resolve

open Relation (ReflTransGen)

variable {root : Manifest} {lock : Option Lock}

/-! ## The names before a name -/

theorem declared_sorted (deps : Table Dependency) :
    (declared deps).Pairwise fun x y => Bytes.le x.1 y.1 = true := by
  unfold declared Table.names
  rw [List.pairwise_filterMap]
  refine (Bytes.sort_sorted _).imp fun {a b} hab x hx y hy => ?_
  obtain ⟨_, -, rfl⟩ := Option.map_eq_some_iff.1 hx
  obtain ⟨_, -, rfl⟩ := Option.map_eq_some_iff.1 hy
  exact hab

/-- A declared name with all names that stand before it. -/
theorem declared_split {deps : Table Dependency} {name : Bytes} {d : Dependency}
    (h : deps.get? name = some d) :
    ∃ front behind, declared deps = front ++ (name, d) :: behind ∧
      ∀ start, start ∈ front.map Prod.fst ↔
        deps.contains start = true ∧ Bytes.Before start name := by
  obtain ⟨front, behind, hsplit, hfirst⟩ := List.eq_append_cons_of_mem (mem_declared.2 h)
  have hsorted := declared_sorted deps
  rw [hsplit, List.pairwise_append, List.pairwise_cons] at hsorted
  obtain ⟨-, ⟨hbehind, -⟩, hfront⟩ := hsorted
  refine ⟨front, behind, hsplit, fun start => ?_⟩
  rw [← mem_names_declared, hsplit, List.map_append, List.mem_append, List.map_cons,
    List.mem_cons]
  constructor
  · intro hstart
    refine ⟨.inl hstart, ?_⟩
    obtain ⟨⟨_, d'⟩, hmem, rfl⟩ := List.mem_map.1 hstart
    refine ⟨hfront _ hmem _ List.mem_cons_self, ?_⟩
    rintro rfl
    have hget := mem_declared.1 (hsplit ▸ List.mem_append_left _ hmem)
    exact hfirst (Option.some.inj (hget.symm.trans h) ▸ hmem)
  · rintro ⟨hstart | rfl | hstart, hle, hne⟩
    · exact hstart
    · exact absurd rfl hne
    · obtain ⟨x, hmem, rfl⟩ := List.mem_map.1 hstart
      exact absurd (Bytes.le_antisymm hle (hbehind x hmem)) hne

/-! ## A traversal in two parts -/

theorem Visits.split {base : Bytes} {front behind : List (Bytes × Dependency)} {s t : Resolving}
    {out : List ResolvedDep} (h : Visits root lock base (front ++ behind) s (.ok out) t) :
    ∃ u before after, Visits root lock base front s (.ok before) u ∧
      Visits root lock base behind u (.ok after) t ∧ out = before ++ after := by
  induction front generalizing s out with
  | nil => exact ⟨s, [], out, .done, h, rfl⟩
  | cons first front ih =>
    cases h with
    | again hseen hrest =>
      obtain ⟨u, before, after, hbefore, hafter, rfl⟩ := ih hrest
      exact ⟨u, before, after, .again hseen hbefore, hafter, rfl⟩
    | found hnew hone hinner hrest =>
      obtain ⟨u, before, after, hbefore, hafter, rfl⟩ := ih hrest
      exact ⟨u, _, after, .found hnew hone hinner hbefore, hafter,
        (List.append_assoc ..).symm⟩

section Parts

variable {files : Files} {base : Bytes} {front behind : List (Bytes × Dependency)}
  {before after : List ResolvedDep} {s u t : Resolving}

/-- The first part goes as far as its declarations lead, also through all that is found. -/
theorem mem_names_before_iff (hstart : s.resolved = [])
    (horder : InOrder root files base front [] before) (hbefore : Gained front s before u)
    (hafter : Gained behind u after t) {name : Bytes} :
    name ∈ before.map ResolvedDep.name ↔
      ∃ start ∈ front.map Prod.fst, ReflTransGen (Declares (before ++ after)) start name := by
  rw [horder.mem_names_iff hbefore hstart]
  constructor
  · rintro ⟨start, hin, hlead⟩
    exact ⟨start, hin, leads_mono (List.subset_append_left _ _) hlead⟩
  · rintro ⟨start, hin, hlead⟩
    refine ⟨start, hin, ?_⟩
    induction hlead with
    | refl => exact .refl
    | @tail x y hto hstep ih =>
      refine ih.tail ?_
      obtain ⟨d, hd, rfl, hdecl⟩ := hstep
      rcases List.mem_append.1 hd with hd | hd
      · exact ⟨d, hd, rfl, hdecl⟩
      · have hmet := (horder.mem_names_iff hbefore hstart).2 ⟨start, hin, ih⟩
        exact absurd ((hbefore.resolved _).2 (.inr hmet))
          (hafter.new _ (List.mem_map_of_mem hd))

end Parts

/-! ## Own declarations -/

/-- A name that the project declares, and that stands before `name`, leads to `target`. -/
def LedTo (m : Manifest) (deps : List ResolvedDep) (name target : Bytes) : Prop :=
  ∃ start, m.dependencies.contains start = true ∧ Bytes.Before start name ∧
    ReflTransGen (Declares deps) start target

/-- The dependency lies where another one puts it that the names before its own lead to. -/
def LiesInside (m : Manifest) (files : Files) (deps : List ResolvedDep) (found : ResolvedDep) :
    Prop :=
  ∃ e ∈ deps, LedTo m deps found.name e.name ∧ ∃ own decl, e.manifest = some own ∧
    own.dependencies.get? found.name = some decl ∧
    found = lying files m e.dir found.name decl

theorem own_of_visits {m : Manifest} {files : Files} {deps : List ResolvedDep} {t : Resolving}
    (h : Visits m lock m.dir (declared m.dependencies) ⟨files, [], []⟩ (.ok deps) t)
    {name : Bytes} {d : Dependency} (hdecl : m.dependencies.get? name = some d) :
    ∃ found ∈ deps, found.name = name ∧
      ((¬LedTo m deps name name ∧ found = lying files m m.dir name d) ∨
        LedTo m deps name name ∧ LiesInside m files deps found) := by
  obtain ⟨front, behind, hsplit, hfront⟩ := declared_split hdecl
  rw [hsplit] at h
  obtain ⟨u, before, after, hvisit, hrest, rfl⟩ := h.split
  have horder := hvisit.inOrder before rfl
  have hbefore := hvisit.gained before rfl
  have hafter := hrest.gained after rfl
  have hled : name ∈ before.map ResolvedDep.name ↔
      LedTo m (before ++ after) name name := by
    rw [mem_names_before_iff rfl horder hbefore hafter]
    simp only [hfront, and_assoc, LedTo]
  by_cases hmet : name ∈ before.map ResolvedDep.name
  · obtain ⟨found, hfound, rfl⟩ := List.mem_map.1 hmet
    refine ⟨found, List.mem_append_left _ hfound, rfl, .inr ⟨hled.1 hmet, ?_⟩⟩
    obtain ⟨decl, ⟨hown, -⟩ | ⟨e, he, hinside, hlies⟩⟩ := horder.placed found hfound
    · have hself := ((hfront _).1 (List.mem_map_of_mem hown)).2.2
      exact absurd rfl hself
    · obtain ⟨own, hmanifest, hget⟩ := ResolvedDep.mem_declarations.1 hinside
      obtain ⟨start, hstart, hlead⟩ := horder.reached e he
      obtain ⟨hcontains, hless⟩ := (hfront start).1 hstart
      have hled' : LedTo m (before ++ after) found.name e.name :=
        ⟨start, hcontains, hless, leads_mono (List.subset_append_left _ _) hlead⟩
      exact ⟨e, List.mem_append_left _ he, hled', own, decl, hmanifest, hget, hlies⟩
  · cases hrest with
    | again hseen =>
      exact absurd (((hbefore.resolved name).1 hseen).resolve_left List.not_mem_nil) hmet
    | found _ hone _ _ =>
      obtain ⟨hfound, -, -⟩ := resolveOne_ok hone
      rw [hbefore.files] at hfound
      refine ⟨_, List.mem_append_right _ (mem_found.2 (.inr (.inl rfl))), ?_,
        .inl ⟨fun hlead => hmet (hled.2 hlead), hfound⟩⟩
      rw [hfound]
      rfl

/-! ## The lock file -/

theorem set_apply (t s : Resolving) : (set t : ResolveM PUnit) s = (.ok ⟨⟩, t) := rfl

theorem saved_of_writeLock {m : Manifest} {deps : List ResolvedDep} {s t : Resolving}
    (h : writeLock m deps s = (.ok (), t)) :
    ∃ made, Lock.save made m.lockPath (deps.map (lockedDep m)) = .ok t.files := by
  rw [writeLock, bind_apply, get_apply] at h
  dsimp only at h
  rcases hmade : s.files.makeDirs (Path.parent m.lockPath) with ⟨made, files⟩
  rw [hmade] at h
  dsimp only at h
  rw [bind_apply, set_apply] at h
  dsimp only at h
  cases hsave : made.bind fun _ => Lock.save files m.lockPath (deps.map (lockedDep m)) with
  | error e =>
    rw [hsave] at h
    cases h
  | ok saved =>
    rw [hsave] at h
    cases h
    obtain ⟨_, -, hsave⟩ := bind_eq_ok.1 hsave
    exact ⟨files, hsave⟩

theorem saved_of_run {m : Manifest} {deps : List ResolvedDep} {s t : Resolving}
    (h : run m s = (.ok deps, t)) :
    ∃ made, Lock.save made m.lockPath (deps.map (lockedDep m)) = .ok t.files := by
  rw [run, bind_apply, get_apply] at h
  dsimp only at h
  cases hlock : Lock.load s.files m.lockPath with
  | error e =>
    rw [hlock] at h
    cases h
  | ok lock =>
    rw [hlock] at h
    dsimp only at h
    rw [bind_apply] at h
    rcases hall : resolveAll m lock _ m.dir (declared m.dependencies) s with ⟨e | found, u⟩
    · rw [hall] at h
      cases h
    · rw [hall] at h
      dsimp only at h
      rw [bind_apply] at h
      rcases hwrite : writeLock m found u with ⟨e | _, v⟩
      · rw [hwrite] at h
        cases h
      · rw [hwrite] at h
        cases h
        exact saved_of_writeLock hwrite

/-- After a resolution the lock file holds the records of what was resolved. -/
theorem read_lock {m : Manifest} {files : Files} {deps : List ResolvedDep}
    (hsize : m.dependencies.size ≠ 0) (h : (m.resolveDependencies files).outcome = .ok deps) :
    (m.resolveDependencies files).files.read m.lockPath =
      .ok (Lock.text (deps.map (lockedDep m))) := by
  rw [Manifest.resolveDependencies, if_neg hsize] at h ⊢
  obtain ⟨made, hsave⟩ := saved_of_run (m := m) (s := ⟨files, [], []⟩) (Prod.ext h rfl)
  exact Files.read_write hsave

/-- So the records are read back from it, if their fields are texts. -/
theorem load_lock {m : Manifest} {files : Files} {deps : List ResolvedDep}
    (hsize : m.dependencies.size ≠ 0) (h : (m.resolveDependencies files).outcome = .ok deps)
    (htext : ∀ e ∈ deps, (lockedDep m e).IsText) :
    Lock.load (m.resolveDependencies files).files m.lockPath =
      .ok (some (deps.map (lockedDep m))) := by
  rw [Lock.load, read_lock hsize h]
  dsimp only
  rw [Lock.parse_text (List.forall_mem_map.2 htext)]

theorem name_lockedDep (m : Manifest) (d : ResolvedDep) : (lockedDep m d).name = d.name := by
  unfold lockedDep
  split
  · split <;> rfl
  · rfl

/-- The first record under a name is that of the dependency with the name. -/
theorem find?_lock {m : Manifest} {deps : List ResolvedDep} {found : ResolvedDep}
    (honce : ∀ e ∈ deps, e.name = found.name → e = found) (hfound : found ∈ deps) :
    Lock.find? (deps.map (lockedDep m)) found.name = some (lockedDep m found) := by
  have hfirst : deps.find? ((fun d => d.name == found.name) ∘ lockedDep m) = some found := by
    cases hfind : deps.find? ((fun d => d.name == found.name) ∘ lockedDep m) with
    | none => simpa [name_lockedDep] using List.find?_eq_none.1 hfind found hfound
    | some e =>
      have hname := List.find?_some hfind
      rw [Function.comp_apply, name_lockedDep, beq_iff_eq] at hname
      rw [honce e (List.mem_of_find?_eq_some hfind) hname]
  rw [Lock.find?, List.find?_map, hfirst]
  rfl

/-- A dependency that a project declares with a path is found once. It lies at that path, seen
from the project, unless a name that the project declares and that stands before its own leads to
it; then it lies where the manifest of a dependency puts it that such a name leads to. The lock
file records where it lies, whichever it is, and the record is read back from it if those of all
dependencies are texts. -/
theorem resolveDependencies_own {m : Manifest} {files : Files} {deps : List ResolvedDep}
    (h : (m.resolveDependencies files).outcome = .ok deps) {name : Bytes} {d : Dependency}
    (hdecl : m.dependencies.get? name = some d) (hpath : d.path.isEmpty = false) :
    (deps.map ResolvedDep.name).count name = 1 ∧
    ∃ found ∈ deps, found.name = name ∧ (∀ e ∈ deps, e.name = name → e = found) ∧
      (¬LedTo m deps name name → found.dir = files.absolute (Path.resolve m.dir d.path) ∧
        (Path.isAbsolute m.dir = true → found.dir = Path.clean (Path.resolve m.dir d.path))) ∧
      (LedTo m deps name name → LiesInside m files deps found) ∧
      (m.resolveDependencies files).files.read m.lockPath =
        .ok (Lock.text (deps.map (lockedDep m))) ∧
      (d.git.isEmpty = true →
        Lock.find? (deps.map (lockedDep m)) name = some { name, path := found.dir } ∧
        ((∀ e ∈ deps, (lockedDep m e).IsText) → ∃ lock,
          Lock.load (m.resolveDependencies files).files m.lockPath = .ok (some lock) ∧
            lock.find? name = some { name, path := found.dir })) := by
  have hends := h ▸ ends_resolveDependencies m files
  obtain ⟨lock, t, hvisit⟩ := hends.visits
  have hgained := hvisit.gained deps rfl
  have hsize : m.dependencies.size ≠ 0 := by
    intro hzero
    rw [Table.get?, List.eq_nil_of_length_eq_zero hzero] at hdecl
    cases hdecl
  obtain ⟨found, hfound, rfl, hlies⟩ := own_of_visits hvisit hdecl
  have honce : ∀ e ∈ deps, e.name = found.name → e = found := fun e he hname =>
    List.inj_on_of_nodup_map hgained.once he hfound hname
  refine ⟨List.count_eq_one_of_mem hgained.once (List.mem_map_of_mem hfound),
    found, hfound, rfl, honce, fun hfree => ?_, fun hled => ?_, read_lock hsize h, fun hgit => ?_⟩
  · obtain ⟨-, hplace⟩ := hlies.resolve_right fun hled => hfree hled.1
    have hdir : found.dir = files.absolute (Path.resolve m.dir d.path) := by
      rw [hplace, lying, dirOf, hpath]
      rfl
    exact ⟨hdir, fun habsolute => hdir.trans (files.absolute_resolve habsolute d.path)⟩
  · exact (hlies.resolve_left fun hfree => hfree.1 hled).2
  · have hrecord : Lock.find? (deps.map (lockedDep m)) found.name =
        some { name := found.name, path := found.dir } := by
      rw [find?_lock honce hfound, lockedDep, hdecl]
      dsimp only
      rw [if_pos hgit]
    exact ⟨hrecord, fun htext => ⟨_, load_lock hsize h htext, hrecord⟩⟩

/-- A project with two dependencies, the first of which needs another `b`. -/
def overlaid : Manifest :=
  { dir := "/app", dependencies := ⟨[("a", { path := "../a" }), ("b", { path := "../b" })]⟩ }

/-- What the manifest of that first one says. -/
def overlay : Manifest :=
  Manifest.withDefaults { dir := "/a", dependencies := ⟨[("b", { path := "../x" })]⟩ }

def overlaidFiles : Files where
  root := .dir [("app", .dir []), ("b", .dir []), ("x", .dir []),
    ("a", .dir [(Manifest.fileName, .file "[dependencies.b]\npath = '../x'")])]
  workDir := []

theorem declared_overlaid : declared overlaid.dependencies =
    ([("a", { path := "../a" }), ("b", { path := "../b" })] : List (Bytes × Dependency)) := by
  unfold declared Table.names Bytes.sort
  rw [List.mergeSort_of_pairwise (by decide)]
  rfl

theorem outcome_overlaid : (overlaid.resolveDependencies overlaidFiles).outcome =
    .ok [⟨"b", "/x", none⟩, ⟨"a", "/a", some overlay⟩] := by
  unfold Manifest.resolveDependencies run
  rw [declared_overlaid]
  decide +kernel

theorem resolveDependencies_own_overlaid :
    ∃ deps, (overlaid.resolveDependencies overlaidFiles).outcome = .ok deps ∧
      (∃ found ∈ deps, found.name = "a" ∧ found.dir = "/a") ∧
      ∃ found ∈ deps, found.name = "b" ∧ LiesInside overlaid overlaidFiles deps found ∧
        ∃ lock, Lock.load (overlaid.resolveDependencies overlaidFiles).files overlaid.lockPath =
          .ok (some lock) ∧ lock.find? "b" = some { name := "b", path := found.dir } := by
  have ha : overlaid.dependencies.get? "a" = some { path := "../a" } := by decide +kernel
  have hb : overlaid.dependencies.get? "b" = some { path := "../b" } := by decide +kernel
  have hfree : ¬LedTo overlaid [⟨"b", "/x", none⟩, ⟨"a", "/a", some overlay⟩] "a" "a" := by
    rintro ⟨start, hcontains, ⟨hle, hne⟩, -⟩
    have hstart := mem_names_declared.2 hcontains
    rw [declared_overlaid] at hstart
    rcases List.mem_pair.1 hstart with rfl | rfl
    · exact hne rfl
    · exact absurd hle (by decide +kernel)
  have hled : LedTo overlaid [⟨"b", "/x", none⟩, ⟨"a", "/a", some overlay⟩] "b" "b" := by
    refine ⟨"a", by decide +kernel, ⟨by decide +kernel, by decide +kernel⟩, .single ?_⟩
    exact ⟨_, List.mem_cons_of_mem _ List.mem_cons_self, rfl, overlay, rfl, by decide +kernel⟩
  obtain ⟨-, found, hfound, hname, -, hown, -⟩ :=
    resolveDependencies_own outcome_overlaid ha (by decide +kernel)
  obtain ⟨-, inner, hinner, hname', -, -, hinside, -, hrecord⟩ :=
    resolveDependencies_own outcome_overlaid hb (by decide +kernel)
  obtain ⟨-, hlock⟩ := hrecord (by decide +kernel)
  exact ⟨_, outcome_overlaid,
    ⟨found, hfound, hname, ((hown hfree).2 (by decide +kernel)).trans (by decide +kernel)⟩,
    inner, hinner, hname', hinside hled, hlock (by decide +kernel)⟩

/-- The project puts `b` into one directory, but it lies in another, and so it is recorded. -/
theorem own_declaration_overlaid :
    overlaid.dependencies.get? "b" = some { path := "../b" } ∧
      Path.clean (Path.resolve overlaid.dir "../b") = "/b" ∧
      ∃ deps, (overlaid.resolveDependencies overlaidFiles).outcome = .ok deps ∧
        (∃ found ∈ deps, found.name = "b" ∧ found.dir = "/x") ∧
        (overlaid.resolveDependencies overlaidFiles).files.read overlaid.lockPath =
          .ok (Lock.text (deps.map (lockedDep overlaid))) ∧
        Lock.find? (deps.map (lockedDep overlaid)) "b" =
          some { name := "b", path := "/x" } := by
  refine ⟨by decide +kernel, by decide +kernel, _, outcome_overlaid,
    ⟨_, List.mem_cons_self, rfl, rfl⟩, read_lock (by decide +kernel) outcome_overlaid,
    by decide +kernel⟩

end MiniJvm.Resolve
