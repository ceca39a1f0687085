import Mathlib
import MiniJvm.Project.Resolve
import MiniJvm.Proofs.Basic

/-!
# The traversal behind dependency resolution

Resolution follows declarations from manifest to manifest and passes over the names that it has
met before. Without a bound on the depth this is a relation between declarations and what comes of
them (`Visits`). Every manifest that is entered was reached by a name of its own that some file
declares, so the bound is never reached and the relation always holds (`visits_resolveAll`).
-/

namespace MiniJvm

theorem Path.isAbsolute_clean {p : Bytes} (h : isAbsolute p = true) :
    isAbsolute (clean p) = true := by
  rw [clean, if_pos h]
  rfl

theorem Path.isAbsolute_join {dir p : Bytes} (h : isAbsolute dir = true) :
    isAbsolute (join dir p) = true := by
  obtain ⟨b, rest, rfl⟩ : ∃ b rest, dir = b :: rest := by
    cases dir with
    | nil => cases h
    | cons b rest => exact ⟨b, rest, rfl⟩
  unfold join
  split
  · contradiction
  split
  · contradiction
  split
  · exact isAbsolute_clean h
  · exact isAbsolute_clean h

/-- What is seen from an absolute directory does not depend on the working directory. -/
theorem Files.absolute_resolve (f : Files) {dir : Bytes} (h : Path.isAbsolute dir = true)
    (p : Bytes) : f.absolute (Path.resolve dir p) = Path.clean (Path.resolve dir p) := by
  have habsolute : Path.isAbsolute (Path.resolve dir p) = true := by
    unfold Path.resolve
    split
    · assumption
    · exact Path.isAbsolute_join h
  rw [Files.absolute, Path.resolve, if_pos habsolute]

def ResolvedDep.declarations (d : ResolvedDep) : List (Bytes × Dependency) :=
  (d.manifest.map fun m => Resolve.declared m.dependencies).getD []

/-- A name has its directory. -/
def Resolving.mark (s : Resolving) (name : Bytes) : Resolving :=
  { s with resolved := name :: s.resolved }

theorem Resolving.mark_files (s : Resolving) (name : Bytes) : (s.mark name).files = s.files := rfl

namespace Resolve

variable {root : Manifest} {lock : Option Lock}

theorem get_apply (s : Resolving) : (get : ResolveM Resolving) s = (.ok s, s) := rfl

theorem modify_apply (f : Resolving → Resolving) (s : Resolving) :
    (modify f : ResolveM Unit) s = (.ok (), f s) := rfl

/-! ## One dependency -/

/-- The directory of a declared dependency. -/
def dirOf (files : Files) (root : Manifest) (base name : Bytes) (d : Dependency) : Bytes :=
  if d.path.isEmpty then Path.join root.depsDir name
  else files.absolute (Path.resolve base d.path)

/-- A declared dependency as it lies in the files. -/
def lying (files : Files) (root : Manifest) (base name : Bytes) (d : Dependency) : ResolvedDep :=
  ⟨name, dirOf files root base name d,
    (Manifest.load files (dirOf files root base name d)).toOption⟩

theorem settle_ok {name dir : Bytes} {s t : Resolving} {found : ResolvedDep}
    (h : settle name dir s = (.ok found, t)) :
    found = ⟨name, dir, (Manifest.load s.files dir).toOption⟩ ∧ t.files = s.files ∧
      t.resolved = s.resolved := by
  rw [settle, bind_apply, get_apply] at h
  dsimp only at h
  cases hload : Manifest.load s.files dir with
  | error e =>
    rw [hload] at h
    cases h
    exact ⟨rfl, rfl, rfl⟩
  | ok m =>
    rw [hload] at h
    cases h
    exact ⟨rfl, rfl, rfl⟩

theorem resolvePath_ok {base name path : Bytes} {s t : Resolving} {found : ResolvedDep}
    (h : resolvePath base name path s = (.ok found, t)) :
    settle name (s.files.absolute (Path.resolve base path)) s = (.ok found, t) := by
  rw [resolvePath, bind_apply, get_apply] at h
  dsimp only at h
  cases hstat : s.files.stat (s.files.absolute (Path.resolve base path)) with
  | error e =>
    rw [hstat] at h
    cases h
  | ok n =>
    rw [hstat] at h
    exact h

theorem resolveGit_ok {name : Bytes} {d : Dependency} {s t : Resolving} {found : ResolvedDep}
    (h : resolveGit root lock name d s = (.ok found, t)) :
    settle name (Path.join root.depsDir name) s = (.ok found, t) := by
  unfold resolveGit at h
  rw [bind_apply, get_apply] at h
  dsimp only at h
  by_cases hmissing : ∃ action path, s.files.stat (Path.join root.depsDir name) =
      .error ⟨action, path, .missing⟩
  · obtain ⟨action, path, hmissing⟩ := hmissing
    rw [hmissing] at h
    dsimp only at h
    rw [bind_apply] at h
    cases hmade : (s.files.makeDirs root.depsDir).1 <;> rw [hmade] at h <;> cases h
  · have hcheck : (if ((lock.bind fun l => l.find? name).map LockedDep.tag) != some d.tag then do
          note ⟨.info, "ristretto.manifest", "fetching " ++ name⟩
          refuse name (.git .fetch)
        else if !d.tag.isEmpty then refuse name (.git .checkout)
        else settle name (Path.join root.depsDir name)) s = (.ok found, t) := by
      rcases hstat : s.files.stat (Path.join root.depsDir name) with ⟨action, path, trouble⟩ | node
      · cases trouble with
        | missing => exact absurd ⟨_, _, hstat⟩ hmissing
        | notDirectory | isDirectory | tooLong | invalid =>
          rw [hstat] at h
          exact h
      · rw [hstat] at h
        exact h
    split at hcheck
    · cases hcheck
    · split at hcheck
      · cases hcheck
      · exact hcheck

theorem resolveOne_ok {base name : Bytes} {d : Dependency} {s t : Resolving} {found : ResolvedDep}
    (h : resolveOne root lock base name d s = (.ok found, t)) :
    found = lying s.files root base name d ∧ t.files = s.files ∧ t.resolved = s.resolved := by
  unfold resolveOne at h
  unfold lying dirOf
  cases hpath : d.path.isEmpty with
  | false =>
    rw [hpath] at h
    exact settle_ok (resolvePath_ok h)
  | true =>
    rw [hpath] at h
    cases hgit : d.git.isEmpty with
    | false =>
      rw [hgit] at h
      exact settle_ok (resolveGit_ok h)
    | true =>
      rw [hgit] at h
      cases h

theorem resolveList_cons
    {inner : Bytes → List (Bytes × Dependency) → ResolveM (List ResolvedDep)} {base name : Bytes}
    {d : Dependency} {rest : List (Bytes × Dependency)} {s : Resolving} :
    resolveList root lock inner base ((name, d) :: rest) s =
      if s.resolved.contains name then resolveList root lock inner base rest s
      else match resolveOne root lock base name d s with
        | (.error e, t) => (.error e, t)
        | (.ok found, t) =>
          match inner found.dir found.declarations (t.mark name) with
          | (.error e, u) => (.error e, u)
          | (.ok before, u) =>
            match resolveList root lock inner base rest u with
            | (.error e, v) => (.error e, v)
            | (.ok after, v) => (.ok (before ++ [found] ++ after), v) := by
  unfold ResolvedDep.declarations Resolving.mark
  rw [resolveList, bind_apply, get_apply]
  dsimp only
  split
  · rfl
  · rw [bind_apply]
    rcases resolveOne root lock base name d s with ⟨_ | found, t⟩
    · rfl
    · dsimp only
      rw [bind_apply, modify_apply]
      dsimp only
      rw [bind_apply]
      rcases inner found.dir _ _ with ⟨_ | before, u⟩
      · rfl
      · dsimp only
        rw [bind_apply]
        rcases resolveList root lock inner base rest u with ⟨_ | after, v⟩ <;> rfl

/-! ## Without a bound -/

/-- What the declarations of a directory lead to, however deep: the dependencies in load order, or
the first refusal. -/
inductive Visits (root : Manifest) (lock : Option Lock) : Bytes → List (Bytes × Dependency) →
    Resolving → Except ResolveError (List ResolvedDep) → Resolving → Prop where
  | done {base : Bytes} {s : Resolving} : Visits root lock base [] s (.ok []) s
  /-- A name that was met before is passed over. -/
  | again {base name : Bytes} {d : Dependency} {rest : List (Bytes × Dependency)}
      {s t : Resolving} {outcome : Except ResolveError (List ResolvedDep)} :
      name ∈ s.resolved → Visits root lock base rest s outcome t →
      Visits root lock base ((name, d) :: rest) s outcome t
  | refused {base name : Bytes} {d : Dependency} {rest : List (Bytes × Dependency)}
      {s t : Resolving} {e : ResolveError} :
      name ∉ s.resolved → resolveOne root lock base name d s = (.error e, t) →
      Visits root lock base ((name, d) :: rest) s (.error e) t
  | refusedInside {base name : Bytes} {d : Dependency} {rest : List (Bytes × Dependency)}
      {s t u : Resolving} {found : ResolvedDep} {e : ResolveError} :
      name ∉ s.resolved → resolveOne root lock base name d s = (.ok found, t) →
      Visits root lock found.dir found.declarations (t.mark name) (.error e) u →
      Visits root lock base ((name, d) :: rest) s (.error e) u
  | refusedLater {base name : Bytes} {d : Dependency} {rest : List (Bytes × Dependency)}
      {s t u v : Resolving} {found : ResolvedDep} {before : List ResolvedDep}
      {e : ResolveError} :
      name ∉ s.resolved → resolveOne root lock base name d s = (.ok found, t) →
      Visits root lock found.dir found.declarations (t.mark name) (.ok before) u →
      Visits root lock base rest u (.error e) v →
      Visits root lock base ((name, d) :: rest) s (.error e) v
  /-- What a dependency needs itself comes before it. -/
  | found {base name : Bytes} {d : Dependency} {rest : List (Bytes × Dependency)}
      {s t u v : Resolving} {found : ResolvedDep} {before after : List ResolvedDep} :
      name ∉ s.resolved → resolveOne root lock base name d s = (.ok found, t) →
      Visits root lock found.dir found.declarations (t.mark name) (.ok before) u →
      Visits root lock base rest u (.ok after) v →
      Visits root lock base ((name, d) :: rest) s (.ok (before ++ [found] ++ after)) v

/-- What a traversal that is not refused adds to the names that were met before. -/
structure Gained (deps : List (Bytes × Dependency)) (s : Resolving) (out : List ResolvedDep)
    (t : Resolving) : Prop where
  files : t.files = s.files
  resolved : ∀ name, name ∈ t.resolved ↔ name ∈ s.resolved ∨ name ∈ out.map ResolvedDep.name
  new : ∀ name ∈ out.map ResolvedDep.name, name ∉ s.resolved
  once : (out.map ResolvedDep.name).Nodup
  covered : ∀ name ∈ deps.map Prod.fst, name ∈ t.resolved

theorem Gained.subset {deps : List (Bytes × Dependency)} {s t : Resolving}
    {out : List ResolvedDep} (h : Gained deps s out t) : s.resolved ⊆ t.resolved :=
  fun name hname => (h.resolved name).2 (.inl hname)

theorem mem_names_found {found : ResolvedDep} {before after : List ResolvedDep} {n : Bytes} :
    n ∈ (before ++ [found] ++ after).map ResolvedDep.name ↔
      n ∈ before.map ResolvedDep.name ∨ n = found.name ∨ n ∈ after.map ResolvedDep.name := by
  simp

theorem Gained.cons {name : Bytes} {d : Dependency} {own rest : List (Bytes × Dependency)}
    {s t u v : Resolving} {found : ResolvedDep} {before after : List ResolvedDep}
    (hnew : name ∉ s.resolved) (hname : found.name = name) (hfiles : t.files = s.files)
    (hresolved : t.resolved = s.resolved) (hinner : Gained own (t.mark name) before u)
    (hrest : Gained rest u after v) :
    Gained ((name, d) :: rest) s (before ++ [found] ++ after) v := by
  have hmark : ∀ n, n ∈ (t.mark name).resolved ↔ n = name ∨ n ∈ s.resolved := by
    intro n
    rw [← hresolved]
    exact List.mem_cons
  have hu : ∀ n, n ∈ u.resolved ↔
      (n = name ∨ n ∈ s.resolved) ∨ n ∈ before.map ResolvedDep.name := by
    intro n
    rw [hinner.resolved, hmark]
  have hbefore : ∀ n ∈ before.map ResolvedDep.name, n ≠ name ∧ n ∉ s.resolved := by
    intro n hn
    have hn := hinner.new n hn
    rw [hmark] at hn
    exact not_or.1 hn
  have hafter : ∀ n ∈ after.map ResolvedDep.name,
      n ≠ name ∧ n ∉ s.resolved ∧ n ∉ before.map ResolvedDep.name := by
    intro n hn
    have hn := hrest.new n hn
    rw [hu] at hn
    tauto
  refine ⟨hrest.files.trans (hinner.files.trans hfiles), fun n => ?_, fun n hn => ?_, ?_, ?_⟩
  · rw [hrest.resolved, hu, mem_names_found, hname]
    tauto
  · rcases mem_names_found.1 hn with hn | rfl | hn
    · exact (hbefore n hn).2
    · exact hname ▸ hnew
    · exact (hafter n hn).2.1
  · rw [List.map_append, List.map_append, List.nodup_append, List.nodup_append]
    refine ⟨⟨hinner.once, List.nodup_singleton _, fun a ha b hb => ?_⟩, hrest.once,
      fun a ha b hb => ?_⟩
    · rw [List.map_singleton, List.mem_singleton, hname] at hb
      rw [hb]
      exact (hbefore a ha).1
    · rintro rfl
      rw [List.map_singleton, hname, List.mem_append, List.mem_singleton] at ha
      rcases ha with ha | ha
      · exact (hafter a hb).2.2 ha
      · exact (hafter a hb).1 ha
  · intro n hn
    rcases List.mem_cons.1 hn with rfl | hn
    · exact hrest.subset ((hu _).2 (.inl (.inl rfl)))
    · exact hrest.covered n hn

theorem Visits.gained {base : Bytes} {deps : List (Bytes × Dependency)} {s t : Resolving}
    {outcome : Except ResolveError (List ResolvedDep)}
    (h : Visits root lock base deps s outcome t) :
    ∀ out, outcome = .ok out → Gained deps s out t := by
  induction h with
  | done =>
    rintro _ ⟨⟩
    exact ⟨rfl, by simp, nofun, List.nodup_nil, nofun⟩
  | again hseen _ ih =>
    intro out hout
    have h := ih out hout
    refine ⟨h.files, h.resolved, h.new, h.once, fun n hn => ?_⟩
    rcases List.mem_cons.1 hn with rfl | hn
    · exact h.subset hseen
    · exact h.covered n hn
  | refused => nofun
  | refusedInside => nofun
  | refusedLater => nofun
  | found hnew hone _ _ ihinner ihrest =>
    rintro _ ⟨⟩
    obtain ⟨rfl, hfiles, hresolved⟩ := resolveOne_ok hone
    exact .cons hnew rfl hfiles hresolved (ihinner _ rfl) (ihrest _ rfl)

/-! ## The names that can be met -/

theorem mem_declared {deps : Table Dependency} {name : Bytes} {d : Dependency} :
    (name, d) ∈ declared deps ↔ deps.get? name = some d := by
  unfold declared
  rw [List.mem_filterMap]
  constructor
  · rintro ⟨n, -, hn⟩
    obtain ⟨d', hd', heq⟩ := Option.map_eq_some_iff.1 hn
    cases heq
    exact hd'
  · intro hget
    obtain ⟨item, hitem, -⟩ := Option.map_eq_some_iff.1 hget
    have hname : item.1 = name := by simpa using List.find?_some hitem
    refine ⟨name, ?_, Option.map_eq_some_iff.2 ⟨d, hget, rfl⟩⟩
    rw [Table.names, Bytes.mem_sort, ← hname]
    exact List.mem_map_of_mem (List.mem_of_find?_eq_some hitem)

theorem mem_names_declared {deps : Table Dependency} {name : Bytes} :
    name ∈ (declared deps).map Prod.fst ↔ deps.contains name = true := by
  rw [Table.contains, Option.isSome_iff_exists, List.mem_map]
  constructor
  · rintro ⟨⟨n, d⟩, hn, rfl⟩
    exact ⟨d, mem_declared.1 hn⟩
  · rintro ⟨d, hd⟩
    exact ⟨(name, d), mem_declared.2 hd, rfl⟩

theorem names_declared_subset (deps : Table Dependency) :
    (declared deps).map Prod.fst ⊆ deps.names := by
  intro name hname
  obtain ⟨⟨n, d⟩, hn, rfl⟩ := List.mem_map.1 hname
  obtain ⟨n', hn', hd⟩ := List.mem_filterMap.1 hn
  obtain ⟨d', -, heq⟩ := Option.map_eq_some_iff.1 hd
  cases heq
  exact hn'

theorem mem_filesOf {before : List Bytes} {entries : List (Bytes × Node)} {name : Bytes}
    {n : Node} (h : (name, n) ∈ entries) :
    n.files (before ++ [name]) ⊆ Node.filesOf before entries := by
  induction entries with
  | nil => cases h
  | cons e rest ih =>
    rw [Node.filesOf]
    rcases List.mem_cons.1 h with rfl | h
    · exact List.subset_append_left _ _
    · exact List.subset_append_of_subset_right _ (ih h)

theorem mem_files_of_at? {place : List Bytes} {n : Node} {content : Bytes}
    (h : n.at? place = some (.file content)) (before : List Bytes) :
    content ∈ (n.files before).map Prod.snd := by
  induction place generalizing n before with
  | nil =>
    cases h
    simp [Node.files]
  | cons name rest ih =>
    cases n with
    | file => cases h
    | dir entries =>
      obtain ⟨inner, hchild, hinner⟩ := Option.bind_eq_some_iff.1 h
      obtain ⟨e, he, rfl⟩ := Option.map_eq_some_iff.1 hchild
      obtain ⟨file, hfile, rfl⟩ := List.mem_map.1 (ih hinner (before ++ [e.1]))
      rw [Node.files]
      exact List.mem_map_of_mem (mem_filesOf (List.mem_of_find?_eq_some he) hfile)

theorem mem_contents_of_read {files : Files} {path text : Bytes}
    (h : files.read path = .ok text) : text ∈ files.contents := by
  unfold Files.read at h
  split at h
  · cases h
  · cases h
  · rename_i content hfind
    cases h
    obtain ⟨place, -, hnode⟩ := bind_eq_ok.1 hfind
    split at hnode
    · rename_i hat
      cases hnode
      exact mem_files_of_at? hat []
    · cases hnode

/-- What a manifest declares is declared by a file. -/
theorem names_subset_declaredNames {files : Files} {dir : Bytes} {m : Manifest}
    (h : Manifest.load files dir = .ok m) : m.dependencies.names ⊆ declaredNames files := by
  unfold Manifest.load at h
  split at h
  · cases h
  · rename_i text hread
    split at h
    · cases h
    · rename_i m' hparse
      cases h
      intro name hname
      exact List.mem_flatMap.2
        ⟨m', List.mem_filterMap.2 ⟨text, mem_contents_of_read hread, hparse⟩, hname⟩

theorem declarations_lying_subset {files : Files} {base name : Bytes} {d : Dependency} :
    (lying files root base name d).declarations.map Prod.fst ⊆ declaredNames files := by
  unfold lying ResolvedDep.declarations
  cases hload : Manifest.load files (dirOf files root base name d) with
  | error e => exact List.nil_subset _
  | ok m => exact List.Subset.trans (names_declared_subset _) (names_subset_declaredNames hload)

/-! ## The bound -/

/-- How many of the names were not met yet. -/
def left (names : List Bytes) (s : Resolving) : Nat :=
  (names.toFinset \ s.resolved.toFinset).card

theorem left_le {names : List Bytes} {s t : Resolving} (h : s.resolved ⊆ t.resolved) :
    left names t ≤ left names s :=
  Finset.card_le_card (Finset.sdiff_subset_sdiff (Finset.Subset.refl _)
    fun _ hname => List.mem_toFinset.2 (h (List.mem_toFinset.1 hname)))

theorem left_le_length (names : List Bytes) (s : Resolving) : left names s ≤ names.length :=
  (Finset.card_le_card Finset.sdiff_subset).trans (List.toFinset_card_le names)

theorem left_mark_lt {names : List Bytes} {s : Resolving} {name : Bytes} (hname : name ∈ names)
    (hnew : name ∉ s.resolved) : left names (s.mark name) < left names s := by
  refine Finset.card_lt_card (Finset.ssubset_iff_of_subset ?_ |>.2 ⟨name, ?_, ?_⟩)
  · intro n hn
    simp only [Resolving.mark, Finset.mem_sdiff, List.mem_toFinset, List.mem_cons, not_or] at hn ⊢
    exact ⟨hn.1, hn.2.2⟩
  · simp [hname, hnew]
  · simp [Resolving.mark]

variable {files : Files} {names : List Bytes}

/-- A traversal that is bounded inside goes on as if it were not. -/
theorem visits_resolveList {depth : Nat}
    {inner : Bytes → List (Bytes × Dependency) → ResolveM (List ResolvedDep)}
    (hall : declaredNames files ⊆ names)
    (hinner : ∀ {base deps s outcome t}, inner base deps s = (outcome, t) → s.files = files →
      deps.map Prod.fst ⊆ names → left names s < depth → Visits root lock base deps s outcome t)
    {base : Bytes} {deps : List (Bytes × Dependency)} {s t : Resolving}
    {outcome : Except ResolveError (List ResolvedDep)}
    (h : resolveList root lock inner base deps s = (outcome, t)) (hfiles : s.files = files)
    (hdeps : deps.map Prod.fst ⊆ names) (hleft : left names s ≤ depth) :
    Visits root lock base deps s outcome t := by
  induction deps generalizing s t outcome with
  | nil =>
    cases h
    exact .done
  | cons first rest ih =>
    obtain ⟨name, d⟩ := first
    have hname : name ∈ names := hdeps List.mem_cons_self
    have hrest : rest.map Prod.fst ⊆ names := fun n hn => hdeps (List.mem_cons_of_mem _ hn)
    rw [resolveList_cons] at h
    split at h
    · rename_i hseen
      exact .again (List.contains_iff_mem.1 hseen) (ih h hfiles hrest hleft)
    rename_i hnew
    rw [List.contains_iff_mem] at hnew
    rcases hone : resolveOne root lock base name d s with ⟨e | found, u⟩ <;> rw [hone] at h
    · cases h
      exact .refused hnew hone
    obtain ⟨hfound, hufiles, hresolved⟩ := resolveOne_ok hone
    have hown : found.declarations.map Prod.fst ⊆ names := by
      rw [hfound, hfiles]
      exact List.Subset.trans declarations_lying_subset hall
    -- the name itself is no longer left, which pays for the depth of what is inside
    have hmark : left names (u.mark name) < left names s := by
      have hlt := left_mark_lt (s := u) hname (hresolved ▸ hnew)
      have hle : left names u ≤ left names s := left_le (hresolved ▸ List.Subset.refl _)
      omega
    replace hufiles := hufiles.trans hfiles
    dsimp only at h
    rcases hin : inner found.dir found.declarations (u.mark name) with ⟨e | before, v⟩ <;>
      rw [hin] at h
    · cases h
      exact .refusedInside hnew hone (hinner hin hufiles hown (by omega))
    have hvisit := hinner hin hufiles hown (by omega)
    have hgained := hvisit.gained before rfl
    have hvleft : left names v ≤ left names (u.mark name) := left_le hgained.subset
    dsimp only at h
    rcases hlist : resolveList root lock inner base rest v with ⟨e | after, w⟩ <;>
      rw [hlist] at h <;> cases h
    · exact .refusedLater hnew hone hvisit
        (ih hlist (hgained.files.trans hufiles) hrest (by omega))
    · exact .found hnew hone hvisit (ih hlist (hgained.files.trans hufiles) hrest (by omega))

/-- With a depth for every name that is left, the bound is never reached. -/
theorem visits_resolveAll {depth : Nat} (hall : declaredNames files ⊆ names) {base : Bytes}
    {deps : List (Bytes × Dependency)} {s t : Resolving}
    {outcome : Except ResolveError (List ResolvedDep)}
    (h : resolveAll root lock depth base deps s = (outcome, t)) (hfiles : s.files = files)
    (hdeps : deps.map Prod.fst ⊆ names) (hleft : left names s < depth) :
    Visits root lock base deps s outcome t := by
  induction depth generalizing base deps s t outcome with
  | zero => omega
  | succ depth ih => exact visits_resolveList hall ih h hfiles hdeps (by omega)

/-! ## Whole resolutions -/

/-- How the resolution of a project ends when nothing bounds its depth. -/
inductive Ends (m : Manifest) (files : Files) : Except ResolveError (List ResolvedDep) → Prop where
  | nothing : m.dependencies.size = 0 → Ends m files (.ok [])
  | unreadable {e : Lock.Error} : m.dependencies.size ≠ 0 →
      Lock.load files m.lockPath = .error e → Ends m files (.error (.lockUnreadable e))
  | refused {lock : Option Lock} {e : ResolveError} {t : Resolving} :
      m.dependencies.size ≠ 0 → Lock.load files m.lockPath = .ok lock →
      Visits m lock m.dir (declared m.dependencies) ⟨files, [], []⟩ (.error e) t →
      Ends m files (.error e)
  | unwritable {lock : Option Lock} {deps : List ResolvedDep} {e : ResolveError}
      {t u : Resolving} :
      m.dependencies.size ≠ 0 → Lock.load files m.lockPath = .ok lock →
      Visits m lock m.dir (declared m.dependencies) ⟨files, [], []⟩ (.ok deps) t →
      writeLock m deps t = (.error e, u) → Ends m files (.error e)
  | resolved {lock : Option Lock} {deps : List ResolvedDep} {t u : Resolving} :
      m.dependencies.size ≠ 0 → Lock.load files m.lockPath = .ok lock →
      Visits m lock m.dir (declared m.dependencies) ⟨files, [], []⟩ (.ok deps) t →
      writeLock m deps t = (.ok (), u) → Ends m files (.ok deps)

theorem resolveDependencies_outcome {m : Manifest} {files : Files}
    (h : m.dependencies.size ≠ 0) :
    (m.resolveDependencies files).outcome = (Resolve.run m ⟨files, [], []⟩).1 := by
  rw [Manifest.resolveDependencies, if_neg h]
  rfl

theorem visits_run {m : Manifest} {files : Files} {lock : Option Lock} {t : Resolving}
    {outcome : Except ResolveError (List ResolvedDep)}
    (h : resolveAll m lock ((declaredNames files).length + m.dependencies.size + 1) m.dir
      (declared m.dependencies) ⟨files, [], []⟩ = (outcome, t)) :
    Visits m lock m.dir (declared m.dependencies) ⟨files, [], []⟩ outcome t := by
  have hall : declaredNames files ⊆ declaredNames files ++ m.dependencies.names :=
    List.subset_append_left _ _
  have hdeps : (declared m.dependencies).map Prod.fst ⊆
      declaredNames files ++ m.dependencies.names :=
    List.subset_append_of_subset_right _ (names_declared_subset _)
  have hsize : m.dependencies.names.length = m.dependencies.size := by
    rw [Table.names, Bytes.sort, List.length_mergeSort, List.length_map, Table.size]
  have hleft := left_le_length (declaredNames files ++ m.dependencies.names) ⟨files, [], []⟩
  rw [List.length_append, hsize] at hleft
  exact visits_resolveAll hall h rfl hdeps (Nat.lt_succ_of_le hleft)

/-- Every resolution ends as it would without a bound. -/
theorem ends_resolveDependencies (m : Manifest) (files : Files) :
    Ends m files (m.resolveDependencies files).outcome := by
  by_cases hsize : m.dependencies.size = 0
  · rw [Manifest.resolveDependencies, if_pos hsize]
    exact .nothing hsize
  rw [resolveDependencies_outcome hsize, run, bind_apply, get_apply]
  dsimp only
  cases hlock : Lock.load files m.lockPath with
  | error e => exact .unreadable hsize hlock
  | ok lock =>
    dsimp only
    rw [bind_apply]
    rcases hrun : resolveAll m lock _ m.dir (declared m.dependencies) ⟨files, [], []⟩ with
      ⟨e | deps, t⟩
    · exact .refused hsize hlock (visits_run hrun)
    · dsimp only
      rw [bind_apply]
      rcases hwrite : writeLock m deps t with ⟨e | _, u⟩
      · exact .unwritable hsize hlock (visits_run hrun) hwrite
      · exact .resolved hsize hlock (visits_run hrun) hwrite

end Resolve

end MiniJvm
