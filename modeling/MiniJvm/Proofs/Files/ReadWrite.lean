import Mathlib
import MiniJvm.Files.Tree
import MiniJvm.Proofs.Basic
import MiniJvm.Table

/-!
# Reading what was written

A file that was written holds what was written to it, under the same path (`Files.read_write`): the
directories on the way to it are still there, and they only have more entries.
-/

namespace MiniJvm

/-! ## Names of a path -/

theorem Bytes.splitOn_cons (sep b : UInt8) (s : Bytes) : ∃ head rest,
    splitOn sep s = head :: rest ∧
      splitOn sep (b :: s) = if b = sep then [] :: head :: rest else (b :: head) :: rest := by
  refine ⟨_, _, rfl, ?_⟩
  unfold splitOn
  dsimp only [List.foldr_cons]
  split <;> rfl

theorem Bytes.splitOn_append (sep : UInt8) (x y : Bytes) :
    splitOn sep (x ++ sep :: y) = splitOn sep x ++ splitOn sep y := by
  induction x with
  | nil =>
    obtain ⟨head, rest, hy, hcons⟩ := splitOn_cons sep sep y
    rw [List.nil_append, hcons, if_pos rfl, hy]
    rfl
  | cons b x ih =>
    obtain ⟨head, rest, hx, hcons⟩ := splitOn_cons sep b x
    obtain ⟨head', rest', hx', hcons'⟩ := splitOn_cons sep b (x ++ sep :: y)
    rw [ih, hx, List.cons_append] at hx'
    obtain ⟨rfl, rfl⟩ := List.cons.inj hx'
    rw [List.cons_append, hcons, hcons']
    split <;> rfl

theorem Bytes.splitOn_of_not_mem {sep : UInt8} {s : Bytes} (h : sep ∉ s) : splitOn sep s = [s] := by
  induction s with
  | nil => rfl
  | cons b s ih =>
    rw [List.mem_cons, not_or] at h
    obtain ⟨head, rest, hs, hcons⟩ := splitOn_cons sep b s
    rw [ih h.2] at hs
    cases hs
    rw [hcons, if_neg (Ne.symm h.1)]

/-! ## Trees -/

namespace Node

theorem child?_putEntry (entries : List (Bytes × Node)) (name key : Bytes) (n : Node) :
    child? (putEntry entries name n) key = if name = key then some n else child? entries key :=
  Table.get?_insert ⟨entries⟩ name key n

theorem at?_append (n : Node) (front behind : List Bytes) :
    n.at? (front ++ behind) = (n.at? front).bind (at? behind) := by
  induction front generalizing n with
  | nil => rfl
  | cons name front ih =>
    cases n with
    | file => rfl
    | dir entries =>
      rw [List.cons_append, at?, at?, Option.bind_assoc]
      exact congrArg _ (funext fun inner => ih inner)

theorem at?_concat {n : Node} {front : List Bytes} {entries : List (Bytes × Node)}
    (h : n.at? front = some (.dir entries)) (name : Bytes) :
    n.at? (front ++ [name]) = child? entries name := by
  rw [at?_append, h]
  exact Option.bind_fun_some _

/-- A node that was put into a directory is there. -/
theorem at?_put_self {n : Node} {front : List Bytes} {entries : List (Bytes × Node)}
    (h : n.at? front = some (.dir entries)) (name : Bytes) (new : Node) :
    (n.put (front ++ [name]) new).at? (front ++ [name]) = some new := by
  induction front generalizing n with
  | nil =>
    cases h
    have hput : (Node.dir entries).put [name] new = .dir (putEntry entries name new) := by
      rw [put]
      cases child? entries name <;> rfl
    rw [List.nil_append, hput, at?, child?_putEntry, if_pos rfl]
    rfl
  | cons c front ih =>
    cases n with
    | file => cases h
    | dir outer =>
      obtain ⟨inner, hchild, hinner⟩ := Option.bind_eq_some_iff.1 h
      rw [List.cons_append, put, hchild]
      dsimp only
      rw [at?, child?_putEntry, if_pos rfl]
      exact ih hinner

/-- The entries have at least the names of others. -/
def HasNames (entries more : List (Bytes × Node)) : Prop :=
  ∀ key, (child? entries key).isSome = true → (child? more key).isSome = true

theorem HasNames.refl (entries : List (Bytes × Node)) : HasNames entries entries := fun _ h => h

theorem hasNames_putEntry (entries : List (Bytes × Node)) (name : Bytes) (n : Node) :
    HasNames entries (putEntry entries name n) := by
  intro key hkey
  rw [child?_putEntry]
  split
  · rfl
  · exact hkey

/-- Directories stay directories, unless one is replaced itself. -/
theorem at?_put_dir {n : Node} {place : List Bytes} (hplace : ∀ e, n.at? place ≠ some (.dir e))
    {p : List Bytes} {entries : List (Bytes × Node)} (h : n.at? p = some (.dir entries))
    (new : Node) :
    ∃ more, (n.put place new).at? p = some (.dir more) ∧ HasNames entries more := by
  induction p generalizing n place with
  | nil =>
    cases h
    cases place with
    | nil => exact absurd rfl (hplace entries)
    | cons c rest =>
      rw [put]
      split
      · exact ⟨_, rfl, hasNames_putEntry _ _ _⟩
      · split
        · exact ⟨_, rfl, hasNames_putEntry _ _ _⟩
        · exact ⟨_, rfl, .refl _⟩
  | cons c p ih =>
    cases n with
    | file => cases h
    | dir outer =>
      obtain ⟨inner, hchild, hinner⟩ := Option.bind_eq_some_iff.1 h
      have hkept : (Node.dir outer).at? (c :: p) = some (.dir entries) := h
      cases place with
      | nil => exact absurd rfl (hplace outer)
      | cons c' rest =>
        by_cases hc : c' = c
        · subst hc
          have hrest : ∀ e, inner.at? rest ≠ some (.dir e) := fun e he =>
            hplace e (by rw [at?, hchild]; exact he)
          obtain ⟨more, hmore, hnames⟩ := ih hrest hinner
          rw [put, hchild]
          dsimp only
          rw [at?, child?_putEntry, if_pos rfl]
          exact ⟨more, hmore, hnames⟩
        · have haside (new : Node) :
              (Node.dir (putEntry outer c' new)).at? (c :: p) = some (.dir entries) := by
            rw [at?, child?_putEntry, if_neg hc]
            exact h
          rw [put]
          split
          · exact ⟨entries, haside _, .refl _⟩
          · split
            · exact ⟨entries, haside _, .refl _⟩
            · exact ⟨entries, h, .refl _⟩

end Node

namespace Files

/-! ## Following names -/

theorem follow_append (root : Node) (place xs ys : List Bytes) :
    follow root place (xs ++ ys) = (follow root place xs).bind fun mid => follow root mid ys := by
  induction xs generalizing place with
  | nil => rfl
  | cons name xs ih =>
    rw [List.cons_append, follow, follow]
    split
    · split
      · exact ih _
      · split
        · exact ih _
        · split
          · exact ih _
          · rfl
    · rfl
    · rfl

/-- A name for the directory itself leads nowhere else. -/
theorem follow_here {root : Node} {place there : List Bytes} {name : Bytes}
    (hname : Path.isHere name = true) (h : follow root place [name] = .ok there) :
    there = place := by
  rw [follow] at h
  split at h
  · rw [if_pos hname, follow] at h
    exact (Except.ok.inj h).symm
  · cases h
  · cases h

/-- Where the directories have kept their names, names lead where they led. -/
theorem follow_mono {root root' : Node}
    (hkept : ∀ {p entries}, root.at? p = some (.dir entries) →
      ∃ more, root'.at? p = some (.dir more) ∧ Node.HasNames entries more)
    {place names there : List Bytes} (h : follow root place names = .ok there) :
    follow root' place names = .ok there := by
  induction names generalizing place with
  | nil => exact h
  | cons name names ih =>
    rw [follow] at h ⊢
    split at h
    · rename_i entries hdir
      obtain ⟨more, hmore, hnames⟩ := hkept hdir
      rw [hmore]
      dsimp only
      split at h
      · rename_i hhere
        rw [if_pos hhere]
        exact ih h
      · rename_i hhere
        rw [if_neg hhere]
        split at h
        · rename_i hup
          rw [if_pos hup]
          exact ih h
        · rename_i hup
          rw [if_neg hup]
          split at h
          · rename_i hchild
            rw [if_pos (hnames name hchild)]
            exact ih h
          · cases h
    · cases h
    · cases h

/-! ## Places of new files -/

/-- Where a path starts. -/
def startOf (f : Files) (path : Bytes) : List Bytes :=
  if Path.isAbsolute path then [] else f.workDir.reverse

theorem startOf_congr (f : Files) {path path' : Bytes}
    (h : Path.isAbsolute path = Path.isAbsolute path') : f.startOf path = f.startOf path' := by
  rw [startOf, startOf, h]

theorem locate_ok {f : Files} {path : Bytes} {place : List Bytes}
    (h : f.locate path = .ok place) :
    follow f.root (f.startOf path) (Path.parts path) = .ok place.reverse := by
  unfold locate at h
  split at h
  · cases h
  · dsimp only at h
    rw [startOf]
    cases hfollow : follow f.root (if Path.isAbsolute path then [] else f.workDir.reverse)
        (Path.parts path) with
    | error t => rw [hfollow] at h; cases h
    | ok there =>
      rw [hfollow] at h
      cases h
      rw [List.reverse_reverse]

/-- The last name of a path stands behind its last slash. -/
theorem splitLast_spec (path : Bytes) : ∃ dir name, splitLast path = (dir, name) ∧ 47 ∉ name ∧
    (dir = [] ∧ path = name ∨ ∃ front, dir = front ++ [47] ∧ path = front ++ 47 :: name) := by
  obtain ⟨name, hname⟩ : ∃ name, name = (path.reverse.takeWhile (· != 47)).reverse := ⟨_, rfl⟩
  obtain ⟨dir, hdir⟩ : ∃ dir, dir = (path.reverse.dropWhile (· != 47)).reverse := ⟨_, rfl⟩
  have hpath : path = dir ++ name := by
    rw [hdir, hname, ← List.reverse_append, List.takeWhile_append_dropWhile, List.reverse_reverse]
  have hlength : path.length - name.length = dir.length := by
    rw [hpath, List.length_append, Nat.add_sub_cancel]
  have htake : path.take (path.length - name.length) = dir := by
    rw [hlength, hpath, List.take_left]
  refine ⟨dir, name, ?_, ?_, ?_⟩
  · rw [splitLast, ← hname, htake]
  · rw [hname, List.mem_reverse]
    intro hslash
    simpa using List.mem_takeWhile_imp hslash
  · cases hdrop : path.reverse.dropWhile (· != 47) with
    | nil =>
      rw [hdrop] at hdir
      exact .inl ⟨hdir, by rw [hpath, hdir]; rfl⟩
    | cons b before =>
      have hslash : b = 47 := by
        have hhead := List.head?_dropWhile_not (· != 47) path.reverse
        rw [hdrop] at hhead
        simpa using hhead
      rw [hdrop, hslash, List.reverse_cons] at hdir
      exact .inr ⟨before.reverse, hdir, by rw [hpath, hdir, List.append_assoc]; rfl⟩

/-- A path that is a single name is looked up in the working directory. -/
theorem parts_of_name {f : Files} {name : Bytes} {parent : List Bytes} (hname : 47 ∉ name)
    (h : follow f.root (f.startOf ".") (Path.parts ".") = .ok parent) :
    Path.parts name = [] ++ [name] ∧ follow f.root (f.startOf name) [] = .ok parent := by
  have habsolute : Path.isAbsolute name = false := by
    cases name with
    | nil => rfl
    | cons b name =>
      have hb : b ≠ 47 := fun hb => hname (hb ▸ List.mem_cons_self)
      simpa [Path.isAbsolute] using hb
  have hstart : f.startOf name = f.startOf "." := f.startOf_congr habsolute
  refine ⟨Bytes.splitOn_of_not_mem hname, ?_⟩
  rw [hstart, follow, follow_here rfl h]

/-- The directory of a path leads where the names before its last one lead. -/
theorem parts_of_dir {f : Files} {front name : Bytes} {parent : List Bytes} (hname : 47 ∉ name)
    (h : follow f.root (f.startOf (front ++ [47])) (Path.parts (front ++ [47])) = .ok parent) :
    Path.parts (front ++ 47 :: name) = Path.parts front ++ [name] ∧
      follow f.root (f.startOf (front ++ 47 :: name)) (Path.parts front) = .ok parent := by
  have hparts (behind : Bytes) : Path.parts (front ++ 47 :: behind) =
      Path.parts front ++ Path.parts behind := Bytes.splitOn_append 47 front behind
  have habsolute : Path.isAbsolute (front ++ 47 :: name) = Path.isAbsolute (front ++ [47]) := by
    cases front <;> rfl
  have hlast : Path.parts name = [name] := Bytes.splitOn_of_not_mem hname
  refine ⟨by rw [hparts, hlast], ?_⟩
  rw [f.startOf_congr habsolute]
  rw [hparts [], follow_append] at h
  obtain ⟨mid, hmid, h⟩ := bind_eq_ok.1 h
  rw [hmid, follow_here rfl h]

/-- All names of a path but its last one lead to the directory that is looked up for it. -/
theorem parts_of_split {f : Files} {path dir name looked : Bytes} {parent : List Bytes}
    (hpath : path ≠ []) (hname : 47 ∉ name)
    (hshape : dir = [] ∧ path = name ∨ ∃ front, dir = front ++ [47] ∧ path = front ++ 47 :: name)
    (hlooked : looked = if !dir.isEmpty then dir else if path.isEmpty then "/" else ".")
    (h : follow f.root (f.startOf looked) (Path.parts looked) = .ok parent) :
    ∃ names, Path.parts path = names ++ [name] ∧
      follow f.root (f.startOf path) names = .ok parent := by
  subst hlooked
  rcases hshape with ⟨rfl, rfl⟩ | ⟨front, rfl, rfl⟩
  · rw [List.isEmpty_eq_false_iff.2 hpath] at h
    exact ⟨_, parts_of_name hname h⟩
  · have hdir : (front ++ [47]).isEmpty = false := by simp
    rw [hdir] at h
    exact ⟨_, parts_of_dir hname h⟩

/-- A file can be made in a directory, to which all names of its path but the last one lead. Its
own name stands for itself, and it is not that of a directory. -/
structure NewPlace (f : Files) (path : Bytes) (names parent : List Bytes) (name : Bytes)
    (entries : List (Bytes × Node)) : Prop where
  trouble : pathTrouble? path = none
  parts : Path.parts path = names ++ [name]
  way : follow f.root (f.startOf path) names = .ok parent.reverse
  parent : f.root.at? parent = some (.dir entries)
  notHere : Path.isHere name = false
  notUp : Path.isUp name = false
  noDir : ∀ e, Node.child? entries name ≠ some (.dir e)

theorem placeFor_ok {f : Files} {path : Bytes} {place : List Bytes}
    (h : f.placeFor path = .ok place) :
    ∃ names parent name entries,
      NewPlace f path names parent name entries ∧ place = parent ++ [name] := by
  unfold placeFor at h
  cases htrouble : pathTrouble? path with
  | some t =>
    rw [htrouble] at h
    cases h
  | none =>
    rw [htrouble] at h
    obtain ⟨dir, name, hsplit, hname, hshape⟩ := splitLast_spec (Bytes.trimRight (· == 47) path)
    dsimp only at h
    rw [hsplit] at h
    dsimp only at h
    obtain ⟨parent, hlocate, h⟩ := bind_eq_ok.1 h
    split at h
    · rename_i entries hparent
      split at h
      · cases h
      · rename_i hplain
        rw [Bool.or_eq_true, Bool.or_eq_true, not_or, not_or, Bool.not_eq_true, Bool.not_eq_true,
          Bool.not_eq_true, bne_eq_false_iff_eq] at hplain
        obtain ⟨⟨hbare, hhere⟩, hup⟩ := hplain
        rw [hbare] at hlocate hshape
        have hnonempty : path ≠ [] := by
          rintro rfl
          cases htrouble
        obtain ⟨names, hparts, hway⟩ :=
          parts_of_split hnonempty hname hshape rfl (locate_ok hlocate)
        refine ⟨names, parent, name, entries,
          ⟨htrouble, hparts, hway, hparent, hhere, hup, fun e he => ?_⟩, ?_⟩
        · rw [he] at h
          cases h
        · split at h
          · cases h
          · cases h
          · cases h
            rfl
    · cases h

/-- After a file was made, its path leads to it. -/
theorem NewPlace.find {f : Files} {path name : Bytes} {names parent : List Bytes}
    {entries : List (Bytes × Node)} (h : NewPlace f path names parent name entries)
    (content : Bytes) :
    Files.find { f with root := f.root.put (parent ++ [name]) (.file content) } path =
      .ok (.file content) := by
  have hold : ∀ e, f.root.at? (parent ++ [name]) ≠ some (.dir e) := by
    rw [Node.at?_concat h.parent]
    exact h.noDir
  have hself := Node.at?_put_self h.parent name (.file content)
  have hway := follow_mono (fun hdir => Node.at?_put_dir hold hdir (.file content)) h.way
  obtain ⟨more, hmore, -⟩ := Node.at?_put_dir hold h.parent (.file content)
  have hchild := (Node.at?_concat hmore name).symm.trans hself
  have hstep : follow (f.root.put (parent ++ [name]) (.file content)) parent.reverse [name] =
      .ok (name :: parent.reverse) := by
    rw [follow, List.reverse_reverse, hmore]
    dsimp only
    rw [h.notHere, h.notUp, hchild]
    rfl
  have hlocate : locate { f with root := f.root.put (parent ++ [name]) (.file content) } path =
      .ok (parent ++ [name]) := by
    rw [startOf] at hway
    rw [locate, h.trouble]
    dsimp only
    rw [h.parts, follow_append, hway]
    change (follow _ parent.reverse [name]).map List.reverse = _
    rw [hstep, Except.map, List.reverse_cons, List.reverse_reverse]
  rw [Files.find, hlocate]
  dsimp only [bind, Except.bind]
  rw [hself]

/-- What was written to a file is read from it. -/
theorem read_write {f g : Files} {path content : Bytes} (h : f.write path content = .ok g) :
    g.read path = .ok content := by
  unfold write at h
  split at h
  · cases h
  · rename_i place hplace
    cases h
    obtain ⟨names, parent, name, entries, hnew, rfl⟩ := placeFor_ok hplace
    rw [read, hnew.find]

end Files

end MiniJvm
