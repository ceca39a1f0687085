import Mathlib
import MiniJvm.Proofs.Project.LockText

/-!
# Lock files

The statements of a lock build one array of tables, a table for each record with the fields that
are not empty. A field that is left out is empty when it is read, so a lock is read back as it was
written (`parse_text`).
-/

namespace MiniJvm.Lock

open Toml

/-! ## The document -/

def tableOf (d : LockedDep) : Entries := (fields d).map fun f => (f.1, .text f.2)

/-- A document with nothing but an array of tables under a key. -/
def rootOf (key : Bytes) (items : List Entries) : Entries :=
  if items.isEmpty then [] else [(key, .tables items)]

theorem rootOf_concat (key : Bytes) (items : List Entries) (last : Entries) :
    rootOf key (items ++ [last]) = [(key, .tables (items ++ [last]))] :=
  if_neg (by simp)

theorem get?_rootOf (key : Bytes) (items : List Entries) (last : Entries) :
    (rootOf key (items ++ [last])).get? key = some (.tables (items ++ [last])) := by
  simp [rootOf_concat, Entries.get?]

theorem put_rootOf (key : Bytes) (items more : List Entries) (last : Entries) :
    (rootOf key items).put key (.tables (more ++ [last])) = rootOf key (more ++ [last]) := by
  rw [rootOf_concat]
  unfold rootOf
  split <;> simp [Entries.put, Entries.get?]

/-- A heading opens a table behind the others. -/
theorem add_itemHeading {draft : Draft} {key : Bytes} {items : List Entries}
    (hroot : draft.root = rootOf key items) (context : List Bytes) :
    ∃ next, draft.add context (.itemHeading [key]) = some (next, [key]) ∧
      next.root = rootOf key (items ++ [[]]) := by
  refine ⟨{ draft with
    root := rootOf key (items ++ [[]])
    implied := draft.implied.insertMany ([] : List (List Bytes))
    arrays := draft.arrays.erase [key] }, ?_, rfl⟩
  simp only [Draft.add, Draft.addItem, Draft.reach, makeWay, updateAt, hroot,
    List.getLast?_singleton, List.dropLast_singleton, Option.bind_eq_bind, Option.bind_some]
  rcases List.eq_nil_or_concat items with rfl | ⟨front, last, rfl⟩
  · rfl
  · rw [List.concat_eq_append]
    simp only [Option.pure_def, Option.bind_some, get?_rootOf, put_rootOf]

/-- A field is put into the last table. -/
theorem add_assigned {draft : Draft} {key : Bytes} {items : List Entries} {last : Entries}
    {f : Bytes × Bytes} (hroot : draft.root = rootOf key (items ++ [last]))
    (hnew : last.get? f.1 = none) :
    ∃ next, draft.add [key] (assigned f) = some (next, [key]) ∧
      next.root = rootOf key (items ++ [last ++ [(f.1, .text f.2)]]) := by
  have hat : tableAt? [key] draft.root = some last := by
    rw [hroot, tableAt?, get?_rootOf]
    simp [tableAt?]
  have hput : updateAt (fun entries => some (entries.put f.1 (.text f.2))) [key] draft.root =
      some (rootOf key (items ++ [last ++ [(f.1, .text f.2)]])) := by
    have hlast : last.put f.1 (.text f.2) = last ++ [(f.1, .text f.2)] := by
      simp [Entries.put, hnew]
    rw [hroot, updateAt, get?_rootOf]
    simp [updateAt, hlast, put_rootOf]
  have hdefine : draft.define [key] f.1 (.text f.2) =
      some { draft with root := rootOf key (items ++ [last ++ [(f.1, .text f.2)]]) } := by
    simp only [Draft.define, hat, Draft.put, hput, Option.bind_eq_bind, Option.bind_some, hnew]
    rfl
  refine ⟨Draft.mark { draft with
    root := rootOf key (items ++ [last ++ [(f.1, .text f.2)]]) } [key] f.1 false, ?_, rfl⟩
  simp only [Draft.add, assigned, Draft.assign, List.getLast?_singleton, List.dropLast_singleton,
    Draft.openTables, Option.bind_eq_bind, Option.bind_some, Draft.evaluate, List.append_nil,
    hdefine]
  rfl

theorem addAll_fields {fs : List (Bytes × Bytes)} {draft : Draft} {key : Bytes}
    {items : List Entries} {last : Entries} (hroot : draft.root = rootOf key (items ++ [last]))
    (hnew : ∀ f ∈ fs, last.get? f.1 = none) (honce : (fs.map Prod.fst).Nodup)
    (rest : List Statement) :
    ∃ next : Draft, draft.addAll [key] (fs.map assigned ++ rest) = next.addAll [key] rest ∧
      next.root = rootOf key (items ++ [last ++ fs.map fun f => (f.1, .text f.2)]) := by
  induction fs generalizing draft last with
  | nil => exact ⟨draft, rfl, by simpa using hroot⟩
  | cons f fs ih =>
    obtain ⟨hf, hfs⟩ := List.forall_mem_cons.1 hnew
    obtain ⟨hfresh, honce⟩ := List.nodup_cons.1 honce
    obtain ⟨next, hadd, hnext⟩ := add_assigned hroot hf
    obtain ⟨after, hafter, hlast⟩ := ih hnext (fun g hg => by
      have hne : ¬f.1 = g.1 := fun heq => hfresh (heq ▸ List.mem_map_of_mem hg)
      have hget := hfs g hg
      rw [Entries.get?, Option.map_eq_none_iff] at hget ⊢
      rw [List.find?_append, hget, List.find?_singleton]
      simp [hne]) honce
    refine ⟨after, ?_, ?_⟩
    · rw [List.map_cons, List.cons_append, Draft.addAll, hadd]
      exact hafter
    · rw [hlast, List.map_cons, List.append_assoc]
      rfl

theorem addAll_statements (lock : Lock) {draft : Draft} {items : List Entries}
    (hroot : draft.root = rootOf "deps" items) (context : List Bytes) :
    ∃ next, draft.addAll context (lock.flatMap statementsOf) = some next ∧
      next.root = rootOf "deps" (items ++ lock.map tableOf) := by
  induction lock generalizing draft items context with
  | nil => exact ⟨draft, rfl, by simpa using hroot⟩
  | cons d lock ih =>
    obtain ⟨opened, hopen, hopened⟩ := add_itemHeading hroot context
    obtain ⟨filled, hfill, hfilled⟩ := addAll_fields hopened (fun _ _ => rfl)
      ((keys_fields d).nodup (by decide +kernel)) (lock.flatMap statementsOf)
    obtain ⟨next, hnext, hall⟩ := ih hfilled ["deps"]
    refine ⟨next, ?_, ?_⟩
    · rw [List.flatMap_cons, statementsOf, List.cons_append, Draft.addAll, hopen]
      exact hfill.trans hnext
    · rw [hall, List.append_assoc]
      rfl

/-! ## Reading back -/

theorem fill_optional (key value : Bytes) (d next : LockedDep)
    (hfield : depField d key (.text value) = some next) (hempty : value = [] → d = next) :
    (optional key value).foldlM (fun d f => depField d f.1 (.text f.2)) d = some next := by
  unfold optional
  split
  · rename_i hvalue
    rw [hempty (List.isEmpty_iff.1 hvalue)]
    rfl
  · simpa using hfield

theorem fill_tableOf (d : LockedDep) :
    Manifest.fill depField {} (.table (tableOf d)) = some d := by
  obtain ⟨name, git, tag, commit, path⟩ := d
  have hname : depField {} "name" (.text name) = some { name } := rfl
  have hgit := fill_optional "git" git { name } { name, git } rfl (by rintro rfl; rfl)
  have htag := fill_optional "tag" tag { name, git } { name, git, tag } rfl (by rintro rfl; rfl)
  have hcommit := fill_optional "commit" commit { name, git, tag } { name, git, tag, commit } rfl
    (by rintro rfl; rfl)
  have hpath := fill_optional "path" path { name, git, tag, commit }
    { name, git, tag, commit, path } rfl (by rintro rfl; rfl)
  simp only [Manifest.fill, Value.entries?, Option.bind_some, tableOf, fields, List.foldlM_map,
    List.foldlM_cons, List.foldlM_append, Option.bind_eq_bind, hname, hgit, htag, hcommit, hpath]

theorem fill_rootOf (lock : Lock) :
    Manifest.fill field [] (.table (rootOf "deps" (lock.map tableOf))) = some lock := by
  have hrecords : ((lock.map tableOf).map Value.table).mapM (Manifest.fill depField {}) =
      some lock := by
    induction lock with
    | nil => rfl
    | cons d lock ih =>
      rw [List.map_cons, List.map_cons, List.mapM_cons, fill_tableOf, ih]
      rfl
  have hfield : field [] "deps" (.tables (lock.map tableOf)) = some lock := hrecords
  cases lock with
  | nil => rfl
  | cons d lock =>
    rw [Manifest.fill, rootOf, if_neg (by simp)]
    simp only [Value.entries?, Option.bind_some, List.foldlM_cons, List.foldlM_nil, hfield,
      Option.bind_eq_bind]
    rfl

/-- A lock whose fields are texts is read back as it was written. -/
theorem parse_text {lock : Lock} (h : ∀ d ∈ lock, d.IsText) : parse (text lock) = some lock := by
  have hempty : ({} : Draft).root = rootOf "deps" [] := rfl
  obtain ⟨draft, hdraft, hroot⟩ := addAll_statements lock hempty []
  have hparse : Toml.parse (text lock) = some (rootOf "deps" (lock.map tableOf)) := by
    rw [Toml.parse, parseStatements_text h]
    simp only [Option.bind_eq_bind, Option.bind_some, hdraft, hroot]
    rfl
  rw [parse, hparse]
  exact fill_rootOf lock

end MiniJvm.Lock
