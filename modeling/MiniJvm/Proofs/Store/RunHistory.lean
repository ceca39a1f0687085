import Mathlib
import MiniJvm.Proofs.Store.History

/-!
# The history of runs

A store keeps the recorded runs in a table, one row for each, in the order in which they were
recorded (`Store.Chronicle`). From this table every run is read back as it was recorded, and the
runs are listed with the latest start first and of equal starts the last recorded first
(`Session.Remembers`).
-/

namespace MiniJvm

/-- The columns lose nothing. -/
@[simp]
theorem RunRecord.ofRow_toRow (r : RunRecord) : ofRow r.toRow = r := by
  have hflag : ((if r.hasResult then 1 else 0 : Int64) != 0) = r.hasResult := by
    cases r.hasResult <;> rfl
  simp only [ofRow, toRow, Int32.toInt32_toInt64, hflag, UInt64.toUInt64_toInt64]

/-- Of two recorded runs the first is listed before the second: it started later, or at the same
time and was recorded later. -/
def RunRecord.Newer (recorded : List RunRecord) (a b : RunRecord) : Prop :=
  b.startedAt < a.startedAt ∨ a.startedAt = b.startedAt ∧ [b, a].Sublist recorded

/-- The order in which runs are listed. -/
def RunRecord.notOlder (a b : RunRecord) : Bool := b.startedAt ≤ a.startedAt

theorem RunRecord.notOlder_trans (a b c : RunRecord) (hab : a.notOlder b = true)
    (hbc : b.notOlder c = true) : a.notOlder c = true := by
  simp only [notOlder, decide_eq_true_eq] at hab hbc ⊢
  exact Int64.le_trans hbc hab

theorem RunRecord.notOlder_total (a b : RunRecord) : (a.notOlder b || b.notOlder a) = true := by
  simp only [notOlder, Bool.or_eq_true, decide_eq_true_eq]
  exact Int64.le_total b.startedAt a.startedAt

/-- Of two elements of a list one comes before the other. -/
theorem pair_sublist_or {α : Type} {l : List α} {a b : α} (ha : a ∈ l) (hb : b ∈ l)
    (hne : a ≠ b) : [a, b].Sublist l ∨ [b, a].Sublist l := by
  obtain ⟨before, after, rfl⟩ := List.append_of_mem ha
  rcases List.mem_append.1 hb with hb | hb
  · refine .inr ((List.singleton_sublist.2 hb).append (List.singleton_sublist.2 ?_))
    exact List.mem_cons_self
  · rcases List.mem_cons.1 hb with hb | hb
    · exact absurd hb.symm hne
    · refine .inl (List.Sublist.trans ?_ (List.sublist_append_right before _))
      exact (List.singleton_sublist.2 hb).cons_cons a

namespace Store

/-- The runs of a store, in the order in which they were recorded. -/
structure Chronicle (s : Store) (recorded : List RunRecord) : Prop where
  rows : s.runs = recorded.map RunRecord.toRow
  once : (recorded.map RunRecord.id).Nodup

variable {s s' : Store} {recorded : List RunRecord}

theorem chronicle_of_empty (h : s.runs = []) : s.Chronicle [] := ⟨h, List.nodup_nil⟩

theorem Chronicle.congr (h : s.Chronicle recorded) (hruns : s'.runs = s.runs) :
    s'.Chronicle recorded :=
  ⟨hruns.trans h.rows, h.once⟩

/-! ## Recording -/

theorem Chronicle.any_iff (h : s.Chronicle recorded) (id : Bytes) :
    s.runs.any (·.id == id) = true ↔ id ∈ recorded.map RunRecord.id := by
  rw [h.rows]
  simp [RunRecord.toRow]

theorem Chronicle.recordRun_new (h : s.Chronicle recorded) {fresh : Bytes} {r : RunRecord}
    (hnew : (r.named fresh).id ∉ recorded.map RunRecord.id) :
    s.recordRun fresh r =
      .ok (r.named fresh, { s with runs := s.runs ++ [(r.named fresh).toRow] }) :=
  if_neg fun hany => hnew ((h.any_iff _).1 hany)

theorem Chronicle.recordRun_old (h : s.Chronicle recorded) {fresh : Bytes} {r : RunRecord}
    (hold : (r.named fresh).id ∈ recorded.map RunRecord.id) :
    s.recordRun fresh r = .error (.duplicateRun (r.named fresh).id) :=
  if_pos ((h.any_iff _).2 hold)

/-- What is recorded comes last. -/
theorem Chronicle.concat (h : s.Chronicle recorded) {fresh : Bytes} {r r' : RunRecord}
    (hrecord : s.recordRun fresh r = .ok (r', s')) : s'.Chronicle (recorded ++ [r']) := by
  by_cases hid : (r.named fresh).id ∈ recorded.map RunRecord.id
  · rw [h.recordRun_old hid] at hrecord
    cases hrecord
  · rw [h.recordRun_new hid] at hrecord
    cases hrecord
    refine ⟨by simp [h.rows], ?_⟩
    rw [List.map_append, List.map_singleton, ← List.concat_eq_append]
    exact h.once.concat hid

/-! ## Finding -/

theorem Chronicle.find?_eq (h : s.Chronicle recorded) (id : Bytes) :
    s.runs.find? (·.id == id) = (recorded.find? (·.id == id)).map RunRecord.toRow := by
  rw [h.rows, List.find?_map]
  rfl

theorem Chronicle.findRun (h : s.Chronicle recorded) {r : RunRecord} (hr : r ∈ recorded) :
    s.findRun r.id = .ok r := by
  have hfind : recorded.find? (·.id == r.id) = some r := by
    have hsome : (recorded.find? (·.id == r.id)).isSome = true :=
      List.find?_isSome.2 ⟨r, hr, beq_self_eq_true _⟩
    obtain ⟨found, hfound⟩ := Option.isSome_iff_exists.1 hsome
    have hid : found.id = r.id := by simpa using List.find?_some hfound
    rw [hfound, List.inj_on_of_nodup_map h.once (List.mem_of_find?_eq_some hfound) hr hid]
  rw [Store.findRun, h.find?_eq, hfind]
  exact congrArg Except.ok r.ofRow_toRow

theorem Chronicle.findRun_missing (h : s.Chronicle recorded) {id : Bytes}
    (hid : id ∉ recorded.map RunRecord.id) : s.findRun id = .error (.runNotFound id) := by
  have hfind : recorded.find? (·.id == id) = none := by
    rw [List.find?_eq_none]
    intro r hr heq
    exact hid (List.mem_map.2 ⟨r, hr, beq_iff_eq.1 heq⟩)
  rw [Store.findRun, h.find?_eq, hfind]
  rfl

/-! ## Listing -/

/-- A limit cuts the list of all runs. -/
theorem listRuns_eq (s : Store) (limit : Int) :
    s.listRuns limit =
      if 0 < limit then (s.listRuns 0).take limit.toNat else s.listRuns 0 := by
  unfold listRuns
  dsimp only
  rw [if_neg (Int.lt_irrefl 0)]
  split
  · rw [List.map_take]
  · rfl

theorem Chronicle.listRuns_all (h : s.Chronicle recorded) :
    s.listRuns 0 = recorded.reverse.mergeSort RunRecord.notOlder := by
  have hsort : s.newestRuns.map RunRecord.ofRow =
      (s.runs.reverse.map RunRecord.ofRow).mergeSort RunRecord.notOlder :=
    List.map_mergeSort fun _ _ _ _ => rfl
  have hback : RunRecord.ofRow ∘ RunRecord.toRow = id := funext RunRecord.ofRow_toRow
  unfold listRuns
  dsimp only
  rw [if_neg (Int.lt_irrefl 0), hsort, h.rows, ← List.map_reverse, List.map_map, hback, List.map_id]

theorem Chronicle.perm (h : s.Chronicle recorded) : (s.listRuns 0).Perm recorded := by
  rw [h.listRuns_all]
  exact (List.mergeSort_perm _ _).trans (List.reverse_perm _)

/-- Sorting keeps the order of runs that started together. -/
theorem Chronicle.tied (h : s.Chronicle recorded) {a b : RunRecord}
    (hab : [a, b].Sublist (s.listRuns 0)) (hstart : a.startedAt = b.startedAt) :
    [b, a].Sublist recorded := by
  have hnodup : (s.listRuns 0).Nodup := h.perm.nodup_iff.2 (List.Nodup.of_map _ h.once)
  have hne : a ≠ b := List.pairwise_iff_forall_sublist.1 hnodup hab
  have ha : a ∈ recorded := h.perm.mem_iff.1 (hab.subset List.mem_cons_self)
  have hb : b ∈ recorded :=
    h.perm.mem_iff.1 (hab.subset (List.mem_cons_of_mem a (List.mem_singleton_self b)))
  refine (pair_sublist_or hb ha hne.symm).resolve_right fun hearlier => ?_
  have hle : b.notOlder a = true := by
    rw [RunRecord.notOlder, hstart]
    exact decide_eq_true (Int64.le_refl _)
  have hba : [b, a].Sublist (s.listRuns 0) := by
    rw [h.listRuns_all]
    exact List.pair_sublist_mergeSort RunRecord.notOlder_trans RunRecord.notOlder_total hle
      hearlier.reverse
  have hsame : [a, b] = [b, a] :=
    (hnodup.perm_iff_eq_of_sublist hab hba).1 (List.Perm.swap b a [])
  exact hne (List.cons_eq_cons.1 hsame).1

theorem Chronicle.sorted (h : s.Chronicle recorded) :
    (s.listRuns 0).Pairwise (RunRecord.Newer recorded) := by
  refine List.pairwise_iff_forall_sublist.2 fun {a b} hab => ?_
  have hle : b.startedAt ≤ a.startedAt := by
    have hpairwise := List.pairwise_mergeSort RunRecord.notOlder_trans RunRecord.notOlder_total
      recorded.reverse
    rw [← h.listRuns_all] at hpairwise
    exact of_decide_eq_true (List.pairwise_iff_forall_sublist.1 hpairwise hab)
  rcases Int64.lt_or_eq_of_le hle with hlt | heq
  · exact .inl hlt
  · exact .inr ⟨heq.symm, h.tied hab heq.symm⟩

/-! ## Saving -/

theorem runs_saveImage (s : Store) (now : Int64) (i : Image) :
    (s.saveImage now i).2.runs = s.runs := by
  have hone (s : Store) (c : ClassDef) : (s.saveClass now c).runs = s.runs := by
    unfold saveClass
    dsimp only
    split <;> rfl
  have hall : ∀ classes : List ClassDef, ∀ s : Store,
      (classes.foldl (fun s c => s.saveClass now c) s).runs = s.runs := by
    intro classes
    induction classes with
    | nil => exact fun s => rfl
    | cons c rest ih =>
      intro s
      rw [List.foldl_cons, ih, hone]
  unfold saveImage saveBody
  split <;> exact hall i.classList s

end Store

/-! ## Sessions -/

namespace Session

/-- A session that can record, with the runs in its store. -/
structure Logging (s : Session) (recorded : List RunRecord) : Prop where
  isOpen : s.isOpen = true
  writable : s.readOnly = false
  chronicle : s.store.Chronicle recorded

variable {s s' : Session} {recorded : List RunRecord}

theorem Logging.check (h : s.Logging recorded) (action : StoreAction) :
    s.check action = .ok s.store :=
  if_pos h.isOpen

theorem Logging.recordRun (h : s.Logging recorded) (fresh : Bytes) (r : RunRecord) :
    s.recordRun fresh r =
      (s.store.recordRun fresh r).map fun (r, store) => (r, { s with store }) := by
  have hwrite : s.checkWrite .recordingRun = .ok () :=
    if_neg (by rw [h.writable]; exact Bool.false_ne_true)
  unfold Session.recordRun
  rw [h.check, hwrite]
  change (s.store.recordRun fresh r >>= fun x => pure (x.1, { s with store := x.2 })) = _
  cases s.store.recordRun fresh r <;> rfl

theorem Logging.findRun (h : s.Logging recorded) (id : Bytes) :
    s.findRun id = s.store.findRun id := by
  unfold Session.findRun
  rw [h.check]
  rfl

theorem Logging.listRuns (h : s.Logging recorded) (limit : Int) :
    s.listRuns limit = .ok (s.store.listRuns limit) := by
  unfold Session.listRuns
  rw [h.check]
  rfl

/-- To record a run adds it to the history. -/
theorem Logging.concat (h : s.Logging recorded) {fresh : Bytes} {r r' : RunRecord}
    (hrecord : s.recordRun fresh r = .ok (r', s')) : s'.Logging (recorded ++ [r']) := by
  obtain ⟨store, rfl, hstore⟩ := recorded_eq hrecord
  exact ⟨h.isOpen, h.writable, h.chronicle.concat hstore⟩

/-- To save an image leaves the history alone. -/
theorem Logging.saved (h : s.Logging recorded) {now : Int64} {i : Image}
    {saved : Bytes × Session} (hsave : s.saveImage now i = .ok saved) :
    saved.2.Logging recorded := by
  rw [saved_eq hsave]
  exact ⟨h.isOpen, h.writable, h.chronicle.congr (Store.runs_saveImage s.store now i)⟩

/-- What can be asked about these runs, and how another run is recorded. -/
structure Remembers (s : Session) (recorded : List RunRecord) : Prop where
  /-- A run with a new name is recorded under it. -/
  accepts : ∀ fresh r, r.id ≠ [] → r.id ∉ recorded.map RunRecord.id →
    ∃ s', s.recordRun fresh r = .ok (r, s')
  /-- A run without a name is recorded under a fresh one. -/
  names : ∀ fresh r, r.id = [] → fresh ∉ recorded.map RunRecord.id →
    ∃ s', s.recordRun fresh r = .ok ({ r with id := fresh }, s')
  /-- A run with the name of a recorded one is refused, and nothing changes. -/
  refuses : ∀ fresh r, r.id ≠ [] → r.id ∈ recorded.map RunRecord.id →
    s.recordRun fresh r = .error (.duplicateRun r.id) ∧ s.perform (.record fresh r) = s
  /-- No two runs have one name. -/
  distinct : (recorded.map RunRecord.id).Nodup
  /-- A recorded run is found under its name as it was recorded. -/
  finds : ∀ r ∈ recorded, s.findRun r.id = .ok r
  findsNothingElse : ∀ id ∉ recorded.map RunRecord.id, s.findRun id = .error (.runNotFound id)
  /-- The list of all runs has each of them, sorted, and a positive limit cuts it. -/
  lists : ∃ all, s.listRuns 0 = .ok all ∧ all.Perm recorded ∧
    all.Pairwise (RunRecord.Newer recorded) ∧
    ∀ k > 0, s.listRuns k = .ok (all.take k.toNat)

theorem Logging.remembers (h : s.Logging recorded) : s.Remembers recorded where
  accepts fresh r hid hnew := by
    have hnamed : r.named fresh = r := if_neg (by simpa using hid)
    rw [h.recordRun, h.chronicle.recordRun_new (by rwa [hnamed]), hnamed]
    exact ⟨_, rfl⟩
  names fresh r hid hnew := by
    have hnamed : r.named fresh = { r with id := fresh } := if_pos (by simpa using hid)
    rw [h.recordRun, h.chronicle.recordRun_new (by rwa [hnamed]), hnamed]
    exact ⟨_, rfl⟩
  refuses fresh r hid hold := by
    have hnamed : r.named fresh = r := if_neg (by simpa using hid)
    have hrefused : s.recordRun fresh r = .error (.duplicateRun r.id) := by
      rw [h.recordRun, h.chronicle.recordRun_old (by rwa [hnamed]), hnamed]
      rfl
    exact ⟨hrefused, by rw [perform, hrefused]⟩
  distinct := h.chronicle.once
  finds r hr := by rw [h.findRun, h.chronicle.findRun hr]
  findsNothingElse id hid := by rw [h.findRun, h.chronicle.findRun_missing hid]
  lists := by
    refine ⟨s.store.listRuns 0, h.listRuns 0, h.chronicle.perm, h.chronicle.sorted, fun k hk => ?_⟩
    rw [h.listRuns, Store.listRuns_eq, if_pos hk]

/-! ### Calls -/

/-- The run that a call records, as it is answered. -/
def answer? (s : Session) : Call → Option RunRecord
  | .save _ _ => none
  | .record fresh r => (s.recordRun fresh r).toOption.map Prod.fst

/-- The runs that calls record, the oldest first. -/
def recordedBy (s : Session) : List Call → List RunRecord
  | [] => []
  | call :: rest => (s.answer? call).toList ++ (s.perform call).recordedBy rest

theorem Logging.perform (h : s.Logging recorded) (call : Call) :
    (s.perform call).Logging (recorded ++ (s.answer? call).toList) := by
  cases call with
  | save now i =>
    rw [answer?, Option.toList_none, List.append_nil, Session.perform]
    cases hsave : s.saveImage now i with
    | error e => exact h
    | ok saved => exact h.saved hsave
  | record fresh r =>
    rw [answer?, Session.perform]
    cases hrecord : s.recordRun fresh r with
    | error e => simpa [Except.toOption] using h
    | ok recorded => exact h.concat hrecord

theorem Logging.performAll (h : s.Logging recorded) (calls : List Call) :
    (s.performAll calls).Logging (recorded ++ s.recordedBy calls) := by
  induction calls generalizing s recorded with
  | nil =>
    rw [Session.recordedBy, List.append_nil]
    exact h
  | cons call rest ih =>
    rw [Session.recordedBy, ← List.append_assoc]
    exact ih (h.perform call)

end Session

end MiniJvm
