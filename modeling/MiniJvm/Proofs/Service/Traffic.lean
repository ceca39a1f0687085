import Mathlib
import MiniJvm.Proofs.Service.Requests
import MiniJvm.Proofs.Store.RunHistory

/-!
# Overlapping requests

An execution has three parts: its job is prepared, the workers do it, and what they answer is
recorded (`Service.execute_eq`). Between these parts other requests are served and other jobs are
done. `Traffic` is a service with the executions that wait for the workers, and `TrafficEvent` lists
what can happen next; requests that are served in one go are among it.

Whatever happens, the runs in the store are those that executions were answered, in the order of the
answers (`Traffic.Logging`).
-/

namespace MiniJvm

namespace Service

/-! ## The parts of an execution -/

/-- What comes before the workers: the job of a request. -/
def prepare (fuel : Nat) (m : Moment) (request : ExecuteRequest) :
    ServeM (Job Refusal RunRecord) := do
  if Cbor.maxElements < request.args.length then throw .oversized
  checkTexts [request.source.digest, request.entry]
  let (i, digest) ← resolveImage request.source
  let entry := if request.entry.isEmpty then i.entry else request.entry
  if entry.isEmpty then throw .noEntry
  return runJob fuel i digest entry request m.now

/-- What comes after them: a run that they answer is recorded. -/
def conclude (m : Moment) (answer : Except Refusal RunRecord) : ServeM RunRecord := do
  match answer with
  | .error e => throw e
  | .ok r =>
    let r ← recordRun m r
    note [executedLine r]
    return r

theorem execute_eq (fuel : Nat) (m : Moment) (request : ExecuteRequest) :
    execute fuel m request =
      prepare fuel m request >>= fun job => perform job >>= fun r => conclude m (.ok r) := by
  by_cases hsize : Cbor.maxElements < request.args.length
  · simp only [execute, prepare, if_pos hsize]
    rfl
  · simp only [execute, prepare, if_neg hsize, bind_assoc]
    refine bind_congr (m := ServeM) fun _ => bind_congr (m := ServeM) fun found => ?_
    by_cases hentry : (if request.entry.isEmpty then found.1.entry else request.entry).isEmpty
    · simp only [if_pos hentry]
      rfl
    · simp only [if_neg hentry]
      rfl

end Service

/-- A service with the executions whose jobs are with the workers. -/
structure Traffic where
  service : Service
  /-- For each waiting execution the number of its call and its moment. -/
  waiting : List (Nat × Moment) := []
  /-- What executions were answered, the oldest answer first. -/
  answers : List (Except Refusal RunRecord) := []

/-- What can happen to a service whose requests overlap. -/
inductive TrafficEvent where
  /-- A request is served in one go. -/
  | serve (request : Request)
  /-- An execution is prepared and given to the workers. -/
  | enter (fuel : Nat) (m : Moment) (request : ExecuteRequest)
  /-- Something happens to the workers and to the calls that wait for them. -/
  | pool (event : PoolEvent Refusal RunRecord)
  /-- A waiting execution, by its number, is answered if its call has returned. -/
  | conclude (n : Nat)

namespace Traffic

/-- What a request is answered if it is an execution. -/
def answer? (s : Service) : Request → Option (Except Refusal RunRecord)
  | .execute fuel m request => some (s.serve (Service.execute fuel m request)).1
  | _ => none

def next (t : Traffic) : TrafficEvent → Traffic
  | .serve request =>
    { t with
      service := t.service.after request
      answers := t.answers ++ (answer? t.service request).toList }
  | .enter fuel m request =>
    let (prepared, served) := t.service.serve (Service.prepare fuel m request)
    let workers := served.service.workers
    match prepared with
    | .error e => { t with service := served.service, answers := t.answers ++ [.error e] }
    | .ok job =>
      { t with
        service := { served.service with workers := workers.play [.call job] }
        waiting := t.waiting ++ [(workers.calls.length, m)] }
  | .pool event =>
    { t with service := { t.service with workers := t.service.workers.play [event] } }
  | .conclude n =>
    match t.waiting[n]? with
    | none => t
    | some (call, m) =>
      match (t.service.workers.calls[call]?).bind Call.reply? with
      | none => t
      | some reply =>
        let (answer, served) := t.service.serve (Service.conclude m (Service.outcome (some reply)))
        ⟨served.service, t.waiting.eraseIdx n, t.answers ++ [answer]⟩

def play (t : Traffic) (events : List TrafficEvent) : Traffic := events.foldl next t

/-- The runs that executions were answered, the oldest first. -/
def executed (t : Traffic) : List RunRecord := t.answers.filterMap Except.toOption

end Traffic

/-! ## Histories -/

namespace Service

/-- A service with a store in which these runs are recorded. -/
def Logging (s : Service) (runs : List RunRecord) : Prop :=
  ∃ session, s.session = some session ∧ session.Logging runs

variable {s : Service} {runs : List RunRecord}

/-- To prepare an execution changes nothing. -/
theorem keeps_prepare {P : Service → Prop} (fuel : Nat) (m : Moment) (request : ExecuteRequest) :
    Keeps P (prepare fuel m request) := by
  refine Keeps.unless _ ?_
  refine (keeps_checkTexts _).bind fun _ => (keeps_resolveImage _).bind fun found => ?_
  refine Keeps.unless _ ?_
  exact keeps_pure _

theorem keeps_save (m : Moment) (data : Bytes) : Keeps (Logging · runs) (saveImage m data) := by
  refine keeps_saveImage (fun {s session now i saved} hs hsession hsave => ?_) m data
  obtain ⟨_, hsession', hlogging⟩ := hs
  cases hsession.symm.trans hsession'
  exact ⟨saved.2, rfl, hlogging.saved hsave⟩

theorem keeps_perform (job : Job Refusal RunRecord) : Keeps (Logging · runs) (perform job) := by
  intro s hs
  rw [perform_apply]
  exact hs

/-- The step records the run that it gives, and no other. -/
def Records (x : ServeM RunRecord) : Prop :=
  ∀ s runs, s.service.Logging runs →
    (x s).2.service.Logging (runs ++ (x s).1.toOption.toList)

theorem Logging.refused (h : s.Logging runs) (e : Refusal) :
    s.Logging (runs ++ (Except.error e : Except Refusal RunRecord).toOption.toList) := by
  change s.Logging (runs ++ [])
  rwa [List.append_nil]

/-- What comes before a step that records must not record anything itself. -/
theorem Records.after {α : Type} {x : ServeM α} {k : α → ServeM RunRecord}
    (hx : ∀ runs, Keeps (Logging · runs) x) (hk : ∀ a, Records (k a)) : Records (x >>= k) := by
  intro s runs hs
  have hkept := hx runs s hs
  rw [bind_apply]
  rcases hrun : x s with ⟨e | a, t⟩ <;> rw [hrun] at hkept
  · exact hkept.refused e
  · exact hk a t runs hkept

theorem records_conclude (m : Moment) (answer : Except Refusal RunRecord) :
    Records (conclude m answer) := by
  intro s runs hs
  cases answer with
  | error e => exact hs.refused e
  | ok r =>
    obtain ⟨session, hsession, hlogging⟩ := id hs
    unfold conclude
    dsimp only
    rw [bind_apply, recordRun_apply, hsession]
    dsimp only
    cases hrecord : session.recordRun m.fresh r with
    | error e => exact hs.refused (.store e)
    | ok recorded => exact ⟨recorded.2, rfl, hlogging.concat hrecord⟩

theorem records_execute (fuel : Nat) (m : Moment) (request : ExecuteRequest) :
    Records (execute fuel m request) := by
  rw [execute_eq]
  exact .after (fun _ => keeps_prepare fuel m request) fun job =>
    .after (fun _ => keeps_perform job) fun r => records_conclude m (.ok r)

/-- The list of all runs is cut to the limit of the request, or to twenty without one. -/
theorem serve_listRuns {session : Session} (hsession : s.session = some session)
    (h : session.Logging runs) (limit : Int) :
    (s.serve (listRuns limit)).1 =
      .ok ((session.store.listRuns 0).take (if limit ≤ 0 then 20 else limit.toNat)) := by
  have hpositive : 0 < (if limit ≤ 0 then defaultLimit else limit) := by
    unfold defaultLimit
    split <;> omega
  have hcut : (if limit ≤ 0 then defaultLimit else limit).toNat =
      if limit ≤ 0 then 20 else limit.toNat := by
    unfold defaultLimit
    split <;> rfl
  change (listRuns limit { service := s }).1 = _
  unfold listRuns
  rw [bind_apply, needStore_apply]
  dsimp only
  rw [hsession]
  dsimp only
  rw [h.listRuns, Store.listRuns_eq, if_pos hpositive, hcut]
  rfl

end Service

namespace Traffic

variable {t : Traffic}

theorem executed_concat (service : Service) (waiting : List (Nat × Moment))
    (answers : List (Except Refusal RunRecord)) (answer : Except Refusal RunRecord) :
    executed ⟨service, waiting, answers ++ [answer]⟩ =
      answers.filterMap Except.toOption ++ answer.toOption.toList := by
  unfold executed
  rw [List.filterMap_append]
  cases answer <;> rfl

/-- The runs in the store are those that executions were answered. -/
def Logging (t : Traffic) : Prop := t.service.Logging t.executed

theorem Logging.serve (h : t.Logging) (request : Request) : (t.next (.serve request)).Logging := by
  unfold Logging next
  cases request with
  | execute fuel m request =>
    dsimp only [answer?, Option.toList_some]
    rw [executed_concat]
    exact Service.records_execute fuel m request { service := t.service } t.executed h
  | saveImage m data =>
    dsimp only [answer?, Option.toList_none]
    rw [List.append_nil]
    exact Service.keeps_save m data { service := t.service } h
  | disassemble source name =>
    dsimp only [answer?, Option.toList_none]
    rw [List.append_nil]
    exact Service.keeps_disassemble (P := (Service.Logging · t.executed)) source name
      { service := t.service } h
  | listRuns limit =>
    dsimp only [answer?, Option.toList_none]
    rw [List.append_nil]
    exact Service.keeps_listRuns (P := (Service.Logging · t.executed)) limit
      { service := t.service } h

theorem Logging.enter (h : t.Logging) (fuel : Nat) (m : Moment) (request : ExecuteRequest) :
    (t.next (.enter fuel m request)).Logging := by
  have hkept := Service.keeps_prepare (P := (Service.Logging · t.executed)) fuel m request
    { service := t.service } h
  unfold Logging next
  dsimp only
  have hserve : t.service.serve (Service.prepare fuel m request) =
      Service.prepare fuel m request { service := t.service } := rfl
  rw [hserve]
  rcases hrun : Service.prepare fuel m request { service := t.service } with ⟨e | job, served⟩ <;>
    rw [hrun] at hkept <;> dsimp only
  · rw [executed_concat]
    exact hkept.refused e
  · exact hkept

theorem Logging.conclude (h : t.Logging) (n : Nat) : (t.next (.conclude n)).Logging := by
  unfold Logging next
  dsimp only
  split
  · exact h
  · split
    · exact h
    · rename_i call m _ _ reply _
      dsimp only
      rw [executed_concat]
      exact Service.records_conclude m (Service.outcome (some reply)) { service := t.service }
        t.executed h

theorem Logging.next (h : t.Logging) (event : TrafficEvent) : (t.next event).Logging := by
  cases event with
  | serve request => exact h.serve request
  | enter fuel m request => exact h.enter fuel m request
  | pool event => exact h
  | conclude n => exact h.conclude n

theorem Logging.play (h : t.Logging) (events : List TrafficEvent) : (t.play events).Logging := by
  induction events generalizing t with
  | nil => exact h
  | cons event rest ih => exact ih (h.next event)

end Traffic

namespace Session

/-- A store without runs remembers all runs that are recorded in it afterwards, and in the order of
their starts. A service with this store records the runs that executions are answered, and no
others, and lists twenty of them unless the request gives another limit. -/
theorem runs_remembered {s : Session} (hopen : s.isOpen = true) (hwritable : s.readOnly = false)
    (hempty : s.store.runs = []) :
    (∀ calls, (s.performAll calls).Remembers (s.recordedBy calls)) ∧
      ∀ workers events, ∃ t session all,
        Traffic.play ⟨⟨workers, some s⟩, [], []⟩ events = t ∧ t.service.session = some session ∧
          session.Remembers t.executed ∧ session.listRuns 0 = .ok all ∧
          ∀ limit, (t.service.serve (Service.listRuns limit)).1 =
            .ok (all.take (if limit ≤ 0 then 20 else limit.toNat)) := by
  have hlogging : s.Logging [] := ⟨hopen, hwritable, Store.chronicle_of_empty hempty⟩
  refine ⟨fun calls => (hlogging.performAll calls).remembers, fun workers events => ?_⟩
  have hstart : Traffic.Logging ⟨⟨workers, some s⟩, [], []⟩ := ⟨s, rfl, hlogging⟩
  obtain ⟨session, hsession, hafter⟩ := hstart.play events
  exact ⟨_, session, session.store.listRuns 0, rfl, hsession, hafter.remembers, hafter.listRuns 0,
    Service.serve_listRuns hsession hafter⟩

/-- Runs with and without names, of which two started together and two have one name. -/
def diary : List Call :=
  [.record "1" { startedAt := 5, result := -1, hasResult := true },
    .record "2" { id := "x", startedAt := 7, instructions := 0xFFFFFFFFFFFFFFFF },
    .record "3" { id := "x", startedAt := 9 }, .record "4" { startedAt := 7, duration := -1 }]

/-- Two executions overlap; the one that came second is answered first. -/
def crossing : List TrafficEvent :=
  let request : ExecuteRequest :=
    ⟨{ data := (Image.ofClasses "A.f:()V" (some [plain])).marshal }, [], [], false⟩
  [.enter 5 ⟨30, "a"⟩ request, .enter 5 ⟨40, "b"⟩ request, .pool (.submit 0), .pool (.submit 1),
    .pool (.take 0), .pool (.take 1), .serve (.listRuns 0), .pool (.finish 1), .pool (.deliver 1),
    .pool (.receive 1), .conclude 1, .pool (.finish 0), .pool (.deliver 0), .pool (.receive 0),
    .conclude 0, .serve (.execute 5 ⟨50, "b"⟩ request)]

theorem runs_remembered_crossing :
    ((inMemory "runs.db").performAll diary).Remembers ((inMemory "runs.db").recordedBy diary) ∧
      ((inMemory "runs.db").recordedBy diary).map RunRecord.id = [("1" : Bytes), "x", "4"] ∧
      ((inMemory "runs.db").performAll diary).findRun "x" =
        .ok { id := "x", startedAt := 7, instructions := 0xFFFFFFFFFFFFFFFF } ∧
      ∃ t session, Traffic.play ⟨⟨.create 2, some (inMemory "runs.db")⟩, [], []⟩ crossing = t ∧
        t.service.session = some session ∧ session.Remembers t.executed ∧
        t.executed.map RunRecord.id = [("b" : Bytes), "a"] ∧
        t.answers.map Except.toBool = [true, true, false] := by
  obtain ⟨hcalls, hevents⟩ := runs_remembered (s := inMemory "runs.db") rfl rfl rfl
  obtain ⟨t, session, -, ht, hsession, hremembers, -⟩ := hevents (.create 2) crossing
  have hanswers : (Traffic.play ⟨⟨.create 2, some (inMemory "runs.db")⟩, [], []⟩
      crossing).executed.map RunRecord.id = [("b" : Bytes), "a"] ∧
      (Traffic.play ⟨⟨.create 2, some (inMemory "runs.db")⟩, [], []⟩
        crossing).answers.map Except.toBool = [true, true, false] := by decide +kernel
  rw [ht] at hanswers
  exact ⟨hcalls diary, by decide +kernel, by decide +kernel, t, session, ht, hsession, hremembers,
    hanswers⟩

end Session

end MiniJvm
