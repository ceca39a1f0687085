import Mathlib
import MiniJvm.Proofs.Basic
import MiniJvm.Service.Execution

/-!
# Sequences of requests

A service serves one request after another and is changed by what they save, record and run.
`Stable` names the three ways in which a request can change a service; a property that each of them
keeps is kept by every sequence of requests, answered or refused (`Stable.afterAll`).
-/

namespace MiniJvm

inductive Request where
  | saveImage (m : Moment) (data : Bytes)
  | execute (fuel : Nat) (m : Moment) (request : ExecuteRequest)
  | disassemble (source : ImageSource) (name : Bytes)
  | listRuns (limit : Int)

namespace Service

def after (s : Service) : Request → Service
  | .saveImage m data => (s.serve (saveImage m data)).2.service
  | .execute fuel m request => (s.serve (execute fuel m request)).2.service
  | .disassemble source name => (s.serve (disassemble source name)).2.service
  | .listRuns limit => (s.serve (listRuns limit)).2.service

def afterAll (s : Service) (requests : List Request) : Service := requests.foldl after s

/-- The service after its first free worker did a job. -/
def worked (s : Service) (job : Job Refusal RunRecord) : Service :=
  { s with workers := ({ s.workers with log := [] }.perform job).2 }

/-! ## What the steps do -/

theorem note_apply (lines : List Log.Line) (s : Serving) :
    note lines s = (.ok (), { s with log := s.log ++ lines }) := rfl

theorem needStore_apply (s : Serving) :
    needStore s = match s.service.session with
      | some session => (.ok session, s)
      | none => (.error .noStore, s) := by
  change (match s.service.session with
    | some session => (return session : ServeM Session)
    | none => throw Refusal.noStore) s = _
  cases s.service.session <;> rfl

theorem checkTexts_apply (texts : List Bytes) (s : Serving) :
    checkTexts texts s = (if texts.all Utf8.valid then .ok () else .error .malformed, s) := by
  unfold checkTexts
  split <;> rfl

theorem resolveImage_apply (source : ImageSource) (s : Serving) :
    resolveImage source s =
      (if !source.data.isEmpty then
        match Image.unmarshal source.data with
        | .error e => .error (.image e)
        | .ok i => .ok (i, i.digest)
      else if !source.digest.isEmpty then
        match s.service.session with
        | none => .error .noStore
        | some session =>
          match session.loadImage source.digest with
          | .error e => .error (.store e)
          | .ok i => .ok (i, source.digest)
      else .error .noImageOrDigest, s) := by
  unfold resolveImage
  split
  · cases Image.unmarshal source.data <;> rfl
  · split
    · rw [bind_apply, needStore_apply]
      cases s.service.session with
      | none => rfl
      | some session =>
        dsimp only
        cases session.loadImage source.digest <;> rfl
    · rfl

theorem loadImage_apply (i : Image) (s : Serving) :
    loadImage i s =
      ((Registry.empty.loadAll i.classList).outcome.mapError Refusal.load |>.map
          fun _ => (Registry.empty.loadAll i.classList).registry,
        { s with
          log := s.log ++ (Registry.empty.loadAll i.classList).events.map LoadEvent.line }) := by
  unfold loadImage
  rw [bind_apply, note_apply]
  dsimp only
  cases (Registry.empty.loadAll i.classList).outcome <;> rfl

theorem perform_apply (job : Job Refusal RunRecord) (s : Serving) :
    perform job s =
      (outcome ({ s.service.workers with log := [] }.perform job).1,
        { s with
          service := s.service.worked job
          log := s.log ++ ({ s.service.workers with log := [] }.perform job).2.log }) := by
  have hget : (get : ServeM Serving) s = (.ok s, s) := rfl
  unfold perform worked
  rw [bind_apply, hget]
  dsimp only
  rcases ({ s.service.workers with log := [] } : WorkerPool Refusal RunRecord).perform job with
    ⟨reply, workers⟩
  dsimp only
  cases outcome reply <;> rfl

theorem recordRun_apply (m : Moment) (r : RunRecord) (s : Serving) :
    recordRun m r s =
      match s.service.session with
      | none => (.ok (r.named m.fresh), s)
      | some session =>
        match session.recordRun m.fresh r with
        | .error e => (.error (.store e), s)
        | .ok (r, session) =>
          (.ok r, { s with
            service := { s.service with session := some session }
            log := s.log ++ [Session.recordedLine r] }) := by
  unfold recordRun
  rw [bind_apply]
  change (match s.service.session with
    | none => return r.named m.fresh
    | some session =>
      match session.recordRun m.fresh r with
      | .error e => throw (Refusal.store e)
      | .ok (r, session) => do
        setSession session
        note [Session.recordedLine r]
        return r : ServeM RunRecord) s = _
  cases s.service.session with
  | none => rfl
  | some session =>
    dsimp only
    rcases session.recordRun m.fresh r with e | ⟨r, session⟩ <;> rfl

theorem saveImage_apply (m : Moment) (data : Bytes) (s : Serving) :
    saveImage m data s =
      match s.service.session with
      | none => (.error .noStore, s)
      | some session =>
        if data.isEmpty then (.error .noImage, s)
        else match Image.unmarshal data with
          | .error e => (.error (.image e), s)
          | .ok i =>
            match loadImage i s with
            | (.error e, t) => (.error e, t)
            | (.ok _, t) =>
              match session.saveImage m.now i with
              | .error e => (.error (.store e), t)
              | .ok (digest, session) =>
                (.ok ⟨digest, i.classList.length⟩, { t with
                  service := { t.service with session := some session }
                  log := t.log ++ [Session.savedLine digest i] }) := by
  unfold saveImage
  rw [bind_apply, needStore_apply]
  cases s.service.session with
  | none => rfl
  | some session =>
    dsimp only
    split
    · rfl
    · cases Image.unmarshal data with
      | error e => rfl
      | ok i =>
        dsimp only
        rw [bind_apply]
        rcases loadImage i s with ⟨e | r, t⟩
        · rfl
        · dsimp only
          cases session.saveImage m.now i <;> rfl

/-! ## What every request keeps -/

/-- A property of services that survives the work of a worker, and saving and recording in the
store. -/
structure Stable (P : Service → Prop) : Prop where
  worked : ∀ {s}, P s → ∀ job, P (s.worked job)
  saved : ∀ {s session now i saved}, P s → s.session = some session →
    session.saveImage now i = .ok saved → P { s with session := some saved.2 }
  recorded : ∀ {s session fresh r r' session'}, P s → s.session = some session →
    session.recordRun fresh r = .ok (r', session') → P { s with session := some session' }

/-- The step keeps the property, whether it is refused or not. -/
def Keeps {α : Type} (P : Service → Prop) (x : ServeM α) : Prop :=
  ∀ s, P s.service → P (x s).2.service

section Keeps

variable {α β : Type} {P : Service → Prop}

theorem Keeps.bind {x : ServeM α} {k : α → ServeM β} (h : Keeps P x) (hk : ∀ a, Keeps P (k a)) :
    Keeps P (x >>= k) := by
  intro s hs
  have hx := h s hs
  rw [bind_apply]
  rcases hrun : x s with ⟨why | a, t⟩ <;> rw [hrun] at hx
  · exact hx
  · exact hk a t hx

theorem keeps_pure (a : α) : Keeps P (pure a : ServeM α) := fun _ hs => hs

theorem keeps_throw (why : Refusal) : Keeps P (throw why : ServeM α) := fun _ hs => hs

/-- A check before the rest. -/
theorem Keeps.unless {c : Prop} [Decidable c] (why : Refusal) {k : Unit → ServeM α}
    (hk : Keeps P (k ())) : Keeps P (if c then (throw why : ServeM Unit) >>= k else k ()) := by
  split
  · exact (keeps_throw why).bind fun _ => hk
  · exact hk

theorem keeps_note (lines : List Log.Line) : Keeps P (note lines) := fun _ hs => hs

theorem keeps_needStore : Keeps P needStore := by
  intro s hs
  rw [needStore_apply]
  cases s.service.session <;> exact hs

theorem keeps_checkTexts (texts : List Bytes) : Keeps P (checkTexts texts) := by
  intro s hs
  rw [checkTexts_apply]
  exact hs

theorem keeps_resolveImage (source : ImageSource) : Keeps P (resolveImage source) := by
  intro s hs
  rw [resolveImage_apply]
  exact hs

theorem keeps_loadImage (i : Image) : Keeps P (loadImage i) := by
  intro s hs
  rw [loadImage_apply]
  exact hs

theorem Stable.keeps_perform (h : Stable P) (job : Job Refusal RunRecord) :
    Keeps P (perform job) := by
  intro s hs
  rw [perform_apply]
  exact h.worked hs job

theorem Stable.keeps_recordRun (h : Stable P) (m : Moment) (r : RunRecord) :
    Keeps P (recordRun m r) := by
  intro s hs
  rw [recordRun_apply]
  cases hsession : s.service.session with
  | none => exact hs
  | some session =>
    dsimp only
    cases hrecord : session.recordRun m.fresh r with
    | error e => exact hs
    | ok recorded => exact h.recorded hs hsession hrecord

theorem Stable.keeps_execute (h : Stable P) (fuel : Nat) (m : Moment) (request : ExecuteRequest) :
    Keeps P (execute fuel m request) := by
  refine Keeps.unless _ ?_
  refine (keeps_checkTexts _).bind fun _ => (keeps_resolveImage _).bind fun found => ?_
  refine Keeps.unless _ ?_
  exact (h.keeps_perform _).bind fun r => (h.keeps_recordRun m r).bind fun r =>
    (keeps_note _).bind fun _ => keeps_pure r

theorem keeps_disassemble (source : ImageSource) (name : Bytes) :
    Keeps P (disassemble source name) := by
  refine (keeps_checkTexts _).bind fun _ => (keeps_resolveImage source).bind fun found => ?_
  refine (keeps_loadImage found.1).bind fun r => ?_
  dsimp only
  split
  · exact keeps_pure _
  · cases r.lookupClass name with
    | error e => exact keeps_throw _
    | ok c => exact keeps_pure _

/-- To serve the saving of an image keeps what the saving keeps. -/
theorem keeps_saveImage
    (hsaves : ∀ {s session now i saved}, P s → s.session = some session →
      session.saveImage now i = .ok saved → P { s with session := some saved.2 })
    (m : Moment) (data : Bytes) : Keeps P (saveImage m data) := by
  intro s hs
  rw [saveImage_apply]
  cases hsession : s.service.session with
  | none => exact hs
  | some session =>
    dsimp only
    split
    · exact hs
    · cases Image.unmarshal data with
      | error e => exact hs
      | ok i =>
        dsimp only
        rw [loadImage_apply]
        cases (Registry.empty.loadAll i.classList).outcome with
        | error e => exact hs
        | ok n =>
          cases hsaved : session.saveImage m.now i with
          | error e => exact hs
          | ok saved => exact hsaves hs hsession hsaved

theorem keeps_listRuns (limit : Int) : Keeps P (listRuns limit) := by
  refine keeps_needStore.bind fun session => ?_
  cases session.listRuns (if limit ≤ 0 then defaultLimit else limit) with
  | error e => exact keeps_throw _
  | ok runs => exact keeps_pure runs

theorem Stable.after (h : Stable P) {s : Service} (hs : P s) (request : Request) :
    P (s.after request) := by
  cases request with
  | saveImage m data => exact keeps_saveImage h.saved m data { service := s } hs
  | execute fuel m request => exact h.keeps_execute fuel m request { service := s } hs
  | disassemble source name => exact keeps_disassemble source name { service := s } hs
  | listRuns limit => exact keeps_listRuns limit { service := s } hs

theorem Stable.afterAll (h : Stable P) {s : Service} (hs : P s) (requests : List Request) :
    P (s.afterAll requests) := by
  induction requests generalizing s with
  | nil => exact hs
  | cons request rest ih => exact ih (h.after hs request)

end Keeps

end Service

end MiniJvm
