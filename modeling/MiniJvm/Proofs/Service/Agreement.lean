import Mathlib
import MiniJvm.Proofs.Machine.Evaluation
import MiniJvm.Proofs.Machine.Normal
import MiniJvm.Proofs.Service.Requests
import MiniJvm.Proofs.Service.PoolSafety
import MiniJvm.Proofs.Store.Content

/-!
# Local, remote and stored runs

A run comes out the same wherever its classes come from: from the definitions themselves, from an
image sent with the request, or from one that was stored before. An image loses nothing that a run
reads, and a stored image stays as it is, whatever the service is asked to do in between.
-/

namespace MiniJvm

/-- The record tells how the run ended. -/
structure RunRecord.Reports (r : RunRecord) (s : ExitStatus) : Prop where
  status : r.status = s.verdict.name
  faultKind : r.faultKind = (s.fault.map fun f => (f.kind.name : Bytes)).getD []
  fault : r.fault = (s.fault.map Fault.message).getD []
  result : r.result = s.result.getD 0
  hasResult : r.hasResult = s.result.isSome
  instructions : r.instructions = s.stats.instructions.toUInt64
  invocations : r.invocations = s.stats.invocations.toUInt64
  maxDepth : r.maxDepth = Int64.ofNat s.stats.maxDepth

theorem RunRecord.reports_ofStatus (image entry id : Bytes) (startedAt duration : Int64)
    (s : ExitStatus) :
    RunRecord.Reports { ofStatus image entry startedAt duration s with id } s :=
  ⟨rfl, rfl, rfl, rfl, rfl, rfl, rfl, rfl⟩

namespace Service

/-! ## Services that can serve -/

/-- A worker is free, and the store works. -/
structure Ready (s : Service) : Prop where
  workers : s.workers.Idle
  session : ∃ session, s.session = some session ∧ session.Working

theorem stable_ready : Stable Ready where
  worked {s} h job := ⟨(h.workers.unlogged.perform job).2, h.session⟩
  saved {s session now i saved} h hsession hsaved := by
    obtain ⟨other, hother, hworking⟩ := h.session
    cases hsession.symm.trans hother
    rw [Session.saved_eq hsaved]
    exact ⟨h.workers, _, rfl, hworking.isOpen, hworking.writable,
      hworking.addressed.saveImage now i⟩
  recorded {s session fresh r r' session'} h hsession hrecorded := by
    obtain ⟨other, hother, hworking⟩ := h.session
    cases hsession.symm.trans hother
    obtain ⟨store, rfl, hstore⟩ := Session.recorded_eq hrecorded
    refine ⟨h.workers, _, rfl, hworking.isOpen, hworking.writable, ?_⟩
    intro row hrow
    rw [Store.images_recordRun hstore] at hrow
    exact hworking.addressed row hrow

/-- The image under a digest is kept in these bytes. -/
def Holds (digest body : Bytes) (s : Service) : Prop :=
  ∃ session, s.session = some session ∧ session.store.Keeps digest body

theorem stable_holds (digest body : Bytes) : Stable (Holds digest body) where
  worked h _ := h
  saved {s session now i saved} h hsession hsaved := by
    obtain ⟨other, hother, hkeeps⟩ := h
    cases hsession.symm.trans hother
    rw [Session.saved_eq hsaved]
    exact ⟨_, rfl, hkeeps.saveImage now i⟩
  recorded {s session fresh r r' session'} h hsession hrecorded := by
    obtain ⟨other, hother, row, hrow, hbody⟩ := h
    cases hsession.symm.trans hother
    obtain ⟨store, rfl, hstore⟩ := Session.recorded_eq hrecorded
    exact ⟨_, rfl, row, by rw [Store.images_recordRun hstore]; exact hrow, hbody⟩

/-- A service with a working store that has served some requests. -/
def Reachable (s : Service) : Prop :=
  ∃ workers session requests, Session.Working session ∧
    s = (create workers (some session)).afterAll requests

theorem Reachable.ready {s : Service} (h : Reachable s) : Ready s := by
  obtain ⟨workers, session, requests, hsession, rfl⟩ := h
  exact stable_ready.afterAll ⟨WorkerPool.idle_create workers, session, rfl, hsession⟩ requests

/-- The name is free for a run. -/
def Unused (s : Service) (id : Bytes) : Prop :=
  ∀ session, s.session = some session → session.store.Unused id

/-- No stored image has the digest of these bytes but these bytes. -/
def Distinguishes (s : Service) (body : Bytes) : Prop :=
  ∀ session, s.session = some session → session.store.Distinguishes body

/-! ## Requests that are answered -/

theorem runJob_ended {fuel : Nat} {i : Image} {digest entry : Bytes} {request : ExecuteRequest}
    {started : Int64} {r : Registry} {st : ExitStatus} (hload : Registry.load i.classList = .ok r)
    (hrun : (r.execute fuel entry request.args request.trace).outcome = .ended st) :
    (runJob fuel i digest entry request started ()).1 =
      .value (.ofStatus digest entry started 0 st) := by
  obtain ⟨n, hout, rfl⟩ := Registry.loadAll_of_load hload
  unfold runJob
  dsimp only
  rw [hout]
  dsimp only
  rw [hrun]

theorem perform_ready {s : Serving} (hs : Ready s.service) {job : Job Refusal RunRecord}
    {r : RunRecord} (hjob : (job ()).1 = .value r) :
    ∃ t, perform job s = (.ok r, t) ∧ t.service = s.service.worked job := by
  rw [perform_apply, (hs.workers.unlogged.perform job).1, hjob]
  exact ⟨_, rfl, rfl⟩

theorem recordRun_ready {s : Serving} (hs : Ready s.service) {m : Moment} {r : RunRecord}
    (hr : r.id = []) (hfresh : s.service.Unused m.fresh) :
    ∃ t, recordRun m r s = (.ok { r with id := m.fresh }, t) := by
  obtain ⟨session, hsession, hworking⟩ := hs.session
  obtain ⟨store, hrecord⟩ := Store.recordRun_unused hr (hfresh session hsession)
  have hsaved : session.recordRun m.fresh r =
      .ok ({ r with id := m.fresh }, { session with store }) := by
    unfold Session.recordRun
    rw [hworking.check, hworking.checkWrite]
    change (session.store.recordRun m.fresh r >>= _) = _
    rw [hrecord]
    rfl
  rw [recordRun_apply, hsession]
  dsimp only
  rw [hsaved]
  exact ⟨_, rfl⟩

/-- A service that is ready answers with the record of the run. -/
theorem execute_ready {s : Service} (hs : Ready s) {fuel : Nat} {m : Moment}
    {request : ExecuteRequest} {i : Image} {digest entry : Bytes} {r : Registry} {st : ExitStatus}
    (hargs : request.args.length ≤ Cbor.maxElements)
    (hdigest : Utf8.valid request.source.digest = true) (hname : Utf8.valid request.entry = true)
    (hsource : resolveImage request.source { service := s } = (.ok (i, digest), { service := s }))
    (hentry : (if request.entry.isEmpty then i.entry else request.entry) = entry)
    (hne : entry ≠ []) (hload : Registry.load i.classList = .ok r)
    (hrun : (r.execute fuel entry request.args request.trace).outcome = .ended st)
    (hfresh : s.Unused m.fresh) :
    (s.serve (execute fuel m request)).1 =
      .ok { RunRecord.ofStatus digest entry m.now 0 st with id := m.fresh } := by
  change (execute fuel m request { service := s }).1 = _
  have htexts : [request.source.digest, request.entry].all Utf8.valid = true := by
    simp [hdigest, hname]
  have hfull : ¬entry.isEmpty = true := fun h => hne (List.isEmpty_iff.1 h)
  unfold execute
  dsimp only
  rw [if_neg (Nat.not_lt.2 hargs), bind_apply, checkTexts_apply, if_pos htexts]
  dsimp only
  rw [bind_apply, hsource]
  dsimp only
  rw [hentry, if_neg hfull, bind_apply]
  have hjob : (runJob fuel i digest entry request m.now ()).1 =
      .value (.ofStatus digest entry m.now 0 st) := runJob_ended hload hrun
  obtain ⟨t, hperform, ht⟩ := perform_ready (s := { service := s }) hs hjob
  rw [hperform]
  dsimp only
  have hready : Ready t.service := ht ▸ stable_ready.worked hs _
  obtain ⟨u, hrecord⟩ := recordRun_ready (r := .ofStatus digest entry m.now 0 st) (m := m) hready
    rfl (ht ▸ hfresh)
  rw [bind_apply, hrecord]
  rfl

/-! ## The three ways to run -/

/-- Whoever asks for this run, with the entry of the image or by its name, traced or not, is told
how it ended and the digest of its image. -/
def Answers (s : Service) (source : ImageSource) (entry : Bytes) (args : List Int32) (enough : Nat)
    (digest : Bytes) (st : ExitStatus) : Prop :=
  ∀ fuel m name trace, enough ≤ fuel → s.Unused m.fresh → name = [] ∨ name = entry →
    ∃ record, (s.serve (execute fuel m ⟨source, name, args, trace⟩)).1 = .ok record ∧
      record.image = digest ∧ record.Reports st

section Agreement

variable {i : Image} {r : Registry} {args : List Int32} {enough : Nat} {st : ExitStatus}

theorem load_normal (hload : Registry.load i.classList = .ok r) :
    Registry.load i.normal.classList = .ok r.normal := by
  rw [Image.classList_normal, Registry.load_normal, hload]
  rfl

/-- Where the source of a request gives what is kept of an image, the run is that of the image. -/
theorem answers_of_source {s : Service} (hs : Ready s) {source : ImageSource}
    (hsource : resolveImage source { service := s } =
      (.ok (i.normal, i.digest), { service := s }))
    (hdigest : Utf8.valid source.digest = true) (hentry : Utf8.valid i.entry = true)
    (hne : i.entry ≠ []) (hargs : args.length ≤ Cbor.maxElements)
    (hload : Registry.load i.classList = .ok r)
    (hrun : ∀ more, enough ≤ more → ∀ traced,
      (r.execute more i.entry args traced).outcome = .ended st) :
    s.Answers source i.entry args enough i.digest st := by
  intro fuel m name trace hfuel hfresh hname
  have hvalid : Utf8.valid name = true := by
    rcases hname with rfl | rfl
    · rfl
    · exact hentry
  have hchosen : (if name.isEmpty then i.normal.entry else name) = i.entry := by
    rcases hname with rfl | rfl
    · rfl
    · exact if_neg fun h => hne (List.isEmpty_iff.1 h)
  have hsame : (r.normal.execute fuel i.entry args trace).outcome = .ended st := by
    rw [Registry.execute_normal]
    exact hrun fuel hfuel trace
  have hanswer : (s.serve (execute fuel m ⟨source, name, args, trace⟩)).1 =
      .ok { RunRecord.ofStatus i.digest i.entry m.now 0 st with id := m.fresh } :=
    execute_ready hs hargs hdigest hvalid hsource hchosen hne (load_normal hload) hsame hfresh
  exact ⟨_, hanswer, rfl, RunRecord.reports_ofStatus ..⟩

theorem marshal_isEmpty (hi : i.Storable) : i.marshal.isEmpty = false := by
  cases hbytes : i.marshal with
  | nil =>
    have hread := Image.unmarshal_marshal hi
    rw [hbytes] at hread
    cases hread
  | cons b rest => rfl

theorem resolveImage_data (hi : i.Storable) (s : Serving) :
    resolveImage { data := i.marshal } s = (.ok (i.normal, i.digest), s) := by
  rw [resolveImage_apply]
  dsimp only
  rw [marshal_isEmpty hi, Image.unmarshal_marshal hi]
  dsimp only
  rw [Image.digest_normal]
  rfl

theorem resolveImage_digest (hi : i.Storable) {s : Service} (hs : Ready s)
    (hholds : s.Holds i.digest i.marshal) :
    resolveImage { digest := i.digest } { service := s } =
      (.ok (i.normal, i.digest), { service := s }) := by
  obtain ⟨session, hsession, hworking⟩ := hs.session
  obtain ⟨other, hother, hkeeps⟩ := hholds
  cases hsession.symm.trans hother
  have hfull : i.digest.isEmpty = false := by
    rw [← Bool.not_eq_true, List.isEmpty_iff]
    exact Digest.hex_ne_nil _
  have hloaded : session.loadImage i.digest = .ok i.normal := by
    rw [hworking.loadImage, Store.loadImage_of_keeps hkeeps hi]
  rw [resolveImage_apply]
  dsimp only
  rw [hfull, hsession]
  dsimp only
  rw [hloaded]
  rfl

/-- Saving an image that can be loaded succeeds, and the image is kept from then on. -/
theorem saveImage_ready (hi : i.Storable) (hload : Registry.load i.classList = .ok r)
    {s : Service} (hs : Ready s) (hone : s.Distinguishes i.marshal) (m : Moment) :
    (s.serve (saveImage m i.marshal)).1 = .ok ⟨i.digest, i.classList.length⟩ ∧
      (s.after (.saveImage m i.marshal)).Holds i.digest i.marshal := by
  obtain ⟨session, hsession, hworking⟩ := hs.session
  have hkeeps : (session.store.saveImage m.now i.normal).2.Keeps i.digest i.marshal := by
    have hkeeps := Store.keeps_saveImage (i := i.normal) hworking.addressed m.now
      (by rw [Image.marshal_normal]; exact hone session hsession)
    rwa [Image.digest_normal, Image.marshal_normal] at hkeeps
  obtain ⟨n, hout, -⟩ := Registry.loadAll_of_load (load_normal hload)
  have hclasses : i.normal.classList.length = i.classList.length := by
    rw [Image.classList_normal, List.length_map]
  have hserve : ∃ log, saveImage m i.marshal { service := s } =
      (.ok ⟨i.digest, i.classList.length⟩,
        { service := { s with
            session := some { session with store := (session.store.saveImage m.now i.normal).2 } }
          log }) := by
    rw [saveImage_apply]
    dsimp only
    rw [hsession]
    dsimp only
    rw [if_neg (by rw [marshal_isEmpty hi]; exact Bool.false_ne_true), Image.unmarshal_marshal hi]
    dsimp only
    rw [loadImage_apply, hout]
    dsimp only [Except.mapError, Except.map]
    rw [hworking.saveImage, Image.digest_normal]
    dsimp only
    rw [hclasses]
    exact ⟨_, rfl⟩
  obtain ⟨log, hserve⟩ := hserve
  refine ⟨?_, ?_⟩
  · change (saveImage m i.marshal { service := s }).1 = _
    rw [hserve]
  · change ((saveImage m i.marshal { service := s }).2.service).Holds _ _
    rw [hserve]
    exact ⟨_, rfl, hkeeps⟩

end Agreement

/-- A run of loaded classes ends on every service with a working store as it ends without one, and
the answer is the same for the image sent along and for the image saved before: status, fault,
result, counts and digest. It stays the same whatever else the service is asked to do, provided
that no stored image has the same digest by accident and that runs get names of their own. -/
theorem execute_agrees {defs : Option (List ClassDef)} {r : Registry} {entry : Bytes}
    {args : List Int32} {fuel : Nat} {trace : Bool} {st : ExitStatus}
    (hload : Registry.load (defs.getD []) = .ok r)
    (hstorable : (Image.ofClasses entry defs).Storable) (hne : entry ≠ [])
    (hargs : args.length ≤ Cbor.maxElements)
    (hrun : (r.execute fuel entry args trace).outcome = .ended st) :
    let i := Image.ofClasses entry defs
    ∃ enough, ∀ s, Reachable s →
      s.Answers { data := i.marshal } entry args enough i.digest st ∧
      (s.Distinguishes i.marshal → ∀ m,
        (∃ saved, (s.serve (saveImage m i.marshal)).1 = .ok saved ∧ saved.digest = i.digest) ∧
        ∀ requests, ((s.after (.saveImage m i.marshal)).afterAll requests).Answers
          { digest := i.digest } entry args enough i.digest st) := by
  intro i
  obtain ⟨enough, hmore⟩ := Registry.execute_eventually hrun nofun
  refine ⟨enough, fun s hs => ⟨?_, fun hone m => ?_⟩⟩
  · exact answers_of_source hs.ready (resolveImage_data hstorable _) rfl hstorable.entry.1 hne hargs
      hload hmore
  · obtain ⟨hsaved, hholds⟩ := saveImage_ready hstorable hload hs.ready hone m
    refine ⟨⟨_, hsaved, rfl⟩, fun requests => ?_⟩
    have hready := stable_ready.afterAll (stable_ready.after hs.ready (.saveImage m i.marshal))
      requests
    have hkept := (stable_holds i.digest i.marshal).afterAll hholds requests
    exact answers_of_source hready (resolveImage_digest hstorable hready hkept)
      (Digest.valid_hex _) hstorable.entry.1 hne hargs hload hmore

/-- A class with a method that adds one, and with a constant that changes when it is stored. -/
def successor : List ClassDef :=
  [{ name := "A"
     pool := some [.placeholder, .double ⟨0x8000000000000000⟩]
     methods := some [⟨"f", "(I)I", 2, 1,
       some [.plain .iload0, .plain .iconst1, .plain .iadd, .plain .ireturn]⟩] }]

/-- A service with one worker and an empty store. -/
def newcomer : Service := create 1 (some (.inMemory "runs.db"))

theorem execute_agrees_successor :
    let i := Image.ofClasses "A.f:(I)I" (some successor)
    let st : ExitStatus := { fault := none, result := some 42, stats := ⟨4, 0, 1⟩ }
    i.normal ≠ i ∧ Reachable newcomer ∧ ∃ enough,
      newcomer.Answers { data := i.marshal } "A.f:(I)I" [41] enough i.digest st ∧
      ∀ m requests, ((newcomer.after (.saveImage m i.marshal)).afterAll requests).Answers
        { digest := i.digest } "A.f:(I)I" [41] enough i.digest st := by
  have hchecked : ∃ r ∈ (Registry.load successor).toOption,
      (r.execute 5 "A.f:(I)I" [41] false).outcome =
        .ended { fault := none, result := some 42, stats := ⟨4, 0, 1⟩ } := by
    decide +kernel
  obtain ⟨r, hload, hrun⟩ := hchecked
  have hstorable : (Image.ofClasses "A.f:(I)I" (some successor)).Storable := by decide +kernel
  have hreachable : Reachable newcomer :=
    ⟨1, .inMemory "runs.db", [], Session.working_inMemory _, rfl⟩
  have hloaded : Registry.load ((some successor).getD []) = .ok r := eq_ok_of_mem_toOption hload
  have hargs : ([41] : List Int32).length ≤ Cbor.maxElements := by decide
  obtain ⟨enough, hagrees⟩ := execute_agrees hloaded hstorable (by decide +kernel) hargs hrun
  obtain ⟨hinline, hsaved⟩ := hagrees newcomer hreachable
  have hone : newcomer.Distinguishes (Image.ofClasses "A.f:(I)I" (some successor)).marshal := by
    intro session hsession
    cases hsession
    exact nofun
  exact ⟨by decide +kernel, hreachable, enough, hinline, fun m => (hsaved hone m).2⟩

end Service

end MiniJvm
