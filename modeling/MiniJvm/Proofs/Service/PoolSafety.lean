import Mathlib
import MiniJvm.Proofs.Service.Interleaving
import MiniJvm.Service.Workers

/-!
# Safety of worker pools

Three invariants hold of every reachable pool: what calls have returned (`Replied`), how workers
leave (`Staffed`) and where the job of each call is (`Tracked`). Each is kept by every move, and
together they say that a pool is `Safe` (`safe_of_reachable`); a fourth one, `Shut`, holds from the
return of a stop on.

A pool that is not told to stop, with a free worker and an empty queue, does the job of a call to
its end, and is free again afterwards. The call is the last one of the pool, and the first worker
does its job.
-/

namespace MiniJvm.WorkerPool

variable {ε α : Type}

/-! ## The events of one call -/

section Events

variable {p : WorkerPool ε α} {calls : List (Call ε α)} {c : Call ε α}
  {rest : List (Worker ε α)} {e : Ending ε α}

theorem play_cons {q : WorkerPool ε α} {event : PoolEvent ε α} (h : p.step event = some q)
    (events : List (PoolEvent ε α)) : p.play (event :: events) = q.play events := by
  rw [play, List.foldl_cons, h]
  rfl

theorem set_last (calls : List (Call ε α)) (c c' : Call ε α) :
    (calls ++ [c]).set calls.length c' = calls ++ [c'] := by
  rw [List.set_append_right _ _ (Nat.le_refl _), Nat.sub_self]
  rfl

theorem step_submit (hcalls : p.calls = calls ++ [c]) (hphase : c.phase = .submitting)
    (hqueue : p.queue = []) :
    p.step (.submit calls.length) = some { p with
      calls := calls ++ [{ c with phase := .waiting }], queue := [calls.length] } := by
  have hroom : (0 : Nat) < capacity := by decide
  simp only [step, stepCall, setCall, Call.isOpen, Call.isSubmitting, hcalls, hphase, hqueue,
    List.getElem?_concat_length, set_last, Option.bind_some, Bool.true_or, Bool.true_and,
    List.length_nil, hroom, decide_true, if_true, List.nil_append]

theorem step_take {call : Nat} (hqueue : p.queue = [call]) (hworkers : p.workers = .idle :: rest) :
    p.step (.take 0) = some { p with
      queue := [], workers := .running call :: rest, started := p.started ++ [call] } := by
  simp only [step, stepWorker, setWorker, hqueue, hworkers, List.getElem?_cons_zero,
    Option.bind_some, List.set_cons_zero]

theorem step_finish (hcalls : p.calls = calls ++ [c])
    (hworkers : p.workers = .running calls.length :: rest) :
    p.step (.finish 0) = some { p with
      workers := .delivering calls.length (c.job ()).1 :: rest
      log := p.log ++ (c.job ()).2 ++ (c.job ()).1.recovered } := by
  simp only [step, stepWorker, setWorker, hcalls, hworkers, List.getElem?_concat_length,
    List.getElem?_cons_zero, Option.bind_some, Option.map_some, List.set_cons_zero]

theorem step_deliver (hcalls : p.calls = calls ++ [c]) (hslot : c.slot = none)
    (hworkers : p.workers = .delivering calls.length e :: rest) :
    p.step (.deliver 0) = some { p with
      calls := calls ++ [{ c with slot := some e }], workers := .idle :: rest } := by
  simp only [step, stepWorker, setWorker, setCall, hcalls, hworkers, hslot,
    List.getElem?_concat_length, set_last, List.getElem?_cons_zero, Option.bind_some,
    Option.isNone_none, if_true, List.set_cons_zero]

theorem step_receive (hcalls : p.calls = calls ++ [c]) (hphase : c.phase = .waiting)
    (hslot : c.slot = some e) :
    p.step (.receive calls.length) = some { p with
      calls := calls ++ [{ c with phase := .returned (.ended e), slot := none }] } := by
  simp only [step, stepCall, setCall, Call.returns, Call.isOpen, Call.isWaiting, hcalls, hphase,
    hslot, List.getElem?_concat_length, set_last, Option.bind_some, Bool.or_true, if_true]

end Events

/-! ## Idle pools -/

/-- The pool takes jobs, and its first worker is free. -/
structure Idle (p : WorkerPool ε α) : Prop where
  live : p.quit = false
  queue : p.queue = []
  first : p.workers.head? = some .idle

theorem idle_create (n : Int) : (create n : WorkerPool ε α).Idle := by
  refine ⟨rfl, rfl, ?_⟩
  have hone : max n.toNat 1 ≠ 0 := by omega
  simp [create, List.head?_replicate, hone]

/-- What was said before does not count. -/
theorem Idle.unlogged {p : WorkerPool ε α} (h : p.Idle) : Idle { p with log := [] } :=
  ⟨h.live, h.queue, h.first⟩

theorem Idle.perform {p : WorkerPool ε α} (h : p.Idle) (job : Job ε α) :
    (p.perform job).1 = some (.ended (job ()).1) ∧ (p.perform job).2.Idle := by
  obtain ⟨calls, queue, workers, quit, started, stopping, stopped, log⟩ := p
  obtain ⟨rfl, rfl, hfirst⟩ := h
  obtain ⟨rest, rfl⟩ : ∃ rest, workers = .idle :: rest := by
    cases workers with
    | nil => cases hfirst
    | cons w rest => exact ⟨rest, by rw [Option.some.inj hfirst]⟩
  have hplay : (WorkerPool.mk calls [] (.idle :: rest) false started stopping stopped log).play
      [.call job, .submit calls.length, .take 0, .finish 0, .deliver 0, .receive calls.length] =
      { calls := calls ++ [{ job, phase := .returned (.ended (job ()).1) }], queue := []
        workers := .idle :: rest, quit := false, started := started ++ [calls.length]
        stopping, stopped, log := log ++ (job ()).2 ++ (job ()).1.recovered } := by
    refine Eq.trans (play_cons rfl _) ?_
    refine Eq.trans (play_cons (step_submit rfl rfl rfl) _) ?_
    refine Eq.trans (play_cons (step_take rfl rfl) _) ?_
    refine Eq.trans (play_cons (step_finish rfl rfl) _) ?_
    refine Eq.trans (play_cons (step_deliver rfl rfl rfl) _) ?_
    refine Eq.trans (play_cons (step_receive rfl rfl rfl) _) ?_
    rfl
  have hperform :
      (WorkerPool.mk calls [] (.idle :: rest) false started stopping stopped log).perform job =
      replyAfter (.mk calls [] (.idle :: rest) false started stopping stopped log) calls.length
        [.call job, .submit calls.length, .take 0, .finish 0, .deliver 0,
          .receive calls.length] := rfl
  rw [hperform, replyAfter, hplay]
  refine ⟨?_, rfl, rfl, rfl⟩
  dsimp only
  rw [List.getElem?_concat_length]
  rfl

end MiniJvm.WorkerPool

/-! ## Safety of worker pools -/

namespace MiniJvm

namespace WorkerPool

variable {ε α : Type} {p q : WorkerPool ε α} {i j w : Nat} {c c' : Call ε α}

/-! ## Replies -/

/-- A call that returned without an ending had a reason: its own context was over, or the pool was
told to stop. -/
structure Excused (quit : Bool) (c : Call ε α) : Prop where
  context : ∀ why, c.reply? = some (.contextOver why) → c.context = some why
  stopped : c.reply? = some .stopped → quit = true

def Replied (p : WorkerPool ε α) : Prop := ∀ c ∈ p.calls, Excused p.quit c

theorem excused_open {quit : Bool} (hopen : c.reply? = none) : Excused quit c := by
  constructor <;> simp [hopen]

theorem Replied.setCall (h : p.Replied) (hc : Excused p.quit c) : (p.setCall i c).Replied := by
  intro d hd
  rcases List.mem_or_eq_of_mem_set hd with hd | rfl
  · exact h d hd
  · exact hc

theorem Replied.step (h : p.Replied) (hstep : Step p q) : q.Replied := by
  obtain ⟨e, hmoves⟩ := hstep.moves
  cases hmoves with
  | call job =>
    intro d hd
    rcases List.mem_append.1 hd with hd | hd
    · exact h d hd
    · rw [List.mem_singleton.1 hd]
      exact excused_open rfl
  | contextEnds _ _ hopen _ => exact h.setCall (excused_open hopen)
  | @submit i c _ _ _ =>
    exact h.setCall (i := i) (c := { c with phase := .waiting }) (excused_open rfl)
  | receive _ _ _ => exact h.setCall ⟨nofun, nofun⟩
  | abandon _ _ hcontext =>
    refine h.setCall ⟨fun why hwhy => ?_, nofun⟩
    cases hwhy
    exact hcontext
  | refuse _ _ hquit => exact h.setCall ⟨nofun, fun _ => hquit⟩
  | @deliver w i e c _ hc _ =>
    have hd := h c (List.mem_of_getElem? hc)
    exact h.setCall (i := i) (c := { c with slot := some e }) ⟨hd.context, hd.stopped⟩
  | take | finish | leave | join => exact h
  | stop => exact fun d hd => ⟨(h d hd).context, fun _ => rfl⟩

/-! ## Workers -/

/-- The workers are those the pool was made with, and they leave because it was told to stop. -/
structure Staffed (n : Int) (p : WorkerPool ε α) : Prop where
  size : p.workers.length = max n.toNat 1
  gone : .gone ∈ p.workers → p.quit = true
  stopping : 0 < p.stopping → p.quit = true
  stopped : 0 < p.stopped → p.quit = true ∧ ∀ s ∈ p.workers, s = .gone

variable {n : Int}

theorem staffed_create (n : Int) : Staffed n (create n : WorkerPool ε α) where
  size := List.length_replicate
  gone h := absurd (List.eq_of_mem_replicate h) nofun
  stopping h := absurd h (Nat.lt_irrefl 0)
  stopped h := absurd h (Nat.lt_irrefl 0)

theorem Staffed.setWorker {s s' : Worker ε α} (h : Staffed n p) (hw : p.workers[w]? = some s)
    (hs : s ≠ .gone) (hs' : s' = .gone → p.quit = true) : Staffed n (p.setWorker w s') where
  size := List.length_set.trans h.size
  gone hgone := by
    rcases List.mem_or_eq_of_mem_set hgone with hgone | hgone
    · exact h.gone hgone
    · exact hs' hgone.symm
  stopping := h.stopping
  stopped hstopped := absurd ((h.stopped hstopped).2 s (List.mem_of_getElem? hw)) hs

theorem Staffed.step (h : Staffed n p) (hstep : Step p q) : Staffed n q := by
  obtain ⟨e, hmoves⟩ := hstep.moves
  cases hmoves with
  | call | contextEnds | submit | receive | abandon | refuse =>
    exact ⟨h.size, h.gone, h.stopping, h.stopped⟩
  | @take _ i _ hw _ =>
    have h' : Staffed n (p.setWorker _ (.running i)) := h.setWorker hw nofun nofun
    exact ⟨h'.size, h'.gone, h'.stopping, h'.stopped⟩
  | @finish _ i c hw _ =>
    have h' : Staffed n (p.setWorker _ (.delivering i (c.job ()).1)) :=
      h.setWorker hw nofun nofun
    exact ⟨h'.size, h'.gone, h'.stopping, h'.stopped⟩
  | deliver hw _ _ =>
    have h' : Staffed n (p.setWorker _ .idle) := h.setWorker hw nofun nofun
    exact ⟨h'.size, h'.gone, h'.stopping, h'.stopped⟩
  | leave hw hquit => exact h.setWorker hw nofun fun _ => hquit
  | stop => exact ⟨h.size, fun _ => rfl, fun _ => rfl, fun hs => ⟨rfl, (h.stopped hs).2⟩⟩
  | join hstopping hgone =>
    have hquit := h.stopping hstopping
    exact ⟨h.size, h.gone, fun _ => hquit, fun _ => ⟨hquit, hgone⟩⟩

/-! ## Jobs -/

/-- Where the jobs are. A job that was started is no longer in the queue, is with one worker at
most, and once its ending has come to its call it is with none. -/
structure Tracked (p : WorkerPool ε α) : Prop where
  once : (p.started ++ p.queue).Nodup
  submitted : ∀ i ∈ p.started ++ p.queue, ∃ c, p.calls[i]? = some c ∧ c.phase ≠ .submitting
  begun : ∀ {w i : Nat}, p.Holds w i → i ∈ p.started
  apart : ∀ {w w' i : Nat}, p.Holds w i → p.Holds w' i → w = w'
  ending : ∀ {w i : Nat} {e : Ending ε α}, p.workers[w]? = some (.delivering i e) →
    ∃ c : Call ε α, p.calls[i]? = some c ∧ e = (c.job ()).1
  arrived : ∀ {i : Nat} {c : Call ε α} {e : Ending ε α}, p.calls[i]? = some c → c.Has e →
    e = (c.job ()).1 ∧ i ∈ p.started ∧ ∀ w, ¬p.Holds w i

theorem not_holds_create (n : Int) : ¬(create n : WorkerPool ε α).Holds w i := by
  rintro ⟨s, hs, hcall⟩
  rw [List.eq_of_mem_replicate (List.mem_of_getElem? hs)] at hcall
  cases hcall

theorem tracked_create (n : Int) : (create n : WorkerPool ε α).Tracked where
  once := List.nodup_nil
  submitted := nofun
  begun h := absurd h (not_holds_create n)
  apart h := absurd h (not_holds_create n)
  ending h := nomatch List.eq_of_mem_replicate (List.mem_of_getElem? h)
  arrived := nofun

/-- The jobs are where they were, as far as they are concerned. -/
theorem Tracked.of_eq (h : p.Tracked) (hcalls : q.calls = p.calls) (hqueue : q.queue = p.queue)
    (hworkers : q.workers = p.workers) (hstarted : q.started = p.started) : q.Tracked := by
  obtain ⟨calls, queue, workers, quit, started, stopping, stopped, log⟩ := q
  cases hcalls
  cases hqueue
  cases hworkers
  cases hstarted
  exact ⟨h.once, h.submitted, h.begun, h.apart, h.ending, h.arrived⟩

/-- A call with the same job that is no further back and got no ending. -/
theorem Tracked.setCall (h : p.Tracked) (hc : p.calls[i]? = some c) (hjob : c'.job = c.job)
    (hphase : c.phase ≠ .submitting → c'.phase ≠ .submitting) (hhas : ∀ {e}, c'.Has e → c.Has e) :
    (p.setCall i c').Tracked where
  once := h.once
  submitted j hj := exists_setCall hc hphase (h.submitted j hj)
  begun := h.begun
  apart := h.apart
  ending hw := exists_setCall hc (fun he => hjob ▸ he) (h.ending hw)
  arrived {j d e} hd hhasd := by
    rw [getElem?_setCall hc] at hd
    split at hd
    · subst i
      cases hd
      rw [hjob]
      exact h.arrived hc (hhas hhasd)
    · exact h.arrived hd hhasd

theorem getElem?_call {new : Call ε α} : (p.calls ++ [new])[i]? = some c ↔
    p.calls[i]? = some c ∨ i = p.calls.length ∧ c = new := by
  rcases Nat.lt_trichotomy i p.calls.length with hlt | rfl | hgt
  · rw [List.getElem?_append_left hlt]
    simp [Nat.ne_of_lt hlt]
  · simp [eq_comm]
  · rw [List.getElem?_eq_none (by simp; omega), List.getElem?_eq_none (Nat.le_of_lt hgt)]
    simp [Nat.ne_of_gt hgt]

theorem Tracked.call (h : p.Tracked) (job : Job ε α) :
    ({ p with calls := p.calls ++ [{ job }] } : WorkerPool ε α).Tracked where
  once := h.once
  submitted i hi := by
    obtain ⟨c, hc, hphase⟩ := h.submitted i hi
    exact ⟨c, getElem?_call.2 (.inl hc), hphase⟩
  begun := h.begun
  apart := h.apart
  ending hw := by
    obtain ⟨c, hc, he⟩ := h.ending hw
    exact ⟨c, getElem?_call.2 (.inl hc), he⟩
  arrived hc hhas := by
    rcases getElem?_call.1 hc with hc | ⟨-, rfl⟩
    · exact h.arrived hc hhas
    · exact absurd hhas Call.not_has_new

theorem Tracked.enqueue (h : p.Tracked) (hc : p.calls[i]? = some c)
    (hphase : c.phase ≠ .submitting) (hnew : i ∉ p.started ++ p.queue) :
    ({ p with queue := p.queue ++ [i] } : WorkerPool ε α).Tracked where
  once := by
    rw [← List.append_assoc, ← List.concat_eq_append]
    exact h.once.concat hnew
  submitted j hj := by
    rw [← List.append_assoc, List.mem_append, List.mem_singleton] at hj
    rcases hj with hj | rfl
    · exact h.submitted j hj
    · exact ⟨c, hc, hphase⟩
  begun := h.begun
  apart := h.apart
  ending := h.ending
  arrived := h.arrived

/-- A worker that goes on with the same job, or with none. -/
theorem Tracked.setWorker {s s' : Worker ε α} (h : p.Tracked) (hw : p.workers[w]? = some s)
    (hcall : s'.call? = s.call?)
    (hending : ∀ {i e}, s' = .delivering i e → ∃ c, p.calls[i]? = some c ∧ e = (c.job ()).1) :
    (p.setWorker w s').Tracked := by
  have hholds {w' j : Nat} : (p.setWorker w s').Holds w' j ↔ p.Holds w' j := by
    rw [holds_setWorker hw]
    split
    · subst w
      simp [Holds, hw, hcall]
    · rfl
  constructor
  · exact h.once
  · exact h.submitted
  · exact fun hj => h.begun (hholds.1 hj)
  · exact fun hj hj' => h.apart (hholds.1 hj) (hholds.1 hj')
  · intro w' j e hw'
    rw [getElem?_setWorker hw] at hw'
    split at hw'
    · exact hending (Option.some.inj hw')
    · exact h.ending hw'
  · intro j d e hd hhas
    obtain ⟨he, hstarted, hnone⟩ := h.arrived hd hhas
    exact ⟨he, hstarted, fun w' hw' => hnone w' (hholds.1 hw')⟩

/-- The oldest job of the queue goes to a free worker. -/
theorem Tracked.take {rest : List Nat} (h : p.Tracked) (hw : p.workers[w]? = some .idle)
    (hqueue : p.queue = i :: rest) :
    ({ p.setWorker w (.running i) with queue := rest, started := p.started ++ [i] } :
      WorkerPool ε α).Tracked := by
  have hlist : (p.started ++ [i]) ++ rest = p.started ++ p.queue := by
    rw [hqueue, List.append_assoc, List.singleton_append]
  have hfresh : i ∉ p.started := by
    have honce := h.once
    rw [hqueue] at honce
    exact fun hi => (List.nodup_append.1 honce).2.2 i hi i List.mem_cons_self rfl
  have hholds {w' j : Nat} : (p.setWorker w (.running i)).Holds w' j ↔
      w = w' ∧ i = j ∨ w ≠ w' ∧ p.Holds w' j := by
    rw [holds_setWorker hw]
    split <;> simp_all [Worker.call?]
  constructor
  · exact hlist ▸ h.once
  · exact fun j hj => h.submitted j (hlist ▸ hj)
  · intro w' j hj
    rcases hholds.1 hj with ⟨-, rfl⟩ | ⟨-, hj⟩
    · exact List.mem_append_right _ (List.mem_singleton_self i)
    · exact List.mem_append_left _ (h.begun hj)
  · intro w₁ w₂ j hj hj'
    rcases hholds.1 hj with ⟨rfl, rfl⟩ | ⟨-, hj⟩ <;> rcases hholds.1 hj' with ⟨rfl, hij⟩ | ⟨-, hj'⟩
    · rfl
    · exact absurd (h.begun hj') hfresh
    · exact absurd (h.begun hj) (hij ▸ hfresh)
    · exact h.apart hj hj'
  · intro w' j e hw'
    rw [getElem?_setWorker hw] at hw'
    split at hw'
    · cases hw'
    · exact h.ending hw'
  · intro j d e hd hhas
    obtain ⟨he, hstarted, hnone⟩ := h.arrived hd hhas
    refine ⟨he, List.mem_append_left _ hstarted, fun w' hw' => ?_⟩
    rcases hholds.1 hw' with ⟨-, rfl⟩ | ⟨-, hw'⟩
    · exact hfresh hstarted
    · exact hnone w' hw'

/-- An ending comes to its call, and the worker is free. -/
theorem Tracked.deliver {e : Ending ε α} (h : p.Tracked)
    (hw : p.workers[w]? = some (.delivering i e)) (hc : p.calls[i]? = some c) :
    ((p.setCall i { c with slot := some e }).setWorker w .idle).Tracked := by
  have hi : p.Holds w i := ⟨_, hw, rfl⟩
  have hholds {w' j : Nat} :
      ((p.setCall i { c with slot := some e }).setWorker w .idle).Holds w' j ↔
        w ≠ w' ∧ p.Holds w' j := by
    rw [holds_setWorker (p := p.setCall i { c with slot := some e }) hw]
    split <;> simp_all [Worker.call?, Holds, WorkerPool.setCall]
  have hown : e = (c.job ()).1 := by
    obtain ⟨d, hd, he⟩ := h.ending hw
    cases hc.symm.trans hd
    exact he
  constructor
  · exact h.once
  · exact fun j hj => exists_setCall hc id (h.submitted j hj)
  · exact fun hj => h.begun (hholds.1 hj).2
  · exact fun hj hj' => h.apart (hholds.1 hj).2 (hholds.1 hj').2
  · intro w' j e' hw'
    rw [getElem?_setWorker (p := p.setCall i { c with slot := some e }) hw] at hw'
    split at hw'
    · cases hw'
    · exact exists_setCall hc id (h.ending hw')
  · intro j d e' hd hhas
    change (p.setCall i { c with slot := some e }).calls[j]? = some d at hd
    rw [getElem?_setCall hc] at hd
    split at hd
    · subst i
      cases hd
      refine ⟨?_, h.begun hi, fun w' hw' => (hholds.1 hw').1 (h.apart hi (hholds.1 hw').2)⟩
      rcases hhas with hslot | hphase
      · cases hslot
        exact hown
      · exact (h.arrived hc (.inr hphase)).1
    · obtain ⟨he, hstarted, hnone⟩ := h.arrived hd hhas
      exact ⟨he, hstarted, fun w' hw' => hnone w' (hholds.1 hw').2⟩

theorem Tracked.step (h : p.Tracked) (hstep : Step p q) : q.Tracked := by
  obtain ⟨e, hmoves⟩ := hstep.moves
  cases hmoves with
  | call job => exact h.call job
  | contextEnds _ hc _ _ => exact h.setCall hc rfl id id
  | @submit i c hc hphase _ =>
    have hnew : i ∉ p.started ++ p.queue := by
      intro hi
      obtain ⟨d, hd, hphased⟩ := h.submitted i hi
      cases hc.symm.trans hd
      exact hphased hphase
    have hwaits : (p.setCall i { c with phase := .waiting }).Tracked :=
      h.setCall hc rfl (fun _ => nofun) Call.Has.of_waiting
    refine hwaits.enqueue (c := { c with phase := .waiting }) ?_ nofun hnew
    rw [getElem?_setCall hc, if_pos rfl]
  | receive hc _ hslot => exact h.setCall hc rfl (fun _ => nofun) (Call.Has.of_received hslot)
  | abandon hc _ _ | refuse hc _ _ =>
    exact h.setCall hc rfl (fun _ => nofun) (Call.Has.of_returns nofun)
  | take hw hqueue => exact h.take hw hqueue
  | @finish w i c hw hc =>
    have hdone : (p.setWorker w (.delivering i (c.job ()).1)).Tracked := by
      refine h.setWorker hw rfl fun hs => ?_
      cases hs
      exact ⟨c, hc, rfl⟩
    exact hdone.of_eq rfl rfl rfl rfl
  | deliver hw hc _ => exact h.deliver hw hc
  | leave hw _ => exact h.setWorker hw rfl nofun
  | stop | join => exact h.of_eq rfl rfl rfl rfl

theorem jobs_setCall (hc : p.calls[i]? = some c) (hjob : c'.job = c.job) :
    p.calls.map Call.job <+: (p.setCall i c').calls.map Call.job := by
  have hsame : (p.setCall i c').calls.map Call.job = p.calls.map Call.job := by
    refine List.ext_getElem? fun j => ?_
    rw [List.getElem?_map, List.getElem?_map, getElem?_setCall hc]
    split
    · subst i
      rw [hc, Option.map_some, Option.map_some, hjob]
    · rfl
  rw [hsame]

/-- A call keeps the job that it was made with. -/
theorem Step.jobs (hstep : Step p q) : p.calls.map Call.job <+: q.calls.map Call.job := by
  obtain ⟨e, hmoves⟩ := hstep.moves
  cases hmoves with
  | call job =>
    rw [List.map_append]
    exact List.prefix_append _ _
  | contextEnds _ hc _ _ | receive hc _ _ | abandon hc _ _ | refuse hc _ _ =>
    exact jobs_setCall hc rfl
  | @submit i c hc _ _ =>
    have h : _ <+: (p.setCall i { c with phase := .waiting }).calls.map _ := jobs_setCall hc rfl
    exact h
  | @deliver w i e c _ hc _ =>
    have h : _ <+: (p.setCall i { c with slot := some e }).calls.map _ := jobs_setCall hc rfl
    exact h
  | take | finish | leave | stop | join => exact List.prefix_refl _

theorem Later.jobs (h : Later p q) : p.calls.map Call.job <+: q.calls.map Call.job := by
  induction h with
  | refl => exact List.prefix_refl _
  | tail _ hlast ih => exact ih.trans hlast.jobs

/-! ## Stopped pools -/

/-- The pool has stopped: no worker is left. Since then it has started no job, and calls from the
number `made` on have got no endings. -/
structure Shut (started : List Nat) (made : Nat) (p : WorkerPool ε α) : Prop where
  quit : p.quit = true
  gone : ∀ s ∈ p.workers, s = .gone
  started : p.started = started
  unserved : ∀ {i : Nat} {c : Call ε α} {e : Ending ε α}, made ≤ i → p.calls[i]? = some c →
    ¬c.Has e

variable {started : List Nat} {made : Nat}

theorem Shut.setCall (h : Shut started made p) (hc : p.calls[i]? = some c)
    (hhas : ∀ {e}, c'.Has e → c.Has e) : Shut started made (p.setCall i c') where
  quit := h.quit
  gone := h.gone
  started := h.started
  unserved hle hd hhasd := by
    rw [getElem?_setCall hc] at hd
    split at hd
    · subst i
      cases hd
      exact h.unserved hle hc (hhas hhasd)
    · exact h.unserved hle hd hhasd

theorem Shut.not_worker {s : Worker ε α} (h : Shut started made p) (hw : p.workers[w]? = some s) :
    s = .gone :=
  h.gone s (List.mem_of_getElem? hw)

theorem Shut.step (h : Shut started made p) (hstep : Step p q) : Shut started made q := by
  obtain ⟨e, hmoves⟩ := hstep.moves
  cases hmoves with
  | call job =>
    refine ⟨h.quit, h.gone, h.started, fun hle hd => ?_⟩
    rcases getElem?_call.1 hd with hd | ⟨-, rfl⟩
    · exact h.unserved hle hd
    · exact Call.not_has_new
  | contextEnds _ hc _ _ => exact h.setCall hc id
  | @submit i c hc _ _ =>
    have h' : Shut started made (p.setCall i { c with phase := .waiting }) :=
      h.setCall hc Call.Has.of_waiting
    exact ⟨h'.quit, h'.gone, h'.started, h'.unserved⟩
  | receive hc _ hslot => exact h.setCall hc (Call.Has.of_received hslot)
  | abandon hc _ _ | refuse hc _ _ => exact h.setCall hc (Call.Has.of_returns nofun)
  | take hw _ | finish hw _ | deliver hw _ _ | leave hw _ => cases h.not_worker hw
  | stop => exact ⟨rfl, h.gone, h.started, h.unserved⟩
  | join => exact ⟨h.quit, h.gone, h.started, h.unserved⟩

/-! ## Safety -/

/-- What has become of a pool that had stopped before. -/
structure StillStopped (p q : WorkerPool ε α) : Prop where
  /-- No job was started. -/
  started : q.started = p.started
  /-- No job is running. -/
  gone : ∀ s ∈ q.workers, s = .gone
  /-- A call that was made since returns because the pool has stopped or its own context is over. -/
  replies : ∀ {i : Nat} {c : Call ε α} {r : Reply ε α}, p.calls.length ≤ i →
    q.calls[i]? = some c → c.reply? = some r →
    r = .stopped ∨ ∃ why, r = .contextOver why ∧ c.context = some why
  /-- Nothing can keep it from returning. -/
  returns : ∀ {i : Nat} {c : Call ε α}, q.calls[i]? = some c → c.reply? = none →
    ∃ q', q.step (.refuse i) = some q' ∧ q'.calls[i]? = some (c.returns .stopped)

/-- What holds of a pool that was asked for `n` workers. -/
structure Safe (n : Int) (p : WorkerPool ε α) : Prop where
  /-- A job is started once at most. -/
  startedOnce : p.started.Nodup
  /-- A worker has a job that was started, and no two workers have the same. -/
  apart : ∀ {w i : Nat}, p.Holds w i → i ∈ p.started ∧ ∀ w', p.Holds w' i → w = w'
  /-- A call that returns an ending returns that of its own job, which was run once to its end. -/
  ended : ∀ {i : Nat} {c : Call ε α} {e : Ending ε α}, p.calls[i]? = some c →
    c.reply? = some (.ended e) →
    e = (c.job ()).1 ∧ p.started.count i = 1 ∧ ∀ w, ¬p.Holds w i
  /-- Any other reply has its reason. -/
  otherwise : ∀ {i : Nat} {c : Call ε α} {r : Reply ε α}, p.calls[i]? = some c →
    c.reply? = some r → (∃ e, r = .ended e) ∨ (r = .stopped ∧ p.quit = true) ∨
      ∃ why, r = .contextOver why ∧ c.context = some why
  /-- Only the ending of its own job comes to a call. -/
  delivered : ∀ {i : Nat} {c : Call ε α} {e : Ending ε α}, p.calls[i]? = some c →
    c.slot = some e → e = (c.job ()).1
  /-- A call keeps the job that it was made with. -/
  jobs : ∀ q, Later p q → p.calls.map Call.job <+: q.calls.map Call.job
  /-- There are not more jobs running than workers. -/
  bounded : (p.workers.countP Worker.isRunning : Int) ≤ max n 1
  /-- A job can end however it comes out, also by breaking down, and its worker stays. -/
  finishes : ∀ {w i : Nat}, p.workers[w]? = some (.running i) → ∃ c q, p.calls[i]? = some c ∧
    p.step (.finish w) = some q ∧ q.workers[w]? = some (.delivering i (c.job ()).1)
  /-- A worker can always deliver an ending, whatever its call does, and is free then. -/
  delivers : ∀ {w i : Nat} {e : Ending ε α}, p.workers[w]? = some (.delivering i e) →
    ∃ q, p.step (.deliver w) = some q ∧ q.workers[w]? = some .idle
  /-- Workers leave only when the pool is told to stop. -/
  leaves : .gone ∈ p.workers → p.quit = true
  /-- Once a stop has returned, the pool stays stopped. -/
  stopped : 0 < p.stopped → ∀ q, Later p q → StillStopped p q

theorem replied_of_reachable (h : Reachable n p) : p.Replied :=
  Later.preserves h Replied.step nofun

theorem staffed_of_reachable (h : Reachable n p) : Staffed n p :=
  Later.preserves h Staffed.step (staffed_create n)

theorem tracked_of_reachable (h : Reachable n p) : p.Tracked :=
  Later.preserves h Tracked.step (tracked_create n)

theorem stillStopped (h : Reachable n p) (hstopped : 0 < p.stopped) (hlater : Later p q) :
    StillStopped p q := by
  have hstaff := (staffed_of_reachable h).stopped hstopped
  have hstart : Shut p.started p.calls.length p := by
    refine ⟨hstaff.1, hstaff.2, rfl, fun hle hc => ?_⟩
    rw [List.getElem?_eq_none hle] at hc
    cases hc
  have hshut : Shut p.started p.calls.length q := hlater.preserves Shut.step hstart
  have hreplied : q.Replied := replied_of_reachable (h.trans hlater)
  refine ⟨hshut.started, hshut.gone, fun {i c r} hle hc hreply => ?_, fun hc hopen => ?_⟩
  · cases r with
    | ended e =>
      exact absurd (.inr (Call.reply?_eq_some_iff.1 hreply)) (hshut.unserved (e := e) hle hc)
    | contextOver why =>
      exact .inr ⟨why, rfl, (hreplied c (List.mem_of_getElem? hc)).context why hreply⟩
    | stopped => exact .inl rfl
  · refine ⟨_, step_eq_some_iff.2 (.refuse hc hopen hshut.quit), ?_⟩
    rw [getElem?_setCall hc, if_pos rfl]

/-- Whatever the events and their order, the pool is safe: jobs are run once and their endings come
to their own calls, workers are never held up or lost, and no job is run after a stop. -/
theorem safe_of_reachable (h : Reachable n p) : Safe n p := by
  have htracked := tracked_of_reachable h
  have hstaff := staffed_of_reachable h
  have hreplied := replied_of_reachable h
  have honce : p.started.Nodup := (List.nodup_append.1 htracked.once).1
  constructor
  case startedOnce => exact honce
  case apart => exact fun hw => ⟨htracked.begun hw, fun w' hw' => htracked.apart hw hw'⟩
  case ended =>
    intro i c e hc hreply
    obtain ⟨he, hstarted, hnone⟩ :=
      htracked.arrived hc (.inr (Call.reply?_eq_some_iff.1 hreply))
    exact ⟨he, List.count_eq_one_of_mem honce hstarted, hnone⟩
  case otherwise =>
    intro i c r hc hreply
    have hexcused := hreplied c (List.mem_of_getElem? hc)
    cases r with
    | ended e => exact .inl ⟨e, rfl⟩
    | contextOver why => exact .inr (.inr ⟨why, rfl, hexcused.context why hreply⟩)
    | stopped => exact .inr (.inl ⟨rfl, hexcused.stopped hreply⟩)
  case delivered => exact fun hc hslot => (htracked.arrived hc (.inl hslot)).1
  case jobs => exact fun q hlater => hlater.jobs
  case bounded =>
    have hle := List.countP_le_length (p := Worker.isRunning) (l := p.workers)
    have hsize := hstaff.size
    omega
  case finishes =>
    intro w i hw
    obtain ⟨c, hc, -⟩ := htracked.submitted i
      (List.mem_append_left _ (htracked.begun ⟨_, hw, rfl⟩))
    refine ⟨c, _, hc, step_eq_some_iff.2 (.finish hw hc), ?_⟩
    exact (getElem?_setWorker hw).trans (if_pos rfl)
  case delivers =>
    intro w i e hw
    obtain ⟨c, hc, -⟩ := htracked.ending hw
    have hslot : c.slot = none := by
      rw [Option.eq_none_iff_forall_ne_some]
      exact fun e' hslot => (htracked.arrived hc (.inl hslot)).2.2 w ⟨_, hw, rfl⟩
    refine ⟨_, step_eq_some_iff.2 (.deliver hw hc hslot), ?_⟩
    exact (getElem?_setWorker (p := p.setCall i { c with slot := some e }) hw).trans (if_pos rfl)
  case leaves => exact hstaff.gone
  case stopped => exact fun hstopped q hlater => stillStopped h hstopped hlater

/-- A job that comes to a number. -/
def counting (v : Nat) : Job Unit Nat := fun _ => (.value v, [])

/-- A job that breaks down. -/
def breaking : Job Unit Nat := fun _ => (.crashed "kaboom", [])

/-- A call gets its number and one its breakdown, one goes while its job runs, one is still in the
queue when the pool is told to stop, and one is made after the stop. -/
def rush : List (PoolEvent Unit Nat) :=
  [.call (counting 7), .call breaking, .call (counting 9), .call (counting 10),
    .submit 0, .submit 1, .take 0, .finish 0, .deliver 0, .receive 0,
    .take 0, .finish 0, .deliver 0, .receive 1, .submit 2, .submit 3, .take 0,
    .contextEnds 2 .canceled, .abandon 2, .stop, .refuse 3, .finish 0, .deliver 0, .leave 0, .join,
    .call (counting 11), .submit 4, .refuse 4]

theorem safe_of_reachable_rush :
    Reachable 0 ((create 0).play rush) ∧ Safe 0 ((create 0).play rush) ∧
      ((create 0).play rush).stopped = 1 ∧ ((create 0).play rush).started = [0, 1, 2] ∧
      ((create 0).play rush).calls.map Call.reply? =
        [some (.ended (.value 7)), some (.ended (.crashed "kaboom")),
          some (.contextOver .canceled), some .stopped, some .stopped] :=
  ⟨later_play _ _, safe_of_reachable (later_play _ _), by decide, by decide, by decide⟩

end WorkerPool

end MiniJvm
