import Mathlib
import MiniJvm.Service.Workers

/-!
# Pools under any interleaving

Calls, contexts, workers and stops take turns in any order. `Moves` lists what each event does and
when it can happen, and a pool is `Reachable` when some sequence of events leads to it. What a move
leaves alone is read off `getElem?_setCall` and `holds_setWorker`.
-/

namespace MiniJvm

variable {ε α : Type}

namespace Call

variable {c : Call ε α}

theorem reply?_eq_some_iff {r : Reply ε α} : c.reply? = some r ↔ c.phase = .returned r := by
  unfold reply?
  cases c.phase <;> simp

theorem isSubmitting_iff : c.isSubmitting = true ↔ c.phase = .submitting := by
  unfold isSubmitting
  cases c.phase <;> simp

theorem isWaiting_iff : c.isWaiting = true ↔ c.phase = .waiting := by
  unfold isWaiting
  cases c.phase <;> simp

theorem isOpen_iff : c.isOpen = true ↔ c.reply? = none := by
  unfold isOpen isSubmitting isWaiting reply?
  cases c.phase <;> simp

/-- The ending of a job has come to the call: it lies in its slot or was returned. -/
def Has (c : Call ε α) (e : Ending ε α) : Prop :=
  c.slot = some e ∨ c.phase = .returned (.ended e)

variable {e : Ending ε α}

theorem not_has_new {job : Job ε α} : ¬Has { job } e := by
  rintro (hslot | hphase)
  · cases hslot
  · cases hphase

theorem Has.of_waiting (h : Has { c with phase := .waiting } e) : c.Has e :=
  h.imp_right nofun

/-- To return without an ending brings none. -/
theorem Has.of_returns {r : Reply ε α} (hr : ∀ e, r ≠ .ended e) (h : (c.returns r).Has e) :
    c.Has e := by
  refine h.imp_right fun hphase => ?_
  cases hphase
  exact absurd rfl (hr e)

theorem Has.of_received {e' : Ending ε α} (hslot : c.slot = some e)
    (h : Has { c.returns (.ended e) with slot := none } e') : c.Has e' := by
  rcases h with hs | hphase
  · cases hs
  · cases hphase
    exact .inl hslot

end Call

namespace Worker

def call? : Worker ε α → Option Nat
  | .running i | .delivering i _ => some i
  | .idle | .gone => none

def isRunning : Worker ε α → Bool
  | .running _ => true
  | _ => false

end Worker

namespace WorkerPool

variable {p q : WorkerPool ε α} {i j w : Nat} {c c' : Call ε α}

/-! ## Events -/

/-- What each event does to a pool, and when it can happen. -/
inductive Moves (p : WorkerPool ε α) : PoolEvent ε α → WorkerPool ε α → Prop where
  | call (job : Job ε α) : Moves p (.call job) { p with calls := p.calls ++ [{ job }] }
  | contextEnds {i : Nat} {c : Call ε α} (why : ContextEnd) : p.calls[i]? = some c →
      c.reply? = none → c.context = none →
      Moves p (.contextEnds i why) (p.setCall i { c with context := some why })
  | submit {i : Nat} {c : Call ε α} : p.calls[i]? = some c → c.phase = .submitting →
      p.queue.length < capacity →
      Moves p (.submit i)
        { p.setCall i { c with phase := .waiting } with queue := p.queue ++ [i] }
  | receive {i : Nat} {c : Call ε α} {e : Ending ε α} : p.calls[i]? = some c →
      c.phase = .waiting → c.slot = some e →
      Moves p (.receive i) (p.setCall i { c.returns (.ended e) with slot := none })
  | abandon {i : Nat} {c : Call ε α} {why : ContextEnd} : p.calls[i]? = some c →
      c.reply? = none → c.context = some why →
      Moves p (.abandon i) (p.setCall i (c.returns (.contextOver why)))
  | refuse {i : Nat} {c : Call ε α} : p.calls[i]? = some c → c.reply? = none → p.quit = true →
      Moves p (.refuse i) (p.setCall i (c.returns .stopped))
  | take {w i : Nat} {rest : List Nat} : p.workers[w]? = some .idle → p.queue = i :: rest →
      Moves p (.take w)
        { p.setWorker w (.running i) with queue := rest, started := p.started ++ [i] }
  | finish {w i : Nat} {c : Call ε α} : p.workers[w]? = some (.running i) →
      p.calls[i]? = some c →
      Moves p (.finish w) { p.setWorker w (.delivering i (c.job ()).1) with
        log := p.log ++ (c.job ()).2 ++ (c.job ()).1.recovered }
  | deliver {w i : Nat} {e : Ending ε α} {c : Call ε α} :
      p.workers[w]? = some (.delivering i e) → p.calls[i]? = some c → c.slot = none →
      Moves p (.deliver w) ((p.setCall i { c with slot := some e }).setWorker w .idle)
  | leave {w : Nat} : p.workers[w]? = some .idle → p.quit = true →
      Moves p (.leave w) (p.setWorker w .gone)
  | stop : Moves p .stop { p with quit := true, stopping := p.stopping + 1 }
  | join : 0 < p.stopping → (∀ s ∈ p.workers, s = .gone) →
      Moves p .join { p with stopping := p.stopping - 1, stopped := p.stopped + 1 }

theorem all_isGone_iff {workers : List (Worker ε α)} :
    workers.all isGone = true ↔ ∀ s ∈ workers, s = .gone := by
  rw [List.all_eq_true]
  refine forall₂_congr fun s _ => ?_
  cases s <;> simp [isGone]

/-- The event of a call that has not returned. -/
theorem step_call_eq_some_iff {e : PoolEvent ε α} (hstep : p.step e =
    (p.calls[i]?).bind fun c => if c.isOpen then p.stepCall i c e else none) :
    p.step e = some q ↔
      ∃ c, p.calls[i]? = some c ∧ c.reply? = none ∧ p.stepCall i c e = some q := by
  rw [hstep, Option.bind_eq_some_iff]
  refine exists_congr fun c => and_congr_right fun _ => ?_
  rw [← Call.isOpen_iff]
  cases c.isOpen <;> simp

theorem moves_of_step {e : PoolEvent ε α} (h : p.step e = some q) : p.Moves e q := by
  cases e with
  | call job =>
    cases h
    exact .call job
  | contextEnds i why =>
    obtain ⟨c, hc, hopen, h⟩ := (step_call_eq_some_iff rfl).1 h
    simp only [stepCall, Option.isNone_iff_eq_none, Option.ite_none_right_eq_some,
      Option.some.injEq] at h
    obtain ⟨hcontext, rfl⟩ := h
    exact .contextEnds why hc hopen hcontext
  | submit i =>
    obtain ⟨c, hc, -, h⟩ := (step_call_eq_some_iff rfl).1 h
    simp only [stepCall, Bool.and_eq_true, decide_eq_true_eq, Call.isSubmitting_iff,
      Option.ite_none_right_eq_some, Option.some.injEq] at h
    obtain ⟨⟨hphase, hroom⟩, rfl⟩ := h
    exact .submit hc hphase hroom
  | receive i =>
    obtain ⟨c, hc, -, h⟩ := (step_call_eq_some_iff rfl).1 h
    simp only [stepCall] at h
    cases hslot : c.slot with
    | none => rw [hslot] at h; cases h
    | some e =>
      rw [hslot] at h
      simp only [Call.isWaiting_iff, Option.ite_none_right_eq_some, Option.some.injEq] at h
      obtain ⟨hphase, rfl⟩ := h
      exact .receive hc hphase hslot
  | abandon i =>
    obtain ⟨c, hc, hopen, h⟩ := (step_call_eq_some_iff rfl).1 h
    obtain ⟨why, hcontext, rfl⟩ := Option.map_eq_some_iff.1 h
    exact .abandon hc hopen hcontext
  | refuse i =>
    obtain ⟨c, hc, hopen, h⟩ := (step_call_eq_some_iff rfl).1 h
    simp only [stepCall, Option.ite_none_right_eq_some, Option.some.injEq] at h
    obtain ⟨hquit, rfl⟩ := h
    exact .refuse hc hopen hquit
  | take w =>
    obtain ⟨s, hw, h⟩ := Option.bind_eq_some_iff.1 h
    cases s with
    | running _ | delivering _ _ | gone => cases h
    | idle =>
      cases hqueue : p.queue with
      | nil => simp [stepWorker, hqueue] at h
      | cons i rest =>
        simp only [stepWorker, hqueue, Option.some.injEq] at h
        subst h
        exact .take hw hqueue
  | finish w =>
    obtain ⟨s, hw, h⟩ := Option.bind_eq_some_iff.1 h
    cases s with
    | idle | delivering _ _ | gone => cases h
    | running i =>
      obtain ⟨c, hc, rfl⟩ := Option.map_eq_some_iff.1 h
      exact .finish hw hc
  | deliver w =>
    obtain ⟨s, hw, h⟩ := Option.bind_eq_some_iff.1 h
    cases s with
    | idle | running _ | gone => cases h
    | delivering i e =>
      obtain ⟨c, hc, h⟩ := Option.bind_eq_some_iff.1 h
      simp only [Option.isNone_iff_eq_none, Option.ite_none_right_eq_some,
        Option.some.injEq] at h
      obtain ⟨hslot, rfl⟩ := h
      exact .deliver hw hc hslot
  | leave w =>
    obtain ⟨s, hw, h⟩ := Option.bind_eq_some_iff.1 h
    cases s with
    | running _ | delivering _ _ | gone => cases h
    | idle =>
      simp only [stepWorker, Option.ite_none_right_eq_some, Option.some.injEq] at h
      obtain ⟨hquit, rfl⟩ := h
      exact .leave hw hquit
  | stop =>
    cases h
    exact .stop
  | join =>
    simp only [step, Bool.and_eq_true, decide_eq_true_eq, all_isGone_iff,
      Option.ite_none_right_eq_some, Option.some.injEq] at h
    obtain ⟨⟨hstopping, hgone⟩, rfl⟩ := h
    exact .join hstopping hgone

theorem Moves.step {e : PoolEvent ε α} (h : p.Moves e q) : p.step e = some q := by
  cases h with
  | call job => rfl
  | contextEnds why hc hopen hcontext =>
    exact (step_call_eq_some_iff rfl).2 ⟨_, hc, hopen, by simp [stepCall, hcontext]⟩
  | submit hc hphase hroom =>
    refine (step_call_eq_some_iff rfl).2 ⟨_, hc, by simp [Call.reply?, hphase], ?_⟩
    simp [stepCall, Call.isSubmitting_iff.2 hphase, hroom]
  | receive hc hphase hslot =>
    refine (step_call_eq_some_iff rfl).2 ⟨_, hc, by simp [Call.reply?, hphase], ?_⟩
    simp [stepCall, Call.isWaiting_iff.2 hphase, hslot]
  | abandon hc hopen hcontext =>
    exact (step_call_eq_some_iff rfl).2 ⟨_, hc, hopen, by simp [stepCall, hcontext]⟩
  | refuse hc hopen hquit =>
    exact (step_call_eq_some_iff rfl).2 ⟨_, hc, hopen, by simp [stepCall, hquit]⟩
  | take hw hqueue => simp [step, hw, stepWorker, hqueue]
  | finish hw hc => simp [step, hw, stepWorker, hc]
  | deliver hw hc hslot => simp [step, hw, stepWorker, hc, hslot]
  | leave hw hquit => simp [step, hw, stepWorker, hquit]
  | stop => rfl
  | join hstopping hgone => simp [step, hstopping, all_isGone_iff.2 hgone]

theorem step_eq_some_iff {e : PoolEvent ε α} : p.step e = some q ↔ p.Moves e q :=
  ⟨moves_of_step, Moves.step⟩

/-! ## Runs -/

/-- One event leads from one pool to the other. -/
def Step (p q : WorkerPool ε α) : Prop := ∃ e, p.step e = some q

/-- Events lead from one pool to the other. -/
def Later : WorkerPool ε α → WorkerPool ε α → Prop := Relation.ReflTransGen Step

/-- Events lead to the pool from a new one that was asked for `n` workers. -/
def Reachable (n : Int) (p : WorkerPool ε α) : Prop := Later (create n) p

theorem Step.moves (h : Step p q) : ∃ e, p.Moves e q := by
  obtain ⟨e, he⟩ := h
  exact ⟨e, step_eq_some_iff.1 he⟩

/-- What every event keeps is kept for good. -/
theorem Later.preserves {P : WorkerPool ε α → Prop} (h : Later p q)
    (hstep : ∀ {p q : WorkerPool ε α}, P p → Step p q → P q) (hp : P p) : P q := by
  induction h with
  | refl => exact hp
  | tail _ hlast ih => exact hstep ih hlast

/-- To play events one after another is one way for a pool to get on. -/
theorem later_play (p : WorkerPool ε α) (events : List (PoolEvent ε α)) :
    Later p (p.play events) := by
  induction events generalizing p with
  | nil => exact .refl
  | cons e events ih =>
    have hplay : p.play (e :: events) = ((p.step e).getD p).play events := rfl
    rw [hplay]
    cases hstep : p.step e with
    | none => exact ih p
    | some q => exact .head ⟨e, hstep⟩ (ih q)

/-! ## Replacing a call or a worker -/

theorem getElem?_setCall (hc : p.calls[i]? = some c) :
    (p.setCall i c').calls[j]? = if i = j then some c' else p.calls[j]? := by
  have hlt := (List.getElem?_eq_some_iff.1 hc).1
  rw [setCall, List.getElem?_set, if_pos hlt]

/-- What a call was found for is found again when its replacement does as well. -/
theorem exists_setCall {P : Call ε α → Prop} (hc : p.calls[i]? = some c) (hP : P c → P c')
    (h : ∃ d, p.calls[j]? = some d ∧ P d) : ∃ d, (p.setCall i c').calls[j]? = some d ∧ P d := by
  obtain ⟨d, hd, hPd⟩ := h
  rw [getElem?_setCall hc]
  split
  · subst i
    cases hc.symm.trans hd
    exact ⟨c', rfl, hP hPd⟩
  · exact ⟨d, hd, hPd⟩

theorem getElem?_setWorker {w' : Nat} {s s' : Worker ε α} (hw : p.workers[w]? = some s) :
    (p.setWorker w s').workers[w']? = if w = w' then some s' else p.workers[w']? := by
  have hlt := (List.getElem?_eq_some_iff.1 hw).1
  rw [setWorker, List.getElem?_set, if_pos hlt]

/-- A worker has the job of a call. -/
def Holds (p : WorkerPool ε α) (w i : Nat) : Prop :=
  ∃ s, p.workers[w]? = some s ∧ s.call? = some i

theorem holds_setWorker {w' : Nat} {s s' : Worker ε α} (hw : p.workers[w]? = some s) :
    (p.setWorker w s').Holds w' j ↔
      if w = w' then s'.call? = some j else p.Holds w' j := by
  unfold Holds
  rw [getElem?_setWorker hw]
  split <;> simp

end WorkerPool

end MiniJvm
