import RemoteFs.Notification

/-! # The daemon's shutdown

A task waits for a signal and then notifies all that wait for the shutdown; the GUI and the
tests notify one. `run_async` mounts before it waits. Steps of the two tasks, signals and calls
of `trigger_shutdown` happen in any order. -/
namespace ClientShutdown

open Notification

/-- The signals the handler listens for. Each ends a process that has no handler for it. -/
inductive SignalKind where
  | interrupt
  | terminate
  | quit
  | hangup
  | userDefined1
  deriving DecidableEq, Repr

/-- The task of `spawn_signal_handler`. Once it is `done` further signals are swallowed. -/
inductive Handler where
  | idle
  | spawned
  | listening (pending : Option SignalKind)
  | notifying
  | done
  deriving DecidableEq, Repr

inductive RunAsync where
  | idle
  | mounting
  | mounted
  | waiting
  | unmounting
  | ended
  deriving DecidableEq, Repr

/-- A daemon with its tasks. `triggered` records calls of `trigger_shutdown`. -/
structure State where
  shutdownNotify : Notify Unit
  handler : Handler
  runAsync : RunAsync
  alive : Bool
  triggered : Bool

def State.new : State := ⟨.new, .idle, .idle, true, false⟩

inductive Event where
  | spawnSignalHandler
  | listen
  | signal (kind : SignalKind)
  | receive
  | notifyWaiters
  | triggerShutdown
  | runAsync
  | mount (ok : Bool)
  | waitForShutdown
  | shutdown
  | sessionEnds
  | unmount
  deriving DecidableEq, Repr

/-- An event at a moment at which it cannot happen changes nothing. -/
def stepAlive (s : State) : Event → State
  | .spawnSignalHandler => if s.handler = .idle then { s with handler := .spawned } else s
  | .listen => if s.handler = .spawned then { s with handler := .listening none } else s
  | .signal kind =>
    match s.handler with
    | .idle | .spawned => { s with alive := false }
    | .listening none => { s with handler := .listening (some kind) }
    | .listening (some _) | .notifying | .done => s
  | .receive =>
    match s.handler with
    | .listening (some _) => { s with handler := .notifying }
    | _ => s
  | .notifyWaiters =>
    if s.handler = .notifying then
      { s with handler := .done, shutdownNotify := s.shutdownNotify.notifyWaiters }
    else s
  | .triggerShutdown =>
    { s with triggered := true, shutdownNotify := s.shutdownNotify.notifyOne }
  | .runAsync => if s.runAsync = .idle then { s with runAsync := .mounting } else s
  | .mount ok =>
    if s.runAsync = .mounting then { s with runAsync := if ok then .mounted else .ended } else s
  | .waitForShutdown =>
    if s.runAsync = .mounted then
      { s with runAsync := .waiting, shutdownNotify := s.shutdownNotify.wait () }
    else s
  | .shutdown =>
    if s.runAsync = .waiting ∧ s.shutdownNotify.Available () then
      { s with runAsync := .unmounting, shutdownNotify := s.shutdownNotify.leave () }
    else s
  | .sessionEnds =>
    if s.runAsync = .waiting then
      { s with runAsync := .ended, shutdownNotify := s.shutdownNotify.cancel () }
    else s
  | .unmount => if s.runAsync = .unmounting then { s with runAsync := .ended } else s

def step (s : State) (e : Event) : State := if s.alive then stepAlive s e else s

def run : State → List Event → State
  | s, [] => s
  | s, e :: es => run (step s e) es

def Waits (s : State) : Prop := s.alive = true ∧ s.runAsync = .waiting

def Requested (s : State) : Prop := s.handler = .done ∨ s.triggered = true

/-- A requested shutdown reaches `run_async` if it waits. -/
def NotLost (s : State) : Prop := Requested s → Waits s → s.shutdownNotify.Available ()

/-- When `run_async` begins to wait, the handler has not notified yet, or there is a permit. -/
def Timely (s : State) (e : Event) : Prop :=
  e = .waitForShutdown → s.alive = true → s.runAsync = .mounted → s.handler = .done →
    s.shutdownNotify.permit = true

def AllTimely : State → List Event → Prop
  | _, [] => True
  | s, e :: es => Timely s e ∧ AllTimely (step s e) es

def Ahead (r : RunAsync) : Prop := r = .idle ∨ r = .mounting ∨ r = .mounted

/-- Before the wait `trigger_shutdown` has left a permit; from then on a request has arrived. -/
structure Inv (s : State) : Prop where
  ahead : Ahead s.runAsync → s.shutdownNotify.waiters = [] ∧ s.shutdownNotify.woken = [] ∧
    (s.triggered = true → s.shutdownNotify.permit = true)
  waiting : s.runAsync = .waiting →
    s.shutdownNotify.waiters = [()] ∧ ¬Requested s ∨ s.shutdownNotify.Available ()

section Steps

variable {s s' : State} {e : Event}

theorem Inv.notLost (h : Inv s) : NotLost s := by
  intro hrequested hwaits
  rcases h.waiting hwaits.2 with ⟨-, hno⟩ | havailable
  · exact (hno hrequested).elim
  · exact havailable

/-- A step of the handler before it notifies. -/
theorem Inv.handler {handler : Handler} {alive : Bool} (h : Inv s)
    (hd : handler = .done ↔ s.handler = .done) :
    Inv { s with handler := handler, alive := alive } := by
  refine ⟨h.ahead, fun hw => ?_⟩
  rcases h.waiting hw with ⟨hwaiters, hno⟩ | havailable
  · exact .inl ⟨hwaiters, fun hr => hno (hr.imp_left hd.mp)⟩
  · exact .inr havailable

/-- A step of `run_async` before it waits. -/
theorem Inv.mounting {r : RunAsync} (h : Inv s) (ha : Ahead s.runAsync) (hr : r ≠ .waiting) :
    Inv { s with runAsync := r } :=
  ⟨fun _ => h.ahead ha, fun hw => (hr hw).elim⟩

/-- After its wait nothing is asked of `run_async`. -/
theorem Inv.left {r : RunAsync} {n : Notify Unit} (hr : r = .unmounting ∨ r = .ended) :
    Inv { s with runAsync := r, shutdownNotify := n } := by
  constructor
  · rintro (h | h | h) <;> rcases hr with hr | hr <;> cases h.symm.trans hr
  · intro h
    rcases hr with hr | hr <;> cases h.symm.trans hr

theorem Inv.triggerShutdown (h : Inv s) : Inv
    { s with triggered := true, shutdownNotify := s.shutdownNotify.notifyOne } := by
  constructor
  · intro ha
    obtain ⟨hwaiters, hwoken, -⟩ := h.ahead ha
    obtain ⟨hpermit, hwaiters', hwoken'⟩ := notifyOne_permit hwaiters
    exact ⟨hwaiters', hwoken'.trans hwoken, fun _ => hpermit⟩
  · intro hw
    exact .inr (available_notifyOne ((h.waiting hw).imp_left And.left))

theorem Inv.notifyWaiters (h : Inv s) : Inv
    { s with handler := .done, shutdownNotify := s.shutdownNotify.notifyWaiters } := by
  constructor
  · intro ha
    obtain ⟨hwaiters, hwoken, hpermit⟩ := h.ahead ha
    refine ⟨rfl, ?_, hpermit⟩
    rw [Notify.notifyWaiters, hwaiters, hwoken]
    rfl
  · intro hw
    refine .inr (available_notifyWaiters ((h.waiting hw).imp_left fun hno => ?_))
    rw [hno.1]
    exact List.mem_cons_self

theorem Inv.waitForShutdown (h : Inv s) (hm : s.runAsync = .mounted)
    (ht : s.handler = .done → s.shutdownNotify.permit = true) : Inv
    { s with runAsync := .waiting, shutdownNotify := s.shutdownNotify.wait () } := by
  obtain ⟨hwaiters, -, htriggered⟩ := h.ahead (.inr (.inr hm))
  refine ⟨?_, fun _ => ?_⟩
  · rintro (ha | ha | ha) <;> cases ha
  by_cases hp : s.shutdownNotify.permit = true
  · exact .inr (available_wait hp)
  · refine .inl ⟨?_, fun hr => hp (hr.elim ht htriggered)⟩
    rw [(wait_waiters hp).1, hwaiters]
    rfl

/-- What an event does where it can happen; elsewhere it changes nothing. -/
theorem Inv.guarded {c : Prop} [Decidable c] (h : Inv s) (hc : c → Inv s') :
    Inv (if c then s' else s) := by
  split
  · exact hc ‹_›
  · exact h

theorem inv_stepAlive (h : Inv s) (halive : s.alive = true) (ht : Timely s e) :
    Inv (stepAlive s e) := by
  unfold stepAlive
  cases e with
  | spawnSignalHandler => exact h.guarded fun hh => h.handler (by rw [hh]; decide)
  | listen => exact h.guarded fun hh => h.handler (by rw [hh]; decide)
  | signal kind =>
    dsimp only
    split
    · exact h.handler Iff.rfl
    · exact h.handler Iff.rfl
    · rename_i hh
      exact h.handler (by rw [hh]; exact iff_of_false nofun nofun)
    all_goals exact h
  | receive =>
    dsimp only
    split
    · rename_i hh
      exact h.handler (by rw [hh]; exact iff_of_false nofun nofun)
    · exact h
  | notifyWaiters => exact h.guarded fun _ => h.notifyWaiters
  | triggerShutdown => exact h.triggerShutdown
  | runAsync => exact h.guarded fun hr => h.mounting (.inl hr) nofun
  | mount ok =>
    refine h.guarded fun hr => h.mounting (.inr (.inl hr)) ?_
    cases ok <;> exact nofun
  | waitForShutdown => exact h.guarded fun hr => h.waitForShutdown hr (ht rfl halive hr)
  | shutdown => exact h.guarded fun _ => Inv.left (.inl rfl)
  | sessionEnds => exact h.guarded fun _ => Inv.left (.inr rfl)
  | unmount => exact h.guarded fun _ => Inv.left (.inr rfl)

theorem inv_step (h : Inv s) (ht : Timely s e) : Inv (step s e) := by
  unfold step
  split
  · rename_i halive
    exact inv_stepAlive h halive ht
  · exact h

/-- Without a permit `run_async` waits on after the handler has notified. -/
theorem lost_of_late (h : Inv s) (hlate : ¬Timely s e) : ¬NotLost (step s e) := by
  unfold Timely at hlate
  simp only [not_forall] at hlate
  obtain ⟨rfl, halive, hm, hd, hp⟩ := hlate
  obtain ⟨-, hwoken, -⟩ := h.ahead (.inr (.inr hm))
  have hstep : step s .waitForShutdown =
      { s with runAsync := .waiting, shutdownNotify := s.shutdownNotify.wait () } := by
    rw [step, if_pos halive, stepAlive, if_pos hm]
  rw [hstep]
  intro hnotLost
  obtain ⟨wake, hw⟩ := hnotLost (.inl hd) ⟨halive, rfl⟩
  rw [show _ = _ from (wait_waiters hp).2, hwoken] at hw
  cases hw

theorem notLost_run_iff (events : List Event) : ∀ s, Inv s →
    ((∀ n, NotLost (run s (events.take n))) ↔ AllTimely s events) := by
  induction events with
  | nil =>
    intro s h
    refine iff_of_true (fun n => ?_) trivial
    rw [List.take_nil]
    exact h.notLost
  | cons e es ih =>
    intro s h
    by_cases ht : Timely s e
    · rw [AllTimely, and_iff_right ht, ← ih (step s e) (inv_step h ht)]
      constructor
      · exact fun hall n => hall (n + 1)
      · rintro hall (_ | n)
        · exact h.notLost
        · exact hall n
    · refine iff_of_false (fun hall => lost_of_late h ht ?_) fun hall => ht hall.1
      exact hall 1

theorem inv_new : Inv .new :=
  ⟨fun _ => ⟨rfl, rfl, nofun⟩, nofun⟩

end Steps

/-- No requested shutdown is lost exactly if each time `run_async` begins to wait, the handler
has yet to notify or `trigger_shutdown` has been called. -/
theorem no_lost_shutdown_iff (events : List Event) :
    (∀ n, NotLost (run .new (events.take n))) ↔ AllTimely .new events :=
  notLost_run_iff events .new inv_new

/-- A signal is handled while the mount is under way. -/
theorem signal_during_mount_is_lost :
    let s := run .new [.spawnSignalHandler, .listen, .runAsync, .signal .terminate, .receive,
      .notifyWaiters, .mount true, .waitForShutdown]
    Requested s ∧ Waits s ∧ ¬s.shutdownNotify.Available () := by
  refine ⟨.inl rfl, ⟨rfl, rfl⟩, ?_⟩
  decide

end ClientShutdown
