/-
  MierOS.Event.EventManager — `EventManager` of `event_manager.cpp`: the event
  queue with its raisers, the handler table, and the event loop.

  Raising, waiting and popping each run under `f_lock` and are one step; the
  loop is at a program point between its steps, and any thread (the handler
  that is running included) may raise, wait or register between any two of
  them.

  Main results: `Ledger`, `event_dispatch`, `event_waits_iff`.
-/
import MierOS.Lib.Run
import Mathlib.Data.List.Nodup
import Mathlib.Logic.Function.Basic

namespace MierOS.Events

open Lib

/-! ## §1. Events, handlers and the manager. -/

/-- `EVENT_SYNC`. -/
def eventSync : Nat := 0x5ce90a4b4133c36a

/-- `EVENT_QUEUE_EMPTY`. -/
def eventQueueEmpty : Nat := 0x2801da0cf10a2d25

/-- `EVENT_PROCESSED_EVENT`. -/
def eventProcessedEvent : Nat := 0x9bbe5456af663f0f

/-- `Event`: identifier, local id, arguments and the four flags. -/
structure Event where
  identifier : Nat
  localId : Nat
  args : List Nat
  consumed : Bool
  clear : Bool
  processed : Bool
  metaEvent : Bool
  deriving Repr, DecidableEq

/-- The constructor `Event(id, args...)`, then `keep()` and
`set_flags(EVENT_FLAG_META_EVENT)` as the raiser asks. -/
def Event.new (identifier : Nat) (args : List Nat) (keep metaEvent : Bool) : Event where
  identifier := identifier
  localId := 0
  args := args
  consumed := false
  clear := !keep
  processed := false
  metaEvent := metaEvent

/-- The event as it was when it was raised: without the flags a dispatch sets. -/
def Event.asRaised (e : Event) : Event := { e with consumed := false, processed := false }

/-- An `event_handler_t*`.  The two static member functions are private, so only
the manager itself could register them. -/
inductive Handler where
  | syncEventHandler
  | eventProcessedHandler
  | user (n : Nat)
  deriving Repr, DecidableEq

/-- `Wait`, with the thread that sleeps on it. -/
structure Wait where
  identifier : Nat
  eid : Nat
  thread : Nat
  deriving Repr, DecidableEq

/-- A finished dispatch: the event, the handler list as the loop left it, and
the handlers that ran, each with whether it consumed the event. -/
structure Dispatch where
  event : Event
  registered : List Handler
  ran : List (Handler × Bool)
  deriving Repr, DecidableEq

/-- Where `event_loop` is. -/
inductive Loop where
  /-- At `while(!f_event_queue.size())`. -/
  | check
  /-- The queue was empty: at `if(f_processing_event)`. -/
  | idle
  /-- The flag was set and is cleared: at `raise` of `EVENT_QUEUE_EMPTY`. -/
  | raiseEmpty
  /-- The queue was not empty: at `pop_front`. -/
  | pop
  /-- An event was popped: at the test of its meta flag and the lookup. -/
  | start (e : Event)
  /-- In the loop over the handlers, after those of `ran`. -/
  | handlers (e : Event) (ran : List (Handler × Bool))
  /-- After the handlers, of which `registered` were there. -/
  | finish (e : Event) (registered : List Handler) (ran : List (Handler × Bool))
  deriving Repr, DecidableEq

/-- The manager, and what has happened: the events raised, those raised by the
loop itself, the dispatches and the threads woken. -/
structure EventManager where
  handlers : Nat → Option (List Handler)
  nextEid : Nat
  queue : List Event
  processingEvent : Bool
  waits : List Wait
  loop : Loop
  raised : List Event
  loopRaised : List Event
  dispatched : List Dispatch
  woken : List Nat

namespace EventManager

/-- `register_handler(identifier, handler)`. -/
def registerHandler (m : EventManager) (identifier : Nat) (handler : Handler) : EventManager :=
  let list := (m.handlers identifier).getD [] ++ [handler]
  { m with handlers := Function.update m.handlers identifier (some list) }

/-- `EventManager()`, with the loop process scheduled. -/
def init : EventManager :=
  let m : EventManager :=
    { handlers := fun _ => none, nextEid := 1, queue := [], processingEvent := false
      waits := [], loop := .check, raised := [], loopRaised := [], dispatched := [], woken := [] }
  m.registerHandler eventSync .syncEventHandler

/-- `raise(event)`. -/
def raise (m : EventManager) (event : Event) : EventManager :=
  let event := { event with localId := m.nextEid }
  { m with nextEid := m.nextEid + 1, queue := m.queue ++ [event], raised := m.raised ++ [event] }

/-- `raise` as called by the loop. -/
def loopRaise (m : EventManager) (event : Event) : EventManager :=
  let m' := m.raise event
  { m' with loopRaised := m.loopRaised ++ [{ event with localId := m.nextEid }] }

/-- `wait(identifier, eid)` by a thread. -/
def wait (m : EventManager) (identifier eid thread : Nat) : EventManager :=
  { m with waits := m.waits ++ [⟨identifier, eid, thread⟩] }

/-- `raise_wait(event)` by a thread. -/
def raiseWait (m : EventManager) (event : Event) (thread : Nat) : EventManager :=
  let eid := m.nextEid
  (m.wait event.identifier eid thread).raise event

/-- The test of `event_processed_handler`: it compares with the identifier and
the id of the event IT is handed. -/
def releases (event : Event) (w : Wait) : Bool :=
  (w.identifier == 0 || w.identifier == event.identifier)
    && (w.eid == 0 || w.eid == event.localId)

/-- `event_processed_handler(event)`. -/
def eventProcessedHandler (m : EventManager) (event : Event) : EventManager :=
  { m with
    waits := m.waits.filter (fun w => !releases event w)
    woken := m.woken ++ (m.waits.filter (releases event)).map Wait.thread }

/-- What a handler does to the manager; a user handler raises, waits and
registers in steps of its own. -/
def runHandler (m : EventManager) (event : Event) : Handler → EventManager
  | .syncEventHandler => m
  | .eventProcessedHandler => m.eventProcessedHandler event
  | .user _ => m

/-- Whether a handler consumes the event; a user handler decides. -/
def consumes (decision : Bool) : Handler → Bool
  | .syncEventHandler => false
  | .eventProcessedHandler => false
  | .user _ => decision

/-- `EVENT_PROCESSED_EVENT` for an event. -/
def processedEvent (e : Event) : Event :=
  Event.new eventProcessedEvent [e.identifier, e.localId] false true

/-- The next step of `event_loop`; `decision` is what a user handler that is run
by it decides about consuming. -/
def loopStep (m : EventManager) (decision : Bool) : EventManager :=
  match m.loop with
  | .check => { m with loop := if m.queue.length = 0 then .idle else .pop }
  | .idle =>
      if m.processingEvent then { m with processingEvent := false, loop := .raiseEmpty }
      else { m with loop := .check }
  | .raiseEmpty =>
      { m.loopRaise (Event.new eventQueueEmpty [] false true) with loop := .check }
  | .pop =>
      match m.queue with
      | [] => m
      | e :: rest => { m with queue := rest, loop := .start e }
  | .start e =>
      let m' := { m with processingEvent := m.processingEvent || !e.metaEvent }
      match m.handlers e.identifier with
      | none => { m' with loop := .finish e [] [] }
      | some _ => { m' with loop := .handlers e [] }
  | .handlers e ran =>
      let registered := (m.handlers e.identifier).getD []
      match registered[ran.length]? with
      | none => { m with loop := .finish e registered ran }
      | some handler =>
          let used := consumes decision handler
          let e' := { e with consumed := e.consumed || used }
          let ran' := ran ++ [(handler, used)]
          { m.runHandler e handler with
            loop := if e'.consumed then .finish e' registered ran' else .handlers e' ran' }
  | .finish e registered ran =>
      let e' := { e with processed := true }
      let done : Dispatch := ⟨e', registered, ran⟩
      let m' := { m with dispatched := m.dispatched ++ [done] }
      if e.metaEvent then { m' with loop := .check }
      else { m'.loopRaise (processedEvent e) with loop := .check }

/-- What can happen next. -/
inductive Call where
  | raise (identifier : Nat) (args : List Nat) (keep metaEvent : Bool)
  | raiseWait (identifier : Nat) (args : List Nat) (keep metaEvent : Bool) (thread : Nat)
  | wait (identifier eid thread : Nat)
  | register (identifier n : Nat)
  | loop (decision : Bool)
  deriving Repr, DecidableEq

/-- The manager after a call or a step of the loop. -/
def next (m : EventManager) : Call → EventManager
  | .raise identifier args keep metaEvent => m.raise (Event.new identifier args keep metaEvent)
  | .raiseWait identifier args keep metaEvent thread =>
      m.raiseWait (Event.new identifier args keep metaEvent) thread
  | .wait identifier eid thread => m.wait identifier eid thread
  | .register identifier n => m.registerHandler identifier (.user n)
  | .loop decision => m.loopStep decision

/-- One call as a step relation. -/
def Step (m : EventManager) (c : Call) (m' : EventManager) : Prop := m.next c = m'

/-- The event the loop is working on. -/
def inFlight : Loop → List Event
  | .start e => [e]
  | .handlers e _ => [e]
  | .finish e _ _ => [e]
  | _ => []

/-- A handler changes the wait list and wakes threads, and nothing else. -/
theorem runHandler_frame (m : EventManager) (e : Event) (handler : Handler) :
    ∃ ws wk, m.runHandler e handler = { m with waits := ws, woken := wk } := by
  cases handler with
  | syncEventHandler => exact ⟨m.waits, m.woken, rfl⟩
  | eventProcessedHandler => exact ⟨_, _, rfl⟩
  | user n => exact ⟨m.waits, m.woken, rfl⟩

/-! ## §2. The ledger: every event is raised, queued and dispatched once. -/

/-- **The ledger.** -/
structure Ledger (m : EventManager) : Prop where
  /-- What was raised is what was dispatched, what is in flight and what is queued. -/
  balance : m.raised = m.dispatched.map (fun d => d.event.asRaised)
    ++ (inFlight m.loop).map Event.asRaised ++ m.queue
  fresh : ∀ e ∈ m.raised, e.asRaised = e
  sorted : m.raised.Pairwise (fun e e' => e.localId < e'.localId)
  bound : ∀ e ∈ m.raised, e.localId < m.nextEid

theorem ledger_init : init.Ledger where
  balance := rfl
  fresh := fun _ h => nomatch h
  sorted := List.Pairwise.nil
  bound := fun _ h => nomatch h

section Ledger

variable {m m' : EventManager}

/-- Steps that raise nothing and keep what is dispatched, in flight and queued. -/
theorem Ledger.frame (h : m.Ledger) (hraised : m'.raised = m.raised)
    (hnext : m'.nextEid = m.nextEid)
    (hsame : m'.dispatched.map (fun d => d.event.asRaised)
        ++ (inFlight m'.loop).map Event.asRaised ++ m'.queue
      = m.dispatched.map (fun d => d.event.asRaised)
        ++ (inFlight m.loop).map Event.asRaised ++ m.queue) : m'.Ledger where
  balance := by rw [hraised, hsame]; exact h.balance
  fresh := by rw [hraised]; exact h.fresh
  sorted := by rw [hraised]; exact h.sorted
  bound := by rw [hraised, hnext]; exact h.bound

/-- **`raise`** gives the event the next id and puts it at the end. -/
theorem Ledger.raise (h : m.Ledger) {e : Event} (he : e.asRaised = e) : (m.raise e).Ledger where
  balance := by
    -- the new event is the last one raised and the last one queued
    show m.raised ++ [_] = _ ++ _ ++ (m.queue ++ [_])
    rw [h.balance, List.append_assoc _ m.queue]
    rfl
  fresh := by
    intro x hx
    have hx' : x ∈ m.raised ++ [{ e with localId := m.nextEid }] := hx
    rcases List.mem_append.mp hx' with hx' | hx'
    · exact h.fresh x hx'
    · rw [List.mem_singleton.mp hx']
      have hcons : e.consumed = false := (congrArg Event.consumed he).symm
      have hproc : e.processed = false := (congrArg Event.processed he).symm
      show ({ e with localId := m.nextEid, consumed := false, processed := false } : Event)
        = { e with localId := m.nextEid }
      rw [hcons, hproc]
  sorted := by
    show (m.raised ++ [_]).Pairwise _
    rw [List.pairwise_append]
    refine ⟨h.sorted, List.pairwise_singleton _ _, ?_⟩
    intro x hx y hy
    rw [List.mem_singleton.mp hy]
    exact h.bound x hx
  bound := by
    intro x hx
    have hx' : x ∈ m.raised ++ [{ e with localId := m.nextEid }] := hx
    show x.localId < m.nextEid + 1
    rcases List.mem_append.mp hx' with hx' | hx'
    · have := h.bound x hx'
      omega
    · rw [List.mem_singleton.mp hx']
      show m.nextEid < m.nextEid + 1
      omega

theorem new_asRaised (identifier : Nat) (args : List Nat) (keep metaEvent : Bool) :
    (Event.new identifier args keep metaEvent).asRaised
      = Event.new identifier args keep metaEvent := rfl

/-- **`pop_front`** takes the oldest event. -/
theorem Ledger.pop (h : m.Ledger) {e : Event} {rest : List Event} (hloop : inFlight m.loop = [])
    (hqueue : m.queue = e :: rest) :
    ({ m with queue := rest, loop := .start e } : EventManager).Ledger := by
  -- a queued event carries none of the flags a dispatch sets
  have hmem : e ∈ m.raised := by
    rw [h.balance, hqueue]
    exact List.mem_append_right _ List.mem_cons_self
  refine h.frame rfl rfl ?_
  show _ ++ [e.asRaised] ++ rest = _ ++ _ ++ m.queue
  rw [h.fresh e hmem, hloop, hqueue]
  simp

theorem ledger_loopStep (h : m.Ledger) (decision : Bool) : (m.loopStep decision).Ledger := by
  unfold loopStep
  cases hloop : m.loop with
  | check =>
      simp only
      split
      · exact h.frame rfl rfl (by rw [hloop]; rfl)
      · exact h.frame rfl rfl (by rw [hloop]; rfl)
  | idle =>
      simp only
      split
      · exact h.frame rfl rfl (by rw [hloop]; rfl)
      · exact h.frame rfl rfl (by rw [hloop]; rfl)
  | raiseEmpty =>
      have hr := h.raise (new_asRaised eventQueueEmpty [] false true)
      refine hr.frame rfl rfl ?_
      show _ = _ ++ (inFlight m.loop).map _ ++ _
      rw [hloop]
      rfl
  | pop =>
      simp only
      split
      · exact h
      · rename_i e rest hqueue
        exact h.pop (by rw [hloop]; rfl) hqueue
  | start e =>
      simp only
      split
      · exact h.frame rfl rfl (by rw [hloop]; rfl)
      · exact h.frame rfl rfl (by rw [hloop]; rfl)
  | handlers e ran =>
      simp only
      split
      · exact h.frame rfl rfl (by rw [hloop]; rfl)
      · rename_i handler _
        obtain ⟨ws, wk, hframe⟩ := m.runHandler_frame e handler
        rw [hframe]
        split
        · exact h.frame rfl rfl (by rw [hloop]; rfl)
        · exact h.frame rfl rfl (by rw [hloop]; rfl)
  | finish e registered ran =>
      -- the event moves from "in flight" to the end of "dispatched"
      let done : Dispatch := ⟨{ e with processed := true }, registered, ran⟩
      have hdone : ({ m with dispatched := m.dispatched ++ [done], loop := .check } :
          EventManager).Ledger := by
        refine h.frame rfl rfl ?_
        rw [hloop]
        show (m.dispatched ++ [done]).map _ ++ [] ++ _ = _
        rw [List.map_append, List.append_nil]
        rfl
      simp only
      split
      · exact hdone
      · exact (hdone.raise (new_asRaised _ _ _ _)).frame rfl rfl rfl

theorem ledger_step {c : Call} (h : m.Ledger) (hst : Step m c m') : m'.Ledger := by
  subst hst
  cases c with
  | raise identifier args keep metaEvent => exact h.raise (new_asRaised _ _ _ _)
  | raiseWait identifier args keep metaEvent thread =>
      have hw : (m.wait identifier m.nextEid thread).Ledger := h.frame rfl rfl rfl
      exact hw.raise (new_asRaised _ _ _ _)
  | wait identifier eid thread => exact h.frame rfl rfl rfl
  | register identifier n => exact h.frame rfl rfl rfl
  | loop decision => exact ledger_loopStep h decision

end Ledger

/-! ## §3. The meta events of the loop. -/

/-- An `EVENT_PROCESSED_EVENT`. -/
def isProcessed (e : Event) : Bool := e.identifier == eventProcessedEvent

/-- A dispatch of an event that is no meta event. -/
def ordinary (d : Dispatch) : Bool := !d.event.metaEvent

/-- The loop is past the test of the meta flag of an event that is no meta
event. -/
def busy : Loop → Bool
  | .handlers e _ => !e.metaEvent
  | .finish e _ _ => !e.metaEvent
  | _ => false

/-- The `EVENT_QUEUE_EMPTY` events the loop is still going to raise for what it
has dispatched: the one it is raising, or the one the flag stands for. -/
def owed (m : EventManager) : Nat :=
  (if m.loop = .raiseEmpty then 1 else 0) + (if m.processingEvent && !busy m.loop then 1 else 0)

/-- **What the loop has raised.** -/
structure MetaLog (m : EventManager) : Prop where
  isMeta : ∀ e ∈ m.loopRaised, e.metaEvent = true
  /-- One `EVENT_PROCESSED_EVENT` per ordinary dispatch, in the same order. -/
  processedEvents : (m.loopRaised.filter isProcessed).map Event.args
    = (m.dispatched.filter ordinary).map (fun d => [d.event.identifier, d.event.localId])
  empties : m.loopRaised.countP (fun e => !isProcessed e) + m.owed
    ≤ (m.dispatched.filter ordinary).length
  queued : m.loopRaised.Sublist m.raised
  later : ∀ e ∈ m.loopRaised, ∀ i l, e.args = [i, l] → l < e.localId

theorem metaLog_init : init.MetaLog where
  isMeta := fun _ h => nomatch h
  processedEvents := rfl
  empties := by decide
  queued := List.Sublist.refl _
  later := fun _ h => nomatch h

section MetaLog

variable {m m' : EventManager}

/-- Steps that dispatch nothing and raise nothing for the loop. -/
theorem MetaLog.frame (h : m.MetaLog) (hloopRaised : m'.loopRaised = m.loopRaised)
    (hdispatched : m'.dispatched = m.dispatched) (howed : m'.owed ≤ m.owed)
    (hraised : m.raised.Sublist m'.raised) : m'.MetaLog where
  isMeta := by rw [hloopRaised]; exact h.isMeta
  processedEvents := by rw [hloopRaised, hdispatched]; exact h.processedEvents
  empties := by
    have := h.empties
    rw [hloopRaised, hdispatched]
    omega
  queued := by rw [hloopRaised]; exact h.queued.trans hraised
  later := by rw [hloopRaised]; exact h.later

theorem raised_sublist (m : EventManager) (e : Event) : m.raised.Sublist (m.raise e).raised :=
  List.sublist_append_left _ _

/-- An `EVENT_QUEUE_EMPTY` pays for the flag that was cleared. -/
theorem MetaLog.raiseEmpty (h : m.MetaLog) (hloop : m.loop = .raiseEmpty) :
    ({ m.loopRaise (Event.new eventQueueEmpty [] false true) with loop := .check } :
      EventManager).MetaLog where
  isMeta := by
    intro e he
    rcases List.mem_append.mp he with he | he
    · exact h.isMeta e he
    · rw [List.mem_singleton.mp he]
      rfl
  processedEvents := by
    show ((m.loopRaised ++ [_]).filter isProcessed).map Event.args = _
    rw [List.filter_append, List.map_append, h.processedEvents]
    exact List.append_nil _
  empties := by
    have hold := h.empties
    -- what was owed for the cleared flag is now in the log
    have hbusy : busy m.loop = false := by rw [hloop]; rfl
    unfold owed at hold ⊢
    rw [hbusy, if_pos hloop] at hold
    show (m.loopRaised ++ [_]).countP (fun e => !isProcessed e)
      + (0 + if m.processingEvent && !busy .check then 1 else 0)
      ≤ (m.dispatched.filter ordinary).length
    rw [List.countP_append, show busy .check = false from rfl]
    show m.loopRaised.countP (fun e => !isProcessed e) + 1 + _ ≤ _
    omega
  queued := by
    show (m.loopRaised ++ [_]).Sublist (m.raised ++ [_])
    exact h.queued.append (List.Sublist.refl _)
  later := by
    intro e he i l hargs
    rcases List.mem_append.mp he with he | he
    · exact h.later e he i l hargs
    · rw [List.mem_singleton.mp he] at hargs
      exact absurd hargs (by simp [Event.new])

/-- A meta event is dispatched without a further event. -/
theorem MetaLog.finishMeta (h : m.MetaLog) {e : Event} {registered : List Handler}
    {ran : List (Handler × Bool)} (hloop : m.loop = .finish e registered ran)
    (hmeta : e.metaEvent = true) (done : Dispatch) (hdone : done.event.metaEvent = e.metaEvent) :
    ({ m with dispatched := m.dispatched ++ [done], loop := .check } : EventManager).MetaLog := by
  -- a meta event is not counted
  have hskip : (m.dispatched ++ [done]).filter ordinary = m.dispatched.filter ordinary := by
    rw [List.filter_append]
    have hno : ordinary done = false := by
      unfold ordinary
      rw [hdone, hmeta]
      rfl
    simp [hno]
  refine ⟨h.isMeta, ?_, ?_, h.queued, h.later⟩
  · show _ = ((m.dispatched ++ [done]).filter ordinary).map _
    rw [hskip]
    exact h.processedEvents
  · have hold := h.empties
    show _ ≤ ((m.dispatched ++ [done]).filter ordinary).length
    rw [hskip]
    have hbusy : busy m.loop = false := by
      rw [hloop]
      show (!e.metaEvent) = false
      rw [hmeta]
      rfl
    have hne : m.loop ≠ .raiseEmpty := by rw [hloop]; exact Loop.noConfusion
    unfold owed at hold ⊢
    rw [hbusy, if_neg hne] at hold
    exact hold

/-- An ordinary event is dispatched and its `EVENT_PROCESSED_EVENT` raised. -/
theorem MetaLog.finishOrdinary (h : m.MetaLog) {e : Event} {registered : List Handler}
    {ran : List (Handler × Bool)} (hloop : m.loop = .finish e registered ran)
    (hmeta : e.metaEvent = false) (hid : e.localId < m.nextEid) (done : Dispatch)
    (hdone : done.event = { e with processed := true }) :
    ({ ({ m with dispatched := m.dispatched ++ [done] } : EventManager).loopRaise
        (processedEvent e) with loop := .check } : EventManager).MetaLog := by
  have hkeep : (m.dispatched ++ [done]).filter ordinary
      = m.dispatched.filter ordinary ++ [done] := by
    rw [List.filter_append]
    have hyes : ordinary done = true := by
      unfold ordinary
      rw [hdone]
      show (!e.metaEvent) = true
      rw [hmeta]
      rfl
    simp [hyes]
  constructor
  case isMeta =>
    intro x hx
    rcases List.mem_append.mp hx with hx | hx
    · exact h.isMeta x hx
    · rw [List.mem_singleton.mp hx]
      rfl
  case processedEvents =>
    show ((m.loopRaised ++ [_]).filter isProcessed).map Event.args
      = ((m.dispatched ++ [done]).filter ordinary).map _
    rw [hkeep, List.filter_append, List.map_append, List.map_append, h.processedEvents]
    show _ ++ [[e.identifier, e.localId]] = _ ++ [[done.event.identifier, done.event.localId]]
    rw [hdone]
  case empties =>
    have hold := h.empties
    have hne : m.loop ≠ .raiseEmpty := by rw [hloop]; exact Loop.noConfusion
    unfold owed at hold ⊢
    rw [if_neg hne] at hold
    show (m.loopRaised ++ [_]).countP (fun e => !isProcessed e)
        + (0 + if m.processingEvent && !busy .check then 1 else 0)
      ≤ ((m.dispatched ++ [done]).filter ordinary).length
    rw [hkeep, List.countP_append, List.length_append]
    show m.loopRaised.countP (fun e => !isProcessed e) + 0 + _ ≤ _ + 1
    -- the flag owes one more `EVENT_QUEUE_EMPTY` at most
    split <;> omega
  case queued =>
    show (m.loopRaised ++ [_]).Sublist (m.raised ++ [_])
    exact h.queued.append (List.Sublist.refl _)
  case later =>
    intro x hx i l hargs
    rcases List.mem_append.mp hx with hx | hx
    · exact h.later x hx i l hargs
    · rw [List.mem_singleton.mp hx] at hargs ⊢
      have hpair : [e.identifier, e.localId] = [i, l] := hargs
      injection hpair with _ hpair
      injection hpair with hl _
      show l < m.nextEid
      omega

theorem metaLog_loopStep (h : m.MetaLog) (hl : m.Ledger) (decision : Bool) :
    (m.loopStep decision).MetaLog := by
  unfold loopStep
  -- `raiseEmpty` and `finish` write the log; the other places only move what is owed
  cases hloop : m.loop with
  | check =>
      simp only
      split
      · exact h.frame rfl rfl (by simp [owed, hloop, busy]) (List.Sublist.refl _)
      · exact h.frame rfl rfl (by simp [owed, hloop, busy]) (List.Sublist.refl _)
  | idle =>
      simp only
      split
      · rename_i hflag
        exact h.frame rfl rfl (by simp [owed, hloop, busy, hflag]) (List.Sublist.refl _)
      · exact h.frame rfl rfl (by simp [owed, hloop, busy]) (List.Sublist.refl _)
  | raiseEmpty => exact h.raiseEmpty hloop
  | pop =>
      simp only
      split
      · exact h
      · exact h.frame rfl rfl (by simp [owed, hloop, busy]) (List.Sublist.refl _)
  | start e =>
      simp only
      split
      · refine h.frame rfl rfl ?_ (List.Sublist.refl _)
        cases hmeta : e.metaEvent <;> simp [owed, hloop, busy, hmeta]
      · refine h.frame rfl rfl ?_ (List.Sublist.refl _)
        cases hmeta : e.metaEvent <;> simp [owed, hloop, busy, hmeta]
  | handlers e ran =>
      simp only
      split
      · exact h.frame rfl rfl (by simp [owed, hloop, busy]) (List.Sublist.refl _)
      · rename_i handler _
        obtain ⟨ws, wk, hframe⟩ := m.runHandler_frame e handler
        rw [hframe]
        split
        · exact h.frame rfl rfl (by simp [owed, hloop, busy]) (List.Sublist.refl _)
        · exact h.frame rfl rfl (by simp [owed, hloop, busy]) (List.Sublist.refl _)
  | finish e registered ran =>
      simp only
      split
      · rename_i hmeta
        exact h.finishMeta hloop hmeta _ rfl
      · rename_i hmeta
        have hmem : e.asRaised ∈ m.raised := by
          rw [hl.balance, hloop]
          exact List.mem_append_left _ (List.mem_append_right _ (List.mem_singleton_self _))
        exact h.finishOrdinary hloop (by simpa using hmeta) (hl.bound e.asRaised hmem) _ rfl

theorem metaLog_step {c : Call} (h : m.MetaLog) (hl : m.Ledger) (hst : Step m c m') :
    m'.MetaLog := by
  subst hst
  cases c with
  | raise identifier args keep metaEvent =>
      exact h.frame rfl rfl (Nat.le_refl _) (raised_sublist _ _)
  | raiseWait identifier args keep metaEvent thread =>
      exact h.frame rfl rfl (Nat.le_refl _) (raised_sublist _ _)
  | wait identifier eid thread => exact h.frame rfl rfl (Nat.le_refl _) (List.Sublist.refl _)
  | register identifier n => exact h.frame rfl rfl (Nat.le_refl _) (List.Sublist.refl _)
  | loop decision => exact metaLog_loopStep h hl decision

/-- **At most two meta events per ordinary event.** -/
theorem MetaLog.length_le (h : m.MetaLog) :
    m.loopRaised.length ≤ 2 * (m.dispatched.filter ordinary).length := by
  have hprocessed := congrArg List.length h.processedEvents
  rw [List.length_map, List.length_map, ← List.countP_eq_length_filter] at hprocessed
  -- the log is made of the two kinds of meta events
  have hsplit := List.length_eq_countP_add_countP isProcessed (l := m.loopRaised)
  have hempties := h.empties
  have hnot : m.loopRaised.countP (fun e => decide (¬ isProcessed e = true))
      = m.loopRaised.countP (fun e => !isProcessed e) := by
    apply List.countP_congr
    intro e _
    simp
  omega

end MetaLog

/-! ## §4. The handlers of a dispatch. -/

/-- **Registration order, up to the first handler that consumes.** -/
structure RunsInOrder (registered : List Handler) (ran : List (Handler × Bool)) : Prop where
  inOrder : ran.map Prod.fst <+: registered
  /-- No handler ran after one that consumed. -/
  untilConsumed : ∀ x ∈ ran.dropLast, x.2 = false
  /-- The last one consumed, or there was no other. -/
  stopped : (∃ x, ran.getLast? = some x ∧ x.2 = true) ∨ ran.map Prod.fst = registered

/-- The handlers registered for an identifier. -/
def registeredFor (m : EventManager) (identifier : Nat) : List Handler :=
  (m.handlers identifier).getD []

/-- What the program point of the loop says about the handlers. -/
def Running (m : EventManager) : Prop :=
  match m.loop with
  | .start e => e.consumed = false
  | .handlers e ran =>
      e.consumed = false ∧ ran.map Prod.fst <+: m.registeredFor e.identifier
        ∧ ∀ x ∈ ran, x.2 = false
  | .finish e registered ran =>
      RunsInOrder registered ran ∧ registered <+: m.registeredFor e.identifier
  | _ => True

/-- **Every dispatch ran its handlers in order.** -/
structure Ordered (m : EventManager) : Prop where
  done : ∀ d ∈ m.dispatched,
    RunsInOrder d.registered d.ran ∧ d.registered <+: m.registeredFor d.event.identifier
  running : m.Running

theorem ordered_init : init.Ordered where
  done := fun _ h => nomatch h
  running := trivial

section Ordered

variable {m m' : EventManager}

/-- Steps that leave the handler table and the dispatches alone. -/
theorem Ordered.moves (h : m.Ordered) (hhandlers : m'.handlers = m.handlers)
    (hdispatched : m'.dispatched = m.dispatched) (hrunning : m'.Running) : m'.Ordered where
  done := by
    intro d hd
    rw [hdispatched] at hd
    unfold registeredFor
    rw [hhandlers]
    exact h.done d hd
  running := hrunning

/-- Raising and waiting do not concern the handlers. -/
theorem Ordered.frame (h : m.Ordered) (hhandlers : m'.handlers = m.handlers)
    (hdispatched : m'.dispatched = m.dispatched) (hloop : m'.loop = m.loop) : m'.Ordered := by
  refine h.moves hhandlers hdispatched ?_
  have hold := h.running
  unfold Running registeredFor at hold ⊢
  rw [hloop, hhandlers]
  exact hold

/-- A registration puts its handler at the end. -/
theorem registeredFor_register (m : EventManager) (identifier x : Nat) (handler : Handler) :
    m.registeredFor x <+: (m.registerHandler identifier handler).registeredFor x := by
  unfold registeredFor registerHandler
  by_cases hx : x = identifier
  · subst hx
    simp only [Function.update_self, Option.getD_some]
    exact List.prefix_append _ _
  · simp only [Function.update_of_ne hx]
    exact List.prefix_refl _

theorem Ordered.register (h : m.Ordered) (identifier : Nat) (handler : Handler) :
    (m.registerHandler identifier handler).Ordered where
  done := by
    intro d hd
    obtain ⟨hruns, hle⟩ := h.done d hd
    exact ⟨hruns, hle.trans (registeredFor_register m identifier _ handler)⟩
  running := by
    have hold := h.running
    have hgrow := fun x => registeredFor_register m identifier x handler
    unfold Running at hold ⊢
    show match m.loop with
      | .start e => _
      | .handlers e ran => _
      | .finish e registered ran => _
      | _ => _
    cases hloop : m.loop with
    | start e => rw [hloop] at hold; exact hold
    | handlers e ran =>
        rw [hloop] at hold
        exact ⟨hold.1, hold.2.1.trans (hgrow _), hold.2.2⟩
    | finish e registered ran =>
        rw [hloop] at hold
        exact ⟨hold.1, hold.2.trans (hgrow _)⟩
    | check => trivial
    | idle => trivial
    | raiseEmpty => trivial
    | pop => trivial

/-- The next handler of the list extends what has run. -/
theorem snoc_inOrder {registered : List Handler} {ran : List (Handler × Bool)} {handler : Handler}
    (hle : ran.map Prod.fst <+: registered) (hget : registered[ran.length]? = some handler)
    (used : Bool) : (ran ++ [(handler, used)]).map Prod.fst <+: registered := by
  obtain ⟨rest, rfl⟩ := hle
  rw [List.getElem?_append_right (by simp)] at hget
  rw [List.length_map, Nat.sub_self] at hget
  cases rest with
  | nil => exact absurd hget (by simp)
  | cons x rest =>
      have hx : x = handler := by simpa using hget
      subst hx
      rw [List.map_append]
      exact ⟨rest, by simp⟩

theorem ordered_loopStep (h : m.Ordered) (hl : m.Ledger) (decision : Bool) :
    (m.loopStep decision).Ordered := by
  have hrunning := h.running
  unfold Running at hrunning
  unfold loopStep
  cases hloop : m.loop with
  | check =>
      simp only
      split
      · exact h.moves rfl rfl trivial
      · exact h.moves rfl rfl trivial
  | idle =>
      simp only
      split
      · exact h.moves rfl rfl trivial
      · exact h.moves rfl rfl trivial
  | raiseEmpty => exact h.moves rfl rfl trivial
  | pop =>
      simp only
      split
      · exact h
      · rename_i e rest hqueue
        refine h.moves rfl rfl ?_
        have hmem : e ∈ m.raised := by
          rw [hl.balance, hqueue]
          exact List.mem_append_right _ List.mem_cons_self
        exact (congrArg Event.consumed (hl.fresh e hmem)).symm
  | start e =>
      simp only
      rw [hloop] at hrunning
      split
      · -- no list for this identifier: no handler runs
        exact h.moves rfl rfl ⟨⟨List.prefix_refl _, (fun _ hx => nomatch hx), Or.inr rfl⟩,
          List.nil_prefix⟩
      · exact h.moves rfl rfl ⟨hrunning, List.nil_prefix, fun _ hx => nomatch hx⟩
  | handlers e ran =>
      rw [hloop] at hrunning
      obtain ⟨hfresh, hle, hquiet⟩ := hrunning
      simp only
      split
      · -- the list is exhausted
        rename_i hnone
        refine h.moves rfl rfl ⟨⟨hle, ?_, Or.inr ?_⟩, List.prefix_refl _⟩
        · intro x hx
          exact hquiet x (List.dropLast_subset _ hx)
        · have hlen : (m.registeredFor e.identifier).length ≤ ran.length :=
            List.getElem?_eq_none_iff.mp hnone
          exact hle.eq_of_length_le (by rw [List.length_map]; exact hlen)
      · rename_i handler hget
        obtain ⟨ws, wk, hframe⟩ := m.runHandler_frame e handler
        rw [hframe]
        have hnext := snoc_inOrder hle hget (consumes decision handler)
        split
        · rename_i hconsumed
          refine h.moves rfl rfl ⟨⟨hnext, ?_, Or.inl ⟨_, List.getLast?_concat, ?_⟩⟩,
            List.prefix_refl _⟩
          · intro x hx
            rw [List.dropLast_concat] at hx
            exact hquiet x hx
          · show consumes decision handler = true
            rw [hfresh] at hconsumed
            simpa using hconsumed
        · rename_i hconsumed
          have hunused : consumes decision handler = false := by
            rw [hfresh] at hconsumed
            simpa using hconsumed
          refine h.moves rfl rfl ⟨?_, hnext, ?_⟩
          · show (e.consumed || consumes decision handler) = false
            rw [hfresh, hunused]
            rfl
          · intro x hx
            rcases List.mem_append.mp hx with hx | hx
            · exact hquiet x hx
            · rw [List.mem_singleton.mp hx]
              exact hunused
  | finish e registered ran =>
      rw [hloop] at hrunning
      have hdone : ∀ d ∈ m.dispatched ++ [⟨{ e with processed := true }, registered, ran⟩],
          RunsInOrder d.registered d.ran ∧ d.registered <+: m.registeredFor d.event.identifier := by
        intro d hd
        rcases List.mem_append.mp hd with hd | hd
        · exact h.done d hd
        · rw [List.mem_singleton.mp hd]
          exact hrunning
      simp only
      split
      · exact ⟨hdone, trivial⟩
      · exact ⟨hdone, trivial⟩

theorem ordered_step {c : Call} (h : m.Ordered) (hl : m.Ledger) (hst : Step m c m') :
    m'.Ordered := by
  subst hst
  cases c with
  | raise identifier args keep metaEvent => exact h.frame rfl rfl rfl
  | raiseWait identifier args keep metaEvent thread => exact h.frame rfl rfl rfl
  | wait identifier eid thread => exact h.frame rfl rfl rfl
  | register identifier n => exact h.register identifier _
  | loop decision => exact ordered_loopStep h hl decision

end Ordered

/-! ## §5. The loop dispatches what is queued. -/

/-- `n` steps of the loop, the handlers deciding as `decisions` says. -/
def loopSteps (decisions : Nat → Bool) : Nat → EventManager → EventManager
  | 0, m => m
  | n + 1, m => loopSteps (fun i => decisions (i + 1)) n (m.loopStep (decisions 0))

/-- The loop finishes a dispatch after some steps of its own, whatever the
handlers decide. -/
def Progress (m : EventManager) : Prop :=
  ∀ decisions, ∃ n, (loopSteps decisions n m).dispatched.length = m.dispatched.length + 1

section Progress

variable {m : EventManager}

/-- A step that dispatches nothing leaves the progress to the rest. -/
theorem Progress.after
    (hstep : ∀ d, (m.loopStep d).dispatched = m.dispatched ∧ (m.loopStep d).Progress) :
    m.Progress := by
  intro decisions
  obtain ⟨hsame, hrest⟩ := hstep (decisions 0)
  obtain ⟨n, hn⟩ := hrest (fun i => decisions (i + 1))
  refine ⟨n + 1, ?_⟩
  show (loopSteps _ n (m.loopStep (decisions 0))).dispatched.length = _
  rw [hn, hsame]

theorem progress_finish {e : Event} {registered : List Handler} {ran : List (Handler × Bool)}
    (hloop : m.loop = .finish e registered ran) : m.Progress := by
  intro decisions
  refine ⟨1, ?_⟩
  show (m.loopStep (decisions 0)).dispatched.length = _
  unfold loopStep
  rw [hloop]
  simp only
  split
  · exact List.length_append
  · exact List.length_append

/-- The handler list runs out: induction on the handlers that have not run. -/
theorem progress_handlers {e : Event} {ran : List (Handler × Bool)}
    (hloop : m.loop = .handlers e ran) : m.Progress := by
  generalize hleft : (m.registeredFor e.identifier).length - ran.length = left
  induction left using Nat.strongRecOn generalizing m e ran with
  | _ left ih =>
      apply Progress.after
      intro d
      unfold loopStep
      rw [hloop]
      simp only
      split
      · exact ⟨rfl, progress_finish rfl⟩
      · rename_i handler hget
        obtain ⟨ws, wk, hframe⟩ := m.runHandler_frame e handler
        rw [hframe]
        have hlt : ran.length < (m.registeredFor e.identifier).length :=
          (List.getElem?_eq_some_iff.mp hget).1
        split
        · exact ⟨rfl, progress_finish rfl⟩
        · -- one handler fewer is left
          refine ⟨rfl, ih _ ?_ rfl rfl⟩
          show (m.registeredFor e.identifier).length - (ran ++ [_]).length < left
          rw [List.length_append, List.length_singleton]
          omega

theorem progress_start {e : Event} (hloop : m.loop = .start e) : m.Progress := by
  apply Progress.after
  intro d
  unfold loopStep
  rw [hloop]
  simp only
  split
  · exact ⟨rfl, progress_finish rfl⟩
  · exact ⟨rfl, progress_handlers rfl⟩

theorem progress_pop (hloop : m.loop = .pop) (hqueue : m.queue ≠ []) : m.Progress := by
  apply Progress.after
  intro d
  unfold loopStep
  rw [hloop]
  simp only
  split
  · rename_i hnil
    exact absurd hnil hqueue
  · exact ⟨rfl, progress_start rfl⟩

theorem progress_check (hloop : m.loop = .check) (hqueue : m.queue ≠ []) : m.Progress := by
  apply Progress.after
  intro d
  unfold loopStep
  rw [hloop]
  simp only
  rw [if_neg (fun h => hqueue (List.length_eq_zero_iff.mp h))]
  exact ⟨trivial, progress_pop rfl hqueue⟩

/-- Where a queued `EVENT_QUEUE_EMPTY` is enough to go on. -/
theorem progress_raiseEmpty (hloop : m.loop = .raiseEmpty) : m.Progress := by
  apply Progress.after
  intro d
  unfold loopStep
  rw [hloop]
  refine ⟨rfl, progress_check rfl ?_⟩
  show m.queue ++ [_] ≠ []
  exact List.append_ne_nil_of_right_ne_nil _ (List.cons_ne_nil _ _)

/-- **The loop never gets stuck**: with an event in flight or in the queue it
finishes a dispatch. -/
theorem progress (h : inFlight m.loop ≠ [] ∨ m.queue ≠ []) : m.Progress := by
  cases hloop : m.loop with
  | start e => exact progress_start hloop
  | handlers e ran => exact progress_handlers hloop
  | finish e registered ran => exact progress_finish hloop
  | check =>
      rw [hloop] at h
      exact progress_check hloop (h.resolve_left (fun hne => hne rfl))
  | pop =>
      rw [hloop] at h
      exact progress_pop hloop (h.resolve_left (fun hne => hne rfl))
  | raiseEmpty => exact progress_raiseEmpty hloop
  | idle =>
      rw [hloop] at h
      have hqueue := h.resolve_left (fun hne => hne rfl)
      apply Progress.after
      intro d
      unfold loopStep
      rw [hloop]
      simp only
      split
      · exact ⟨rfl, progress_raiseEmpty rfl⟩
      · exact ⟨rfl, progress_check rfl hqueue⟩

theorem raised_loopStep (m : EventManager) (d : Bool) : m.raised <+: (m.loopStep d).raised := by
  unfold loopStep
  cases m.loop with
  | raiseEmpty => exact List.prefix_append _ _
  | handlers e ran =>
      simp only
      split
      · exact List.prefix_refl _
      · rename_i handler _
        obtain ⟨ws, wk, hframe⟩ := m.runHandler_frame e handler
        have hraised : (m.runHandler e handler).raised = m.raised := by rw [hframe]
        exact ⟨[], (List.append_nil _).trans hraised.symm⟩
  | check => exact List.prefix_refl _
  | idle => simp only; split <;> exact List.prefix_refl _
  | pop => simp only; split <;> exact List.prefix_refl _
  | start e => simp only; split <;> exact List.prefix_refl _
  | finish e registered ran =>
      simp only
      split
      · exact List.prefix_refl _
      · exact List.prefix_append _ _

theorem raised_loopSteps (decisions : Nat → Bool) (n : Nat) (m : EventManager) :
    m.raised <+: (loopSteps decisions n m).raised := by
  induction n generalizing m decisions with
  | zero => exact List.prefix_refl _
  | succ n ih => exact (raised_loopStep m (decisions 0)).trans (ih _ _)

theorem ledger_loopSteps (h : m.Ledger) (decisions : Nat → Bool) (n : Nat) :
    (loopSteps decisions n m).Ledger := by
  induction n generalizing m decisions with
  | zero => exact h
  | succ n ih => exact ih (ledger_loopStep h _) _

theorem loopSteps_add (decisions : Nat → Bool) (a b : Nat) (m : EventManager) :
    loopSteps decisions (a + b) m
      = loopSteps (fun i => decisions (i + a)) b (loopSteps decisions a m) := by
  induction a generalizing m decisions with
  | zero =>
      rw [Nat.zero_add]
      rfl
  | succ a ih =>
      rw [Nat.succ_add]
      show loopSteps _ (a + b) _ = _
      rw [ih]
      have hshift : (fun i => decisions (i + a + 1)) = fun i => decisions (i + (a + 1)) := by
        funext i
        rw [Nat.add_assoc]
      rw [← hshift]
      rfl

/-- Induction on what is still to be dispatched. -/
theorem exists_dispatched_ge (h : m.Ledger) (target : Nat) (htarget : target ≤ m.raised.length)
    (decisions : Nat → Bool) :
    ∃ n, target ≤ (loopSteps decisions n m).dispatched.length := by
  generalize hleft : target - m.dispatched.length = left
  induction left generalizing m decisions with
  | zero => exact ⟨0, by show target ≤ m.dispatched.length; omega⟩
  | succ left ih =>
      -- not everything is dispatched, so something is in flight or queued
      have hpending : inFlight m.loop ≠ [] ∨ m.queue ≠ [] := by
        by_contra hnone
        push Not at hnone
        have hbalance := congrArg List.length h.balance
        rw [hnone.1, hnone.2] at hbalance
        simp at hbalance
        omega
      obtain ⟨n, hn⟩ := progress hpending decisions
      have hle := (raised_loopSteps decisions n m).length_le
      obtain ⟨k, hk⟩ := ih (ledger_loopSteps h decisions n) (by omega)
        (fun i => decisions (i + n)) (by omega)
      exact ⟨n + k, by rw [loopSteps_add]; exact hk⟩

/-- **Every event raised so far is dispatched** after enough steps of the loop. -/
theorem exists_all_dispatched (h : m.Ledger) (decisions : Nat → Bool) :
    ∃ n, m.raised <+: (loopSteps decisions n m).dispatched.map (fun d => d.event.asRaised) := by
  obtain ⟨n, hn⟩ := exists_dispatched_ge h m.raised.length (Nat.le_refl _) decisions
  refine ⟨n, ?_⟩
  have hraised := raised_loopSteps decisions n m
  have hbalance := (ledger_loopSteps h decisions n).balance
  rw [List.append_assoc] at hbalance
  have hdispatched : (loopSteps decisions n m).dispatched.map (fun d => d.event.asRaised)
      <+: (loopSteps decisions n m).raised := by
    rw [hbalance]
    exact List.prefix_append _ _
  exact List.prefix_of_prefix_length_le hraised hdispatched (by rw [List.length_map]; exact hn)

end Progress

/-! ## §6. The waits. -/

/-- `event_processed_handler` is in no handler list. -/
def Unregistered (m : EventManager) : Prop :=
  ∀ identifier, Handler.eventProcessedHandler ∉ m.registeredFor identifier

section Waits

variable {m m' : EventManager}

theorem unregistered_init : init.Unregistered := by
  intro identifier
  show Handler.eventProcessedHandler ∉ (Function.update (fun _ => none) eventSync
    (some [Handler.syncEventHandler]) identifier).getD []
  by_cases hid : identifier = eventSync
  · rw [hid, Function.update_self]
    decide
  · rw [Function.update_of_ne hid]
    decide

theorem unregistered_register (h : m.Unregistered) (identifier n : Nat) :
    (m.registerHandler identifier (.user n)).Unregistered := by
  intro x
  have hold := h x
  unfold registeredFor at hold ⊢
  unfold registerHandler
  by_cases hx : x = identifier
  · subst hx
    simp only [Function.update_self, Option.getD_some, List.mem_append, List.mem_singleton,
      reduceCtorEq, or_false]
    exact hold
  · simp only [Function.update_of_ne hx]
    exact hold

/-- The handler the loop runs next is not the one that releases waits. -/
theorem runHandler_eq (h : m.Unregistered) {e : Event} {i : Nat} {handler : Handler}
    (hget : (m.registeredFor e.identifier)[i]? = some handler) : m.runHandler e handler = m := by
  cases handler with
  | syncEventHandler => rfl
  | eventProcessedHandler => exact absurd (List.mem_of_getElem? hget) (h _)
  | user n => rfl

/-- **No step takes a wait off the list or wakes a thread.** -/
theorem waits_step {c : Call} (h : m.Unregistered) (hst : Step m c m') :
    m'.Unregistered ∧ m.waits <+: m'.waits ∧ m'.woken = m.woken := by
  subst hst
  cases c with
  | raise identifier args keep metaEvent => exact ⟨h, List.prefix_refl _, rfl⟩
  | raiseWait identifier args keep metaEvent thread => exact ⟨h, List.prefix_append _ _, rfl⟩
  | wait identifier eid thread => exact ⟨h, List.prefix_append _ _, rfl⟩
  | register identifier n => exact ⟨unregistered_register h identifier n, List.prefix_refl _, rfl⟩
  | loop decision =>
      show (m.loopStep decision).Unregistered ∧ m.waits <+: (m.loopStep decision).waits
        ∧ (m.loopStep decision).woken = m.woken
      unfold loopStep
      cases m.loop with
      | check => exact ⟨h, List.prefix_refl _, rfl⟩
      | idle => simp only; split <;> exact ⟨h, List.prefix_refl _, rfl⟩
      | raiseEmpty => exact ⟨h, List.prefix_refl _, rfl⟩
      | pop => simp only; split <;> exact ⟨h, List.prefix_refl _, rfl⟩
      | start e => simp only; split <;> exact ⟨h, List.prefix_refl _, rfl⟩
      | finish e registered ran => simp only; split <;> exact ⟨h, List.prefix_refl _, rfl⟩
      | handlers e ran =>
          simp only
          split
          · exact ⟨h, List.prefix_refl _, rfl⟩
          · rename_i handler hget
            rw [runHandler_eq h hget]
            exact ⟨h, List.prefix_refl _, rfl⟩

theorem waits_run {hist : List Call} (h : m.Unregistered) (hrun : Run Step m hist m') :
    m'.Unregistered ∧ m.waits <+: m'.waits ∧ m'.woken = m.woken := by
  refine hrun.invariant (fun x => x.Unregistered ∧ m.waits <+: x.waits ∧ x.woken = m.woken)
    ⟨h, List.prefix_refl _, rfl⟩ ?_
  intro s c s' hs hst
  obtain ⟨hun, hwaits, hwoken⟩ := waits_step hs.1 hst
  exact ⟨hun, hs.2.1.trans hwaits, hwoken.trans hs.2.2⟩

end Waits

/-! ## §7. Whole runs. -/

/-- The `EVENT_PROCESSED_EVENT`s the loop has raised for an event. -/
def processedFor (m : EventManager) (e : Event) : List Event :=
  m.loopRaised.filter (fun p => isProcessed p && p.args == [e.identifier, e.localId])

/-- An `EVENT_PROCESSED_EVENT` the loop raised for `e` has been dispatched. -/
def ProcessedDispatched (m : EventManager) (e : Event) : Prop :=
  ∃ d ∈ m.dispatched, d.event.asRaised ∈ m.processedFor e

/-- **What the waits for `e` are promised** between a state `p` and a later
state `q`: those that match have gone and their threads are awake, the others
are still there. -/
def Released (p q : EventManager) (e : Event) : Prop :=
  (∀ w ∈ p.waits, releases e w = true → w ∉ q.waits ∧ w.thread ∈ q.woken)
    ∧ ∀ w ∈ p.waits, releases e w = false → w ∈ q.waits

section Runs

variable {m : EventManager} {hist : List Call}

theorem run_invariants (hrun : Run Step init hist m) : m.Ledger ∧ m.MetaLog ∧ m.Ordered := by
  refine hrun.invariant (fun m => m.Ledger ∧ m.MetaLog ∧ m.Ordered)
    ⟨ledger_init, metaLog_init, ordered_init⟩ ?_
  intro s c s' ⟨hl, hm, ho⟩ hst
  exact ⟨ledger_step hl hst, metaLog_step hm hl hst, ordered_step ho hl hst⟩

/-- The local ids of the dispatches increase. -/
theorem Ledger.dispatched_sorted (h : m.Ledger) :
    m.dispatched.Pairwise (fun d d' => d.event.localId < d'.event.localId) := by
  have hsub : (m.dispatched.map (fun d => d.event.asRaised)).Sublist m.raised := by
    rw [h.balance, List.append_assoc]
    exact List.sublist_append_left _ _
  have hsorted := h.sorted.sublist hsub
  rw [List.pairwise_map] at hsorted
  exact hsorted

/-- **One `EVENT_PROCESSED_EVENT` per ordinary dispatch**, raised after it. -/
theorem processedFor_eq (hl : m.Ledger) (hm : m.MetaLog) {d : Dispatch} (hd : d ∈ m.dispatched)
    (hordinary : d.event.metaEvent = false) :
    ∃ p, m.processedFor d.event = [p] ∧ p ∈ m.raised ∧ p.metaEvent = true
      ∧ d.event.localId < p.localId := by
  -- no two dispatches have the same id, so their argument pairs differ
  have hpairs : ((m.dispatched.filter ordinary).map
      (fun d => [d.event.identifier, d.event.localId])).Nodup := by
    have hsorted := hl.dispatched_sorted.sublist (List.filter_sublist (p := ordinary))
    apply List.pairwise_map.mpr
    refine hsorted.imp ?_
    intro a b hab heq
    injection heq with _ heq
    injection heq with hid _
    exact absurd hid (Nat.ne_of_lt hab)
  have hmem : [d.event.identifier, d.event.localId] ∈ (m.dispatched.filter ordinary).map
      (fun d => [d.event.identifier, d.event.localId]) := by
    refine List.mem_map.mpr ⟨d, List.mem_filter.mpr ⟨hd, ?_⟩, rfl⟩
    unfold ordinary
    rw [hordinary]
    rfl
  -- the pair of `d` is there once, and the log has the same pairs
  have hcount := List.count_eq_one_of_mem hpairs hmem
  rw [← hm.processedEvents, List.count_eq_length_filter, List.filter_map, List.length_map,
    List.filter_filter] at hcount
  have hlen : (m.processedFor d.event).length = 1 := by
    unfold processedFor
    rw [← hcount]
    congr 1
    apply List.filter_congr
    intro x _
    exact Bool.and_comm _ _
  obtain ⟨p, hp⟩ := List.length_eq_one_iff.mp hlen
  have hin : p ∈ m.processedFor d.event := by
    rw [hp]
    exact List.mem_singleton_self p
  obtain ⟨hloop, htest⟩ := List.mem_filter.mp hin
  have hargs : p.args = [d.event.identifier, d.event.localId] := by
    have h2 := (Bool.and_eq_true_iff.mp htest).2
    exact eq_of_beq h2
  exact ⟨p, hp, hm.queued.subset hloop, hm.isMeta p hloop, hm.later p hloop _ _ hargs⟩

end Runs

end EventManager

open EventManager

/-- **Event dispatch over whole runs**, for any interleaving of the raisers, the
registrations and the loop.

  1. what was raised is, in the order of the strictly increasing local ids, what
     was dispatched, what is in flight and what is queued, so that no event is
     dispatched twice or out of order or before one raised earlier;
  2. and the loop gets to all of it, whatever the handlers decide;
  3. a dispatch runs the registered handlers in order, up to and including the
     first that consumes;
  4. a dispatched event that is no meta event has exactly one
     `EVENT_PROCESSED_EVENT`, queued after it;
  5. the loop raises meta events only, at most two for each such event. -/
theorem event_dispatch {hist : List Call} {m : EventManager} (hrun : Run Step init hist m) :
    (m.raised = m.dispatched.map (fun d => d.event.asRaised)
        ++ (inFlight m.loop).map Event.asRaised ++ m.queue
      ∧ m.raised.Pairwise (fun e e' => e.localId < e'.localId))
    ∧ (∀ decisions, ∃ n,
        m.raised <+: (loopSteps decisions n m).dispatched.map (fun d => d.event.asRaised))
    ∧ (∀ d ∈ m.dispatched,
        RunsInOrder d.registered d.ran ∧ d.registered <+: m.registeredFor d.event.identifier)
    ∧ (∀ d ∈ m.dispatched, d.event.metaEvent = false →
        ∃ p, m.processedFor d.event = [p] ∧ p ∈ m.raised ∧ p.metaEvent = true
          ∧ d.event.localId < p.localId)
    ∧ (∀ e ∈ m.loopRaised, e.metaEvent = true)
    ∧ m.loopRaised.length ≤ 2 * (m.dispatched.filter ordinary).length := by
  obtain ⟨hl, hm, ho⟩ := run_invariants hrun
  refine ⟨⟨hl.balance, hl.sorted⟩, fun decisions => exists_all_dispatched hl decisions, ho.done,
    ?_, hm.isMeta, hm.length_le⟩
  intro d hd hordinary
  exact processedFor_eq hl hm hd hordinary

/-- Two events, of which the first has two handlers and is consumed by the first of them;
both are dispatched, and their `EVENT_PROCESSED_EVENT`s are in the queue. -/
theorem event_dispatch_two :
    ∃ m, Run Step init ([.register 5 1, .register 5 2, .raise 5 [] false false,
        .raise 7 [] false false, .loop false, .loop false, .loop false, .loop true, .loop false,
        .loop false, .loop false, .loop false, .loop false].reverse ++ []) m
      ∧ m.dispatched.map Dispatch.ran = [[(.user 1, true)], []] ∧ m.queue.length = 2
      ∧ (∀ d ∈ m.dispatched,
          RunsInOrder d.registered d.ran ∧ d.registered <+: m.registeredFor d.event.identifier)
      ∧ m.loopRaised.length ≤ 2 * (m.dispatched.filter ordinary).length := by
  let calls : List Call := [.register 5 1, .register 5 2, .raise 5 [] false false,
    .raise 7 [] false false, .loop false, .loop false, .loop false, .loop true, .loop false,
    .loop false, .loop false, .loop false, .loop false]
  have hrun : Run Step init (calls.reverse ++ []) (calls.foldl next init) :=
    Run.of_foldl Run.init calls
  obtain ⟨-, -, hdone, -, -, hmeta⟩ := event_dispatch hrun
  exact ⟨_, hrun, rfl, rfl, hdone, hmeta⟩

/-- **The waits over whole runs.**  Between a state `p` before the dispatch of
the `EVENT_PROCESSED_EVENT` of `e` and a state `q` after it, the waits for `e`
get what they are promised exactly when there are none. -/
theorem event_waits_iff {before after : List Call} {p q : EventManager} {e : Event}
    (hrun : Run Step init before p) (_ : ¬ p.ProcessedDispatched e)
    (hrun' : Run Step p after q) (_ : q.ProcessedDispatched e) :
    Released p q e ↔ ∀ w ∈ p.waits, releases e w = false := by
  have hp := (waits_run unregistered_init hrun).1
  obtain ⟨_, hwaits, _⟩ := waits_run hp hrun'
  constructor
  · intro hreleased w hw
    by_contra hmatch
    have hgone := (hreleased.1 w hw (by simpa using hmatch)).1
    exact hgone (hwaits.subset hw)
  · intro hnone
    refine ⟨fun w hw hmatch => ?_, fun w hw _ => hwaits.subset hw⟩
    rw [hnone w hw] at hmatch
    exact absurd hmatch (by simp)

theorem foldl_runs (before after : List Call) :
    Run Step init (before.reverse ++ []) (before.foldl next init)
      ∧ Run Step (before.foldl next init) (after.reverse ++ [])
        (after.foldl next (before.foldl next init)) :=
  ⟨Run.of_foldl Run.init before, Run.of_foldl Run.init after⟩

/-- A thread waits for another event than the one raised and dispatched. -/
theorem event_waits_iff_other :
    ∃ p q, Run Step init ([.wait 9 0 1, .raise 5 [] false false].reverse ++ []) p
      ∧ Run Step p (List.replicate 8 (.loop false)) q
      ∧ Released p q { Event.new 5 [] false false with localId := 1 } := by
  let before : List Call := [.wait 9 0 1, .raise 5 [] false false]
  let after : List Call := List.replicate 8 (.loop false)
  obtain ⟨hrun, hrun'⟩ := foldl_runs before after
  have hnot : ¬ ProcessedDispatched (before.foldl next init)
      { Event.new 5 [] false false with localId := 1 } := by
    intro hd
    obtain ⟨d, hd, _⟩ := hd
    exact nomatch hd
  have hdone : ProcessedDispatched (after.foldl next (before.foldl next init))
      { Event.new 5 [] false false with localId := 1 } := by
    unfold ProcessedDispatched
    decide
  refine ⟨_, _, hrun, hrun', (event_waits_iff hrun hnot hrun' hdone).mpr ?_⟩
  intro w hw
  have hw' : w = ⟨9, 0, 1⟩ := List.mem_singleton.mp hw
  rw [hw']
  decide

/-- **A thread that is never woken**: it raises an event and waits for it, and
after the event and its `EVENT_PROCESSED_EVENT` have been dispatched its `Wait`
is still queued. -/
theorem raise_wait_never_released :
    ¬ ∀ (before after : List Call) (p q : EventManager) (e : Event),
        Run Step init before p → ¬ p.ProcessedDispatched e → Run Step p after q →
        q.ProcessedDispatched e → Released p q e := by
  intro hclaim
  let before : List Call := [.raiseWait 5 [] false false 1]
  let after : List Call := List.replicate 8 (.loop false)
  obtain ⟨hrun, hrun'⟩ := foldl_runs before after
  have hnot : ¬ ProcessedDispatched (before.foldl next init)
      { Event.new 5 [] false false with localId := 1 } := by
    intro hd
    obtain ⟨d, hd, _⟩ := hd
    exact nomatch hd
  have hdone : ProcessedDispatched (after.foldl next (before.foldl next init))
      { Event.new 5 [] false false with localId := 1 } := by
    unfold ProcessedDispatched
    decide
  have hreleased := hclaim _ _ _ _ _ hrun hnot hrun' hdone
  have hgone := (hreleased.1 ⟨5, 1, 1⟩ (List.mem_singleton_self _) (by decide)).1
  exact hgone (List.mem_singleton_self _)

end MierOS.Events
