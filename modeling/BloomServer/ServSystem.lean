import BloomServer.ServCalls
import BloomServer.Library.LabelledRun
import Mathlib.Logic.Relation

/-! Many clients of one server, whose calls are run by the workers of a thread manager: bytes on every
connection, refining calls that are made, run side by side and answered. -/
namespace BloomServer
open ByteCodec FieldProtocol LabelledRun Relation

/-- `ServIf`: what the handler of a method may do to the server and end with, an exception by its
`what()`, when nothing else runs. -/
abbrev ServIf (σ : Type) := (m : Method) → m.Args → σ → Except FieldProtocol.Bytes m.Result → σ → Prop

/-- `ServHandler`, as far as its methods return. `set_mem` and `delete_blooms_all` end without a
value, so that any may come back. -/
def ServHandler.serv (E : Env) : ServIf Store
  | .add, (a : AddArgs), σ, outcome, σ' => ∃ mem r, outcome = .ok (Int16.ofInt r) ∧
      Returns E σ (.add a.key.cStr a.maxElements.toInt64.toUInt64 (Float.ofBits a.falseRate) mem,
        r) σ'
  | .fill, (a : UrlsArgs), σ, outcome, σ' =>
      ∃ rs, outcome = .ok rs ∧ ServHandler.fill E a.key a.vectorUrl σ = .ok (rs, σ')
  | .get, (a : UrlsArgs), σ, outcome, σ' =>
      ∃ rs, outcome = .ok rs ∧ ServHandler.get E a.key a.vectorUrl σ = .ok (rs, σ')
  | .getStats, _, σ, outcome, σ' | .getBloomsStats, _, σ, outcome, σ'
  | .getBloomStats, _, σ, outcome, σ' => outcome = .ok [] ∧ σ' = σ
  | .getOne, (a : UrlArgs), σ, outcome, σ' => ∃ r, outcome = .ok (Int16.ofInt r) ∧
      Returns E σ (.get a.key.cStr a.url.cStr, r) σ'
  | .fillOne, (a : UrlArgs), σ, outcome, σ' => ∃ r, outcome = .ok (Int16.ofInt r) ∧
      Returns E σ (.set a.key.cStr a.url.cStr, r) σ'
  | .deleteBlooms, (a : KeyArgs), σ, outcome, σ' => ∃ r, outcome = .ok (Int16.ofInt r) ∧
      Returns E σ (.delete a.key.cStr, r) σ'
  | .setMem, _, σ, outcome, σ' | .deleteBloomsAll, _, σ, outcome, σ' =>
      (∃ r : Int16, outcome = .ok r) ∧ σ' = σ

/-- A handler as the workers run it: where a call starts, what one step makes of a worker and of the
server that all of them share, and what a worker may end with. -/
structure ServThread (σ : Type) where
  Place : Method → Type
  start : (m : Method) → m.Args → Place m
  Step : (m : Method) → Place m × σ → Place m × σ → Prop
  Done : (m : Method) → Place m → Except FieldProtocol.Bytes m.Result → Prop

/-- From its place on a worker alone can end with the outcome. -/
def ServThread.Ends {σ : Type} (H : ServThread σ) (m : Method) (place : H.Place m) (s : σ)
    (outcome : Except FieldProtocol.Bytes m.Result) (s' : σ) : Prop :=
  ∃ last, ReflTransGen (H.Step m) (place, s) (last, s') ∧ H.Done m last outcome

/-- What the handler does when no other worker comes between its steps. -/
def ServThread.alone {σ : Type} (H : ServThread σ) : ServIf σ := fun m args s outcome s' =>
  H.Ends m (H.start m args) s outcome s'

abbrev ConnId := ℕ

/-- A worker with the call it has taken. -/
structure ServWorker {σ : Type} (H : ServThread σ) where
  method : Method
  seqid : Int32
  args : method.Args
  place : H.Place method

/-- A connection, whose client waits in `recv_<method>` for the pending method. While a worker has a
call of it, no further one is read. -/
structure ServConn {σ : Type} (H : ServThread σ) where
  toServer : FieldProtocol.Bytes
  toClient : FieldProtocol.Bytes
  pending : Option Method
  worker : Option (ServWorker H)

structure ServSystem {σ : Type} (H : ServThread σ) where
  state : σ
  conn : ConnId → ServConn H

def ServConn.fresh {σ : Type} {H : ServThread σ} : ServConn H := ⟨[], [], none, none⟩

def ServSystem.start {σ : Type} {H : ServThread σ} (state : σ) : ServSystem H := ⟨state, fun _ => .fresh⟩

inductive ServEvent
  | call (c : ConnId) (m : Method) (args : m.Args)
  | take (c : ConnId) (m : Method) (args : m.Args)
  | work (c : ConnId)
  | answer (c : ConnId) (m : Method) (args : m.Args) (outcome : Except FieldProtocol.Bytes m.Result)
  | finish (c : ConnId) (m : Method) (result : CallEnd m.Result)

/-- A client sends a call, a worker takes it off the connection, does a step of it or ends with the
answer, or a client gets the end of its call. -/
inductive ServStep {σ : Type} {H : ServThread σ} (T : Thrift) :
    ServSystem H → ServEvent → ServSystem H → Prop
  | call {s c m} {args : m.Args} (idle : (s.conn c).pending = none) :
      ServStep T s (.call c m args) { s with
        conn := Function.update s.conn c { s.conn c with
          toServer := (s.conn c).toServer ++ ServClient.send T m args, pending := some m } }
  | take {s c m seqid} {args : m.Args} {rest} (free : (s.conn c).worker = none)
      (read : ServProcessor.read T (s.conn c).toServer = some (.call m seqid args, rest)) :
      ServStep T s (.take c m args) { s with
        conn := Function.update s.conn c { s.conn c with
          toServer := rest, worker := some ⟨m, seqid, args, H.start m args⟩ } }
  | work {s c m seqid} {args : m.Args} {place place' : H.Place m} {state}
      (works : (s.conn c).worker = some ⟨m, seqid, args, place⟩)
      (run : H.Step m (place, s.state) (place', state)) :
      ServStep T s (.work c) ⟨state, Function.update s.conn c { s.conn c with
        worker := some ⟨m, seqid, args, place'⟩ }⟩
  | answer {s c m seqid} {args : m.Args} {place : H.Place m} {outcome}
      (works : (s.conn c).worker = some ⟨m, seqid, args, place⟩) (done : H.Done m place outcome) :
      ServStep T s (.answer c m args outcome) { s with
        conn := Function.update s.conn c { s.conn c with
          toClient := (s.conn c).toClient ++ ServProcessor.answer T m seqid outcome
          worker := none } }
  | finish {s c m result rest} (waits : (s.conn c).pending = some m)
      (read : ServClient.recv T m (s.conn c).toClient = some (result, rest)) :
      ServStep T s (.finish c m result) { s with
        conn := Function.update s.conn c { s.conn c with toClient := rest, pending := none } }

/-- A call is taken only when no worker has another one. -/
def ServSystem.OneAtATime {σ : Type} {H : ServThread σ} (s : ServSystem H) : ServEvent → Prop
  | .take _ _ _ => ∀ c, (s.conn c).worker = none
  | .call _ _ _ | .work _ | .answer _ _ _ _ | .finish _ _ _ => True

/-! ### Calls without bytes -/

/-- Where a client is with its call. -/
inductive CallState {σ : Type} (H : ServThread σ)
  | idle
  | called (m : Method) (args : m.Args)
  | running (m : Method) (args : m.Args) (place : H.Place m)
  | executed (m : Method) (outcome : Except FieldProtocol.Bytes m.Result)

structure CallSystem {σ : Type} (H : ServThread σ) where
  state : σ
  client : ConnId → CallState H

def CallSystem.start {σ : Type} {H : ServThread σ} (state : σ) : CallSystem H := ⟨state, fun _ => .idle⟩

inductive CallStep {σ : Type} (H : ServThread σ) : CallSystem H → ServEvent → CallSystem H → Prop
  | call {s c m} {args : m.Args} (idle : s.client c = .idle) :
      CallStep H s (.call c m args) { s with client := Function.update s.client c (.called m args) }
  | take {s c m} {args : m.Args} (called : s.client c = .called m args) :
      CallStep H s (.take c m args)
        { s with client := Function.update s.client c (.running m args (H.start m args)) }
  | work {s c m} {args : m.Args} {place place' : H.Place m} {state}
      (running : s.client c = .running m args place)
      (run : H.Step m (place, s.state) (place', state)) :
      CallStep H s (.work c) ⟨state, Function.update s.client c (.running m args place')⟩
  | answer {s c m} {args : m.Args} {place : H.Place m} {outcome}
      (running : s.client c = .running m args place) (done : H.Done m place outcome) :
      CallStep H s (.answer c m args outcome)
        { s with client := Function.update s.client c (.executed m outcome) }
  | finish {s c m} {outcome : Except FieldProtocol.Bytes m.Result}
      (executed : s.client c = .executed m outcome) :
      CallStep H s (.finish c m (callEnd outcome))
        { s with client := Function.update s.client c .idle }

/-- The worker of a call that is running. -/
def CallState.worker {σ : Type} {H : ServThread σ} : CallState H → Option (ServWorker H)
  | .running m args place => some ⟨m, 0, args, place⟩
  | .idle | .called _ _ | .executed _ _ => none

def CallSystem.OneAtATime {σ : Type} {H : ServThread σ} (s : CallSystem H) : ServEvent → Prop
  | .take _ _ _ => ∀ c, (s.client c).worker = none
  | .call _ _ _ | .work _ | .answer _ _ _ _ | .finish _ _ _ => True

/-- The bytes and the worker of a connection are those of the call it carries. -/
inductive ServConn.Carries {σ : Type} {H : ServThread σ} (T : Thrift) :
    ServConn H → CallState H → Prop
  | idle : Carries T ⟨[], [], none, none⟩ .idle
  | called {m} {args : m.Args} (fits : m.ArgsFit args) :
      Carries T ⟨ServClient.send T m args, [], some m, none⟩ (.called m args)
  | running {m} {args : m.Args} {place : H.Place m} :
      Carries T ⟨[], [], some m, some ⟨m, 0, args, place⟩⟩ (.running m args place)
  | executed {m} {outcome : Except FieldProtocol.Bytes m.Result} (fits : m.OutcomeFits outcome) :
      Carries T ⟨[], ServProcessor.answer T m 0 outcome, some m, none⟩ (.executed m outcome)

structure ServSystem.Refines {σ : Type} {H : ServThread σ} (T : Thrift) (s : ServSystem H)
    (t : CallSystem H) : Prop where
  state : s.state = t.state
  conn : ∀ c, (s.conn c).Carries T (t.client c)

/-- Arguments and outcomes have lengths that fit the counts on the wire. -/
def ServEvent.Fits : ServEvent → Prop
  | .call _ m args => m.ArgsFit args
  | .answer _ m _ outcome => m.OutcomeFits outcome
  | .take _ _ _ | .work _ | .finish _ _ _ => True

section Refinement

variable {σ : Type} {T : Thrift} {H : ServThread σ} {s s' : ServSystem H} {t t' : CallSystem H}
  {ev : ServEvent}

theorem ServSystem.Refines.idle {c : ConnId} (refines : s.Refines T t)
    (idle : t.client c = .idle) : (s.conn c).pending = none := by
  have carries := refines.conn c
  rw [idle] at carries
  generalize s.conn c = conn at carries
  cases carries
  rfl

theorem ServConn.Carries.worker {conn : ServConn H} {call : CallState H}
    (carries : conn.Carries T call) : conn.worker = call.worker := by
  cases carries <;> rfl

theorem ServSystem.Refines.oneAtATime_iff (refines : s.Refines T t) (ev : ServEvent) :
    s.OneAtATime ev ↔ t.OneAtATime ev := by
  cases ev with
  | take c m args => exact forall_congr' fun c' => by rw [(refines.conn c').worker]
  | call | work | answer | finish => exact Iff.rfl

theorem refines_update {c : ConnId} {conn : ServConn H} {call : CallState H} {state : σ}
    (refines : s.Refines T t) (carries : conn.Carries T call) :
    ServSystem.Refines T ⟨state, Function.update s.conn c conn⟩
      ⟨state, Function.update t.client c call⟩ := by
  refine ⟨rfl, fun c' => ?_⟩
  by_cases same : c' = c
  · subst same
    simp only [Function.update_self]
    exact carries
  · simp only [Function.update_of_ne same]
    exact refines.conn c'

/-- The step lemma: no bytes are ever left over, and none are missing. -/
theorem ServSystem.Refines.step (lawful : T.Lawful) (refines : s.Refines T t) (fits : ev.Fits)
    (step : ServStep T s ev s') : ∃ t', CallStep H t ev t' ∧ s'.Refines T t' := by
  obtain ⟨same, conns⟩ := refines
  have refines : s.Refines T t := ⟨same, conns⟩
  cases step with
  | @call c m args idle =>
      have carries := conns c
      generalize s.conn c = conn at idle carries
      generalize here : t.client c = call at carries
      cases carries with
      | idle =>
          refine ⟨_, .call here, ?_⟩
          rw [same]
          exact refines_update refines (.called fits)
      | called | running | executed => cases idle
  | @take c m seqid args rest free read =>
      have carries := conns c
      generalize s.conn c = conn at free read carries
      generalize here : t.client c = call at carries
      cases carries with
      | idle => cases (ServProcessor.read_nil lawful).symm.trans read
      | called short =>
          have sent := ServProcessor.read_send lawful short []
          rw [List.append_nil] at sent
          cases sent.symm.trans read
          refine ⟨_, .take here, ?_⟩
          rw [same]
          exact refines_update refines .running
      | running => cases free
      | executed => cases (ServProcessor.read_nil lawful).symm.trans read
  | @work c m seqid args place place' state works run =>
      have carries := conns c
      generalize s.conn c = conn at works carries
      generalize here : t.client c = call at carries
      cases carries with
      | running =>
          cases works
          rw [same] at run
          exact ⟨_, .work here run, refines_update refines .running⟩
      | idle | called | executed => cases works
  | @answer c m seqid args place outcome works done =>
      have carries := conns c
      generalize s.conn c = conn at works carries
      generalize here : t.client c = call at carries
      cases carries with
      | running =>
          cases works
          refine ⟨_, .answer here done, ?_⟩
          rw [same]
          exact refines_update refines (.executed fits)
      | idle | called | executed => cases works
  | @finish c m result rest waits read =>
      have carries := conns c
      generalize s.conn c = conn at waits read carries
      generalize here : t.client c = call at carries
      cases carries with
      | idle => cases waits
      | called | running => cases (ServClient.recv_nil lawful _).symm.trans read
      | executed short =>
          cases waits
          have got := ServClient.recv_answer lawful 0 short []
          rw [List.append_nil] at got
          cases got.symm.trans read
          refine ⟨_, .finish here, ?_⟩
          rw [same]
          exact refines_update refines .idle

/-- Conversely every step without bytes can be taken with them. -/
theorem ServSystem.Refines.lift (lawful : T.Lawful) (refines : s.Refines T t)
    (ev : ServEvent) (fits : ev.Fits) (step : CallStep H t ev t') :
    ∃ s', ServStep T s ev s' ∧ s'.Refines T t' := by
  cases step with
  | @call c m args idle =>
      have carries := refines.conn c
      rw [idle] at carries
      generalize here : s.conn c = conn at carries
      cases carries
      have waits : (s.conn c).pending = none := congrArg ServConn.pending here
      refine ⟨_, .call waits, ?_⟩
      rw [here, refines.state]
      exact refines_update refines (.called fits)
  | @take c m args called =>
      have carries := refines.conn c
      rw [called] at carries
      generalize here : s.conn c = conn at carries
      cases carries with
      | called short =>
          have read := ServProcessor.read_send lawful short []
          rw [List.append_nil] at read
          have bytes := congrArg (fun conn => ServProcessor.read T conn.toServer) here
          refine ⟨_, .take (congrArg ServConn.worker here) (bytes.trans read), ?_⟩
          rw [here, refines.state]
          exact refines_update refines .running
  | @work c m args place place' state running run =>
      have carries := refines.conn c
      rw [running] at carries
      generalize here : s.conn c = conn at carries
      cases carries
      rw [← refines.state] at run
      refine ⟨_, .work (congrArg ServConn.worker here) run, ?_⟩
      rw [here]
      exact refines_update refines .running
  | @answer c m args place outcome running done =>
      have carries := refines.conn c
      rw [running] at carries
      generalize here : s.conn c = conn at carries
      cases carries
      refine ⟨_, .answer (congrArg ServConn.worker here) done, ?_⟩
      rw [here, refines.state]
      exact refines_update refines (.executed fits)
  | @finish c m outcome executed =>
      have carries := refines.conn c
      rw [executed] at carries
      generalize here : s.conn c = conn at carries
      cases carries with
      | executed short =>
          have got := ServClient.recv_answer lawful 0 short []
          rw [List.append_nil] at got
          have bytes := congrArg (fun conn => ServClient.recv T m conn.toClient) here
          refine ⟨_, .finish (congrArg ServConn.pending here) (bytes.trans got), ?_⟩
          rw [here, refines.state]
          exact refines_update refines .idle

theorem refines_start (state : σ) : ServSystem.Refines T (.start state) (.start state : CallSystem H) :=
  ⟨rfl, fun _ => .idle⟩

theorem fits_run {α : Type} {R : α → ServEvent → α → Prop} {a b : α} {E : List ServEvent}
    (run : Run R a E b) (fits : ∀ ev ∈ E, ev.Fits) : Run (Guarded (fun _ ev => ev.Fits) R) a E b := by
  apply run.guarded
  intro l₁ l₂ ev _ split _
  exact fits ev (split ▸ List.mem_append_right l₂ List.mem_cons_self)

/-- The run lemma. -/
theorem refines_of_run (lawful : T.Lawful) {state : σ} {E : List ServEvent}
    (run : Run (ServStep T) (.start state) E s) (fits : ∀ ev ∈ E, ev.Fits) :
    ∃ t, Run (CallStep H) (.start state) E t ∧ s.Refines T t := by
  apply (fits_run run fits).simulated (S := ServSystem.Refines T) _ (refines_start state)
  exact fun _ _ _ _ refines step => refines.step lawful step.1 step.2

theorem ServSystem.Refines.lift_run (lawful : T.Lawful) {E : List ServEvent} (refines : s.Refines T t)
    (run : Run (CallStep H) t E t') (fits : ∀ ev ∈ E, ev.Fits) :
    ∃ s', Run (ServStep T) s E s' ∧ s'.Refines T t' := by
  apply (fits_run run fits).simulated (S := fun t s => ServSystem.Refines T s t) _ refines
  exact fun _ _ _ _ refines step => refines.lift lawful _ step.1 step.2

/-- With one worker at a time on one side it is so on the other. -/
theorem refines_of_oneAtATime (lawful : T.Lawful) {state : σ} {E : List ServEvent}
    (run : Run (Guarded ServSystem.OneAtATime (ServStep T)) (.start state) E s)
    (fits : ∀ ev ∈ E, ev.Fits) :
    ∃ t, Run (Guarded CallSystem.OneAtATime (CallStep H)) (.start state) E t ∧ s.Refines T t := by
  apply (fits_run run fits).simulated (S := ServSystem.Refines T) _ (refines_start state)
  rintro s ev s' t refines ⟨fits, alone, step⟩
  obtain ⟨t', step', refines'⟩ := refines.step lawful fits step
  exact ⟨t', ⟨(refines.oneAtATime_iff ev).mp alone, step'⟩, refines'⟩

theorem ServSystem.Refines.lift_oneAtATime (lawful : T.Lawful) {state : σ} {E : List ServEvent}
    (run : Run (Guarded CallSystem.OneAtATime (CallStep H)) (.start state) E t)
    (fits : ∀ ev ∈ E, ev.Fits) :
    ∃ s, Run (Guarded ServSystem.OneAtATime (ServStep T)) (.start state) E s ∧ s.Refines T t := by
  apply (fits_run run fits).simulated (S := fun t s => ServSystem.Refines T s t) _ (refines_start state)
  rintro t ev t' s refines ⟨fits, alone, step⟩
  obtain ⟨s', step', refines'⟩ := refines.lift lawful ev fits step
  exact ⟨s', ⟨(refines.oneAtATime_iff ev).mpr alone, step'⟩, refines'⟩

end Refinement

/-! ### What a client sees -/

/-- A call with its arguments. -/
abbrev ServCall := (m : Method) × m.Args

/-- A call with the outcome of its execution. -/
abbrev Execution := (m : Method) × (m.Args × Except FieldProtocol.Bytes m.Result)

def Execution.call (x : Execution) : ServCall := ⟨x.1, x.2.1⟩

def Execution.end (x : Execution) : (m : Method) × CallEnd m.Result := ⟨x.1, callEnd x.2.2⟩

/-- The calls of a client, newest first. -/
def callsOf (c : ConnId) : List ServEvent → List ServCall
  | [] => []
  | .call c' m args :: E => if c' = c then ⟨m, args⟩ :: callsOf c E else callsOf c E
  | .take _ _ _ :: E | .work _ :: E | .answer _ _ _ _ :: E | .finish _ _ _ :: E => callsOf c E

/-- The calls of a client that a worker took. -/
def takenOf (c : ConnId) : List ServEvent → List ServCall
  | [] => []
  | .take c' m args :: E => if c' = c then ⟨m, args⟩ :: takenOf c E else takenOf c E
  | .call _ _ _ :: E | .work _ :: E | .answer _ _ _ _ :: E | .finish _ _ _ :: E => takenOf c E

/-- The calls of a client that a worker brought to their end. -/
def executionsOf (c : ConnId) : List ServEvent → List Execution
  | [] => []
  | .answer c' m args outcome :: E =>
      if c' = c then ⟨m, args, outcome⟩ :: executionsOf c E else executionsOf c E
  | .call _ _ _ :: E | .take _ _ _ :: E | .work _ :: E | .finish _ _ _ :: E => executionsOf c E

/-- The ends of calls that a client has seen. -/
def endsOf (c : ConnId) : List ServEvent → List ((m : Method) × CallEnd m.Result)
  | [] => []
  | .finish c' m result :: E => if c' = c then ⟨m, result⟩ :: endsOf c E else endsOf c E
  | .call _ _ _ :: E | .take _ _ _ :: E | .work _ :: E | .answer _ _ _ _ :: E => endsOf c E

/-- The calls of a client, those a worker took, its executions and the ends it has seen go together,
up to the call it waits for. -/
inductive CallState.Matches {σ : Type} {H : ServThread σ} : CallState H → List ServCall →
    List ServCall → List Execution → List ((m : Method) × CallEnd m.Result) → Prop
  | idle {xs : List Execution} :
      Matches .idle (xs.map Execution.call) (xs.map Execution.call) xs (xs.map Execution.end)
  | called {m} {args : m.Args} {xs : List Execution} :
      Matches (.called m args) (⟨m, args⟩ :: xs.map Execution.call) (xs.map Execution.call) xs
        (xs.map Execution.end)
  | running {m} {args : m.Args} {place : H.Place m} {xs : List Execution} :
      Matches (.running m args place) (⟨m, args⟩ :: xs.map Execution.call)
        (⟨m, args⟩ :: xs.map Execution.call) xs (xs.map Execution.end)
  | executed {m} {args : m.Args} {outcome : Except FieldProtocol.Bytes m.Result} {xs : List Execution} :
      Matches (.executed m outcome) (⟨m, args⟩ :: xs.map Execution.call)
        (⟨m, args⟩ :: xs.map Execution.call) (⟨m, args, outcome⟩ :: xs) (xs.map Execution.end)

namespace CallState.Matches

variable {σ : Type} {H : ServThread σ} {m : Method} {args : m.Args} {place place' : H.Place m}
  {outcome : Except FieldProtocol.Bytes m.Result} {calls taken : List ServCall} {xs : List Execution}
  {ends : List ((m : Method) × CallEnd m.Result)}

theorem call (held : (.idle : CallState H).Matches calls taken xs ends) :
    (.called m args : CallState H).Matches (⟨m, args⟩ :: calls) taken xs ends := by
  cases held
  exact .called

theorem take (held : (.called m args : CallState H).Matches calls taken xs ends) :
    (CallState.running m args place).Matches calls (⟨m, args⟩ :: taken) xs ends := by
  cases held
  exact .running

theorem work (held : (CallState.running m args place).Matches calls taken xs ends) :
    (CallState.running m args place').Matches calls taken xs ends := by
  cases held
  exact .running

theorem answer (held : (CallState.running m args place).Matches calls taken xs ends) :
    (.executed m outcome : CallState H).Matches calls taken (⟨m, args, outcome⟩ :: xs) ends := by
  cases held
  exact .executed

theorem finish (held : (.executed m outcome : CallState H).Matches calls taken xs ends) :
    (.idle : CallState H).Matches calls taken xs (⟨m, callEnd outcome⟩ :: ends) := by
  cases held with
  | @executed _ args _ xs => exact @Matches.idle _ _ (⟨m, args, outcome⟩ :: xs)

end CallState.Matches

section Clients

variable {σ : Type} {H : ServThread σ} {t t' : CallSystem H} {ev : ServEvent} {E : List ServEvent}

def ServEvent.client : ServEvent → ConnId
  | .call c _ _ | .take c _ _ | .work c | .answer c _ _ _ | .finish c _ _ => c

/-- Steps for other clients change nothing. -/
theorem seen_of_ne {c : ConnId} (other : ev.client ≠ c) (E : List ServEvent) :
    callsOf c (ev :: E) = callsOf c E ∧ takenOf c (ev :: E) = takenOf c E ∧
      executionsOf c (ev :: E) = executionsOf c E ∧ endsOf c (ev :: E) = endsOf c E := by
  cases ev with
  | call => exact ⟨if_neg other, rfl, rfl, rfl⟩
  | take => exact ⟨rfl, if_neg other, rfl, rfl⟩
  | work => exact ⟨rfl, rfl, rfl, rfl⟩
  | answer => exact ⟨rfl, rfl, if_neg other, rfl⟩
  | finish => exact ⟨rfl, rfl, rfl, if_neg other⟩

theorem CallStep.frame {c : ConnId} (step : CallStep H t ev t') (other : ev.client ≠ c) :
    t'.client c = t.client c := by
  cases step <;> exact Function.update_of_ne (Ne.symm other) _ _

/-- The step lemma. -/
theorem CallStep.matches {c : ConnId} (step : CallStep H t ev t')
    (held : (t.client c).Matches (callsOf c E) (takenOf c E) (executionsOf c E) (endsOf c E)) :
    (t'.client c).Matches (callsOf c (ev :: E)) (takenOf c (ev :: E)) (executionsOf c (ev :: E))
      (endsOf c (ev :: E)) := by
  by_cases other : ev.client ≠ c
  · obtain ⟨calls, taken, executions, ends⟩ := seen_of_ne other E
    rw [step.frame other, calls, taken, executions, ends]
    exact held
  · obtain rfl := not_not.mp other
    cases step with
    | call idle =>
        simp only [ServEvent.client, callsOf, takenOf, executionsOf, endsOf, if_true,
          Function.update_self] at held ⊢
        rw [idle] at held
        exact held.call
    | take called =>
        simp only [ServEvent.client, callsOf, takenOf, executionsOf, endsOf, if_true,
          Function.update_self] at held ⊢
        rw [called] at held
        exact held.take
    | work running run =>
        simp only [ServEvent.client, callsOf, takenOf, executionsOf, endsOf, Function.update_self]
          at held ⊢
        rw [running] at held
        exact held.work
    | answer running done =>
        simp only [ServEvent.client, callsOf, takenOf, executionsOf, endsOf, if_true,
          Function.update_self] at held ⊢
        rw [running] at held
        exact held.answer
    | finish executed =>
        simp only [ServEvent.client, callsOf, takenOf, executionsOf, endsOf, if_true,
          Function.update_self] at held ⊢
        rw [executed] at held
        exact held.finish

theorem matches_of_run {state : σ} (run : Run (CallStep H) (.start state) E t) (c : ConnId) :
    (t.client c).Matches (callsOf c E) (takenOf c E) (executionsOf c E) (endsOf c E) := by
  induction run with
  | nil => exact @CallState.Matches.idle _ _ []
  | snoc _ last ih => exact last.matches ih

end Clients

/-- What a client has seen of its calls, and what the workers have done about them. -/
structure ExactlyOnce (waiting : Bool) (calls taken : List ServCall) (executions : List Execution)
    (ends : List ((m : Method) × CallEnd m.Result)) : Prop where
  taken_were_called : taken <:+ calls
  executed_were_taken : executions.map Execution.call <:+ taken
  ends_were_executed : ends <:+ executions.map Execution.end
  none_missing : calls.length ≤ ends.length + waiting.toNat
  all_done : waiting = false → calls = executions.map Execution.call ∧
    taken = executions.map Execution.call ∧ ends = executions.map Execution.end

theorem CallState.Matches.exactlyOnce {σ : Type} {H : ServThread σ} {call : CallState H}
    {calls taken : List ServCall} {executions : List Execution}
    {ends : List ((m : Method) × CallEnd m.Result)} {conn : ServConn H} {T : Thrift}
    (held : call.Matches calls taken executions ends) (carries : conn.Carries T call) :
    ExactlyOnce conn.pending.isSome calls taken executions ends := by
  cases carries with
  | idle =>
      cases held
      exact ⟨List.suffix_rfl, List.suffix_rfl, List.suffix_rfl, by simp, fun _ => ⟨rfl, rfl, rfl⟩⟩
  | called =>
      cases held
      exact ⟨List.suffix_cons _ _, List.suffix_rfl, List.suffix_rfl, by simp, fun idle => by cases idle⟩
  | running =>
      cases held
      exact ⟨List.suffix_rfl, List.suffix_cons _ _, List.suffix_rfl, by simp, fun idle => by cases idle⟩
  | executed =>
      cases held
      exact ⟨List.suffix_rfl, List.suffix_rfl, List.suffix_cons _ _, by simp, fun idle => by cases idle⟩

/-- Over any interleaving of clients and workers every call of a client is taken by a worker at most
once, in the order of the calls, and the client is told what exactly the workers ended with; when it
is not waiting, none is missing. -/
theorem remote_calls_exactly_once {σ : Type} {T : Thrift} {H : ServThread σ} {state : σ}
    {s : ServSystem H} {E : List ServEvent} (lawful : T.Lawful)
    (run : Run (ServStep T) (.start state) E s) (fits : ∀ ev ∈ E, ev.Fits) (c : ConnId) :
    ExactlyOnce (s.conn c).pending.isSome (callsOf c E) (takenOf c E) (executionsOf c E)
      (endsOf c E) := by
  obtain ⟨t, calls, refines⟩ := refines_of_run lawful run fits
  exact (matches_of_run calls c).exactlyOnce (refines.conn c)

/-- A handler that does its work in one step. -/
def ServIf.inOneStep {σ : Type} (H : ServIf σ) : ServThread σ where
  Place m := m.Args ⊕ Except FieldProtocol.Bytes m.Result
  start _ args := .inl args
  Step m p q := ∃ args outcome, p.1 = .inl args ∧ q.1 = .inr outcome ∧ H m args p.2 outcome q.2
  Done _ place outcome := place = .inr outcome

theorem ServIf.inOneStep_alone {σ : Type} (H : ServIf σ) {m : Method} {args : m.Args} {s s' : σ}
    {outcome : Except FieldProtocol.Bytes m.Result} :
    H.inOneStep.alone m args s outcome s' ↔ H m args s outcome s' := by
  constructor
  · rintro ⟨last, steps, rfl⟩
    rcases steps.cases_head with same | ⟨⟨place, s₁⟩, ⟨args', outcome', first, rfl, ran⟩, rest⟩
    · cases same
    · cases first
      rcases rest.cases_head with same | ⟨next, ⟨_, _, again, _⟩, _⟩
      · cases same
        exact ran
      · cases again
  · intro ran
    exact ⟨.inr outcome, .single ⟨args, outcome, rfl, rfl, ran⟩, rfl⟩

/-- Two clients on an empty table, and a worker for each: one asks for a url while the other deletes
the filter. -/
def overlapping : List ServEvent :=
  [.finish 0 .getOne (callEnd (.ok (-1 : Int16))), .answer 0 .getOne (⟨[97], [120]⟩ : UrlArgs) (.ok (-1 : Int16)),
    .answer 1 .deleteBlooms (⟨[97]⟩ : KeyArgs) (.ok (1 : Int16)), .work 1, .work 0,
    .take 1 .deleteBlooms (⟨[97]⟩ : KeyArgs), .take 0 .getOne (⟨[97], [120]⟩ : UrlArgs),
    .call 1 .deleteBlooms (⟨[97]⟩ : KeyArgs), .call 0 .getOne (⟨[97], [120]⟩ : UrlArgs)]

theorem exists_overlapping : ∃ t, Run (CallStep (ServHandler.serv (serverEnv Libm.oneHalf)).inOneStep)
    (.start (bloomsInit 1000 [])) overlapping t := by
  obtain ⟨σ, run⟩ := exists_run (E := serverEnv Libm.oneHalf) (σ := bloomsInit 1000 [])
    (T := [(.delete [97], 1), (.get [97] [120], -1)]) (by decide +kernel)
  obtain ⟨σ₁, before, second⟩ := run.of_cons
  obtain ⟨_, before, first⟩ := before.of_cons
  cases before.of_nil
  have others : (1 : ConnId) ≠ 0 := by decide
  have asks : (ServHandler.serv (serverEnv Libm.oneHalf)).inOneStep.Step .getOne
      (.inl (⟨[97], [120]⟩ : UrlArgs), bloomsInit 1000 []) (.inr (.ok (-1 : Int16)), σ₁) :=
    ⟨_, _, rfl, rfl, -1, rfl, first⟩
  have deletes : (ServHandler.serv (serverEnv Libm.oneHalf)).inOneStep.Step .deleteBlooms
      (.inl (⟨[97]⟩ : KeyArgs), σ₁) (.inr (.ok (1 : Int16)), σ) := ⟨_, _, rfl, rfl, 1, rfl, second⟩
  exact ⟨_, ((((((((Run.single (.call rfl)).snoc (.call rfl)).snoc (.take rfl)).snoc (.take rfl)).snoc
    (.work rfl asks)).snoc (.work rfl deletes)).snoc (.answer rfl rfl)).snoc (.answer rfl rfl)).snoc
    (.finish rfl)⟩

theorem remote_calls_exactly_once_overlapping : ∃ s : ServSystem
      (ServHandler.serv (serverEnv Libm.oneHalf)).inOneStep,
    Run (ServStep binaryThrift) (.start (bloomsInit 1000 [])) overlapping s ∧
      ExactlyOnce (s.conn 0).pending.isSome
        [⟨.getOne, (⟨[97], [120]⟩ : UrlArgs)⟩] [⟨.getOne, (⟨[97], [120]⟩ : UrlArgs)⟩]
        [⟨.getOne, (⟨[97], [120]⟩ : UrlArgs), .ok (-1 : Int16)⟩]
        [⟨.getOne, callEnd (.ok (-1 : Int16))⟩] := by
  obtain ⟨t, calls⟩ := exists_overlapping
  have short : (1 : ℕ) < maxCount := by decide
  have fits : ∀ ev ∈ overlapping, ev.Fits := by
    intro ev mem
    simp only [overlapping, List.mem_cons, List.not_mem_nil, or_false] at mem
    rcases mem with rfl | rfl | rfl | rfl | rfl | rfl | rfl | rfl | rfl <;>
      first | exact trivial | exact short | exact ⟨short, short⟩
  obtain ⟨s, bytes, _⟩ := (refines_start _).lift_run binaryThrift_lawful calls fits
  exact ⟨s, bytes, remote_calls_exactly_once binaryThrift_lawful bytes fits 0⟩

section Waiting

variable {σ : Type} {T : Thrift} {H : ServThread σ} {state : σ} {s : ServSystem H} {t : CallSystem H}
  {E : List ServEvent} {c : ConnId} {m : Method}

/-- A worker goes on alone. -/
theorem work_run {args : m.Args} {place last : H.Place m} {st st' : σ}
    (steps : ReflTransGen (H.Step m) (place, st) (last, st')) (here : t.client c = .running m args place)
    (now : t.state = st) : ∃ E' t', Run (CallStep H) t E' t' ∧ (∀ ev ∈ E', ev = .work c) ∧
      t'.client c = .running m args last ∧ t'.state = st' ∧ ∀ c', c' ≠ c → t'.client c' = t.client c' := by
  generalize goal : (last, st') = q at steps
  induction steps generalizing last st' with
  | refl =>
      cases goal
      exact ⟨[], t, .nil, fun ev none => absurd none List.not_mem_nil, here, now, fun _ _ => rfl⟩
  | @tail p q before step ih =>
      cases goal
      obtain ⟨place₁, st₁⟩ := p
      obtain ⟨E', t', run, events, running, rfl, others⟩ := ih rfl
      refine ⟨_, _, run.snoc (.work running step), ?_, Function.update_self _ _ _, rfl, fun c' ne => ?_⟩
      · intro ev mem
        rcases List.mem_cons.mp mem with rfl | old
        · rfl
        · exact events ev old
      · exact (Function.update_of_ne ne _ _).trans (others c' ne)

/-- A worker that can end alone does, and its client gets the answer. -/
theorem running_ends (lawful : T.Lawful) (refines : s.Refines T t) {args : m.Args} {place : H.Place m}
    (here : t.client c = .running m args place) {outcome : Except FieldProtocol.Bytes m.Result} {st' : σ}
    (ends : H.Ends m place s.state outcome st') (fits : m.OutcomeFits outcome) :
    ∃ E' s', Run (ServStep T) s E' s' ∧ (∀ ev ∈ E', ev.client = c ∧ ev.Fits) ∧
      (s'.conn c).pending = none := by
  obtain ⟨last, steps, done⟩ := ends
  obtain ⟨E', t', run, events, running, _, _⟩ := work_run steps here refines.state.symm
  have whole := (run.snoc (.answer running done)).snoc (.finish (Function.update_self _ _ _))
  have all : ∀ ev ∈ ServEvent.finish c m (callEnd outcome) :: .answer c m args outcome :: E',
      ev.client = c ∧ ev.Fits := by
    intro ev mem
    rcases List.mem_cons.mp mem with rfl | mem
    · exact ⟨rfl, trivial⟩
    · rcases List.mem_cons.mp mem with rfl | mem
      · exact ⟨rfl, fits⟩
      · rw [events ev mem]
        exact ⟨rfl, trivial⟩
  obtain ⟨s', bytes, refines'⟩ := refines.lift_run lawful whole fun ev mem => (all ev mem).2
  exact ⟨_, s', bytes, all, refines'.idle (Function.update_self _ _ _)⟩

/-- A waiting client is never stuck: if a worker alone can run the call that stands on the connection,
or can go on with the one it has taken, steps for this client end its waiting. -/
theorem waiting_call_ends (lawful : T.Lawful) (run : Run (ServStep T) (.start state) E s)
    (fits : ∀ ev ∈ E, ev.Fits)
    (able : ∀ m seqid args rest,
      ServProcessor.read T (s.conn c).toServer = some (.call m seqid args, rest) →
        ∃ outcome st', H.Ends m (H.start m args) s.state outcome st' ∧ m.OutcomeFits outcome)
    (onward : ∀ w, (s.conn c).worker = some w →
      ∃ outcome st', H.Ends w.method w.place s.state outcome st' ∧ w.method.OutcomeFits outcome)
    (waits : (s.conn c).pending ≠ none) :
    ∃ E' s', Run (ServStep T) s E' s' ∧ (∀ ev ∈ E', ev.client = c ∧ ev.Fits) ∧
      (s'.conn c).pending = none := by
  obtain ⟨t, calls, refines⟩ := refines_of_run lawful run fits
  have carries := refines.conn c
  cases here : t.client c with
  | idle => exact absurd (refines.idle here) waits
  | called m args =>
      rw [here] at carries
      have sent : ∃ seqid rest, ServProcessor.read T (s.conn c).toServer =
          some (.call m seqid args, rest) := by
        generalize s.conn c = conn at carries
        cases carries with
        | called short =>
            have read := ServProcessor.read_send lawful short []
            rw [List.append_nil] at read
            exact ⟨0, [], read⟩
      obtain ⟨seqid, rest, read⟩ := sent
      obtain ⟨outcome, st', ends, short⟩ := able m seqid args rest read
      obtain ⟨s₁, first, refines₁⟩ := refines.lift lawful (.take c m args) trivial (.take here)
      rw [refines.state] at ends
      have now : s₁.state = t.state := refines₁.state
      rw [← now] at ends
      obtain ⟨E', s', later, events, idle⟩ := running_ends lawful refines₁ (Function.update_self _ _ _)
        ends short
      refine ⟨_, s', (Run.single first).append later, fun ev mem => ?_, idle⟩
      rcases List.mem_append.mp mem with late | one
      · exact events ev late
      · rw [List.mem_singleton.mp one]
        exact ⟨rfl, trivial⟩
  | running m args place =>
      have works : (s.conn c).worker = some ⟨m, 0, args, place⟩ := by
        rw [carries.worker, here]
        rfl
      obtain ⟨outcome, st', ends, short⟩ := onward _ works
      exact running_ends lawful refines here ends short
  | executed m outcome =>
      obtain ⟨s', last, refines'⟩ := refines.lift lawful (.finish c m (callEnd outcome))
        trivial (.finish here)
      refine ⟨_, s', Run.single last, fun ev mem => ?_, refines'.idle (Function.update_self _ _ _)⟩
      rw [List.mem_singleton.mp mem]
      exact ⟨rfl, trivial⟩

end Waiting

theorem waiting_call_ends_delete : ∃ E s s', Run (ServStep binaryThrift
      (H := (ServHandler.serv (serverEnv Libm.oneHalf)).inOneStep))
      (.start (bloomsInit 1000 [])) [.call 0 .deleteBlooms (⟨[97]⟩ : KeyArgs)] s ∧
    (s.conn 0).pending = some .deleteBlooms ∧ Run (ServStep binaryThrift) s E s' ∧
    (s'.conn 0).pending = none := by
  obtain ⟨σ, run⟩ := exists_run (E := serverEnv Libm.oneHalf) (σ := bloomsInit 1000 [])
    (T := [(.delete [97], 1)]) (by decide +kernel)
  obtain ⟨_, before, deleted⟩ := run.of_cons
  cases before.of_nil
  have called : ServStep (H := (ServHandler.serv (serverEnv Libm.oneHalf)).inOneStep) binaryThrift
      (.start (bloomsInit 1000 [])) (.call 0 .deleteBlooms (⟨[97]⟩ : KeyArgs)) _ := .call rfl
  have short : (1 : ℕ) < maxCount := by decide
  have fits : ∀ ev ∈ [ServEvent.call 0 .deleteBlooms (⟨[97]⟩ : KeyArgs)], ev.Fits := by
    intro ev mem
    cases List.mem_singleton.mp mem
    exact short
  have sent : Reads (ServProcessor.read binaryThrift)
      (ServClient.send binaryThrift .deleteBlooms (⟨[97]⟩ : KeyArgs)) _ :=
    ServProcessor.read_send binaryThrift_lawful short
  obtain ⟨E, s', ends, _, idle⟩ := waiting_call_ends (c := 0) binaryThrift_lawful (Run.single called)
    fits (fun m seqid args rest read => by
      cases (sent []).symm.trans read
      exact ⟨.ok (1 : Int16), σ, (ServIf.inOneStep_alone _).mpr ⟨1, rfl, deleted⟩, trivial⟩)
    (fun w none => by cases none) (by decide)
  exact ⟨E, _, s', Run.single called, rfl, ends, idle⟩

/-! ### One worker at a time -/

/-- All executions, newest first, each with the client that called. -/
def executed : List ServEvent → List (ConnId × Execution)
  | [] => []
  | .answer c m args outcome :: E => (c, ⟨m, args, outcome⟩) :: executed E
  | .call _ _ _ :: E | .take _ _ _ :: E | .work _ :: E | .finish _ _ _ :: E => executed E

/-- One execution after the other, whoever called. -/
def Sequential {σ : Type} (H : ServIf σ) : σ → List (ConnId × Execution) → σ → Prop :=
  Run fun s x s' => H x.2.1 x.2.2.1 s x.2.2.2 s'

section Alone

variable {σ : Type} {H : ServThread σ} {state : σ} {t t' : CallSystem H} {E : List ServEvent}
  {ev : ServEvent}

/-- The executions so far came one after the other; one more may be under way. -/
inductive Alone (state : σ) (E : List ServEvent) (t : CallSystem H) : Prop
  | resting (done : Sequential H.alone state (executed E) t.state)
      (none : ∀ c, (t.client c).worker = none)
  | working (c : ConnId) (m : Method) (args : m.Args) (place : H.Place m) (since : σ)
      (here : t.client c = .running m args place) (others : ∀ c', c' ≠ c → (t.client c').worker = none)
      (done : Sequential H.alone state (executed E) since)
      (steps : ReflTransGen (H.Step m) (H.start m args, since) (place, t.state))

theorem worker_update {c : ConnId} {call : CallState H} (none : ∀ c', c' ≠ c → (t.client c').worker = none)
    (idle : call.worker = Option.none) (c' : ConnId) :
    (Function.update t.client c call c').worker = Option.none := by
  by_cases same : c' = c
  · subst same
    rw [Function.update_self]
    exact idle
  · rw [Function.update_of_ne same]
    exact none c' same

/-- A step of a client that no worker is at leaves the one worker where it is. -/
theorem Alone.elsewhere {c : ConnId} {call : CallState H} {E' : List ServEvent} (held : Alone state E t)
    (before : (t.client c).worker = none) (after : call.worker = none) (same : executed E' = executed E) :
    Alone state E' { t with client := Function.update t.client c call } := by
  cases held with
  | resting done none =>
      rw [← same] at done
      exact .resting done (worker_update (fun c' _ => none c') after)
  | working c₁ m args place since here others done steps =>
      have apart : c₁ ≠ c := by
        rintro rfl
        rw [here] at before
        cases before
      rw [← same] at done
      refine .working c₁ m args place since ((Function.update_of_ne apart _ _).trans here)
        (fun c' ne => ?_) done steps
      by_cases self : c' = c
      · subst self
        exact (congrArg CallState.worker (Function.update_self c' call t.client)).trans after
      · exact (congrArg CallState.worker (Function.update_of_ne self _ _)).trans (others c' ne)

/-- The step lemma. -/
theorem Alone.step (held : Alone state E t)
    (step : Guarded CallSystem.OneAtATime (CallStep H) t ev t') : Alone state (ev :: E) t' := by
  obtain ⟨free, step⟩ := step
  cases step with
  | @call c m args idle => exact held.elsewhere (by rw [idle]; rfl) rfl rfl
  | @take c m args called =>
      cases held with
      | resting done none =>
          refine .working c m args (H.start m args) t.state (Function.update_self _ _ _) ?_ done .refl
          exact fun c' ne => (congrArg CallState.worker (Function.update_of_ne ne _ _)).trans (none c')
      | working c₁ m₁ args₁ place₁ since here others done steps =>
          have none := free c₁
          rw [here] at none
          cases none
  | @work c m args place place' state' running run =>
      cases held with
      | resting done none =>
          have idle := none c
          rw [running] at idle
          cases idle
      | working c₁ m₁ args₁ place₁ since here others done steps =>
          by_cases same : c = c₁
          · subst same
            cases running.symm.trans here
            refine .working c m args place' since (Function.update_self _ _ _) ?_ done (steps.tail run)
            exact fun c' ne => (congrArg CallState.worker (Function.update_of_ne ne _ _)).trans (others c' ne)
          · have idle := others c same
            rw [running] at idle
            cases idle
  | @answer c m args place outcome running ended =>
      cases held with
      | resting done none =>
          have idle := none c
          rw [running] at idle
          cases idle
      | working c₁ m₁ args₁ place₁ since here others done steps =>
          by_cases same : c = c₁
          · subst same
            cases running.symm.trans here
            exact .resting (done.snoc ⟨place, steps, ended⟩) (worker_update others rfl)
          · have idle := others c same
            rw [running] at idle
            cases idle
  | @finish c m outcome executed => exact held.elsewhere (by rw [executed]; rfl) rfl rfl

/-- The run lemma: with one worker at a time the calls are executed one after the other. -/
theorem sequential_of_oneAtATime
    (run : Run (Guarded CallSystem.OneAtATime (CallStep H)) (.start state) E t) :
    ∃ st, Sequential H.alone state (executed E) st := by
  have held : Alone state E t := by
    apply run.history (I := Alone state)
    · exact .resting .nil fun _ => rfl
    · exact fun _ _ _ _ held step => held.step step
  cases held with
  | resting done none => exact ⟨_, done⟩
  | working c m args place since here others done steps => exact ⟨since, done⟩

/-- Executions can come from calls that are made, taken and answered one after the other. -/
theorem served_of_sequential {X : List (ConnId × Execution)} {st : σ}
    (run : Sequential H.alone state X st)
    (fits : ∀ x ∈ X, x.2.1.ArgsFit x.2.2.1 ∧ x.2.1.OutcomeFits x.2.2.2) :
    ∃ E t, Run (Guarded CallSystem.OneAtATime (CallStep H)) (.start state) E t ∧ executed E = X ∧
      t.state = st ∧ (∀ c, t.client c = .idle) ∧ ∀ ev ∈ E, ev.Fits := by
  induction run with
  | nil => exact ⟨[], _, .nil, rfl, rfl, fun _ => rfl, fun ev none => absurd none List.not_mem_nil⟩
  | @snoc X u v x before last ih =>
      obtain ⟨E, t, calls, same, rfl, idle, older⟩ := ih fun y mem =>
        fits y (List.mem_cons_of_mem _ mem)
      obtain ⟨c, m, args, outcome⟩ := x
      obtain ⟨short, ends⟩ := fits _ List.mem_cons_self
      obtain ⟨place, steps, done⟩ := last
      have first : Guarded CallSystem.OneAtATime (CallStep H) t (.call c m args) _ :=
        ⟨trivial, .call (idle c)⟩
      have free : ∀ c', (Function.update t.client c (.called m args) c').worker = none :=
        worker_update (fun c' _ => congrArg CallState.worker (idle c')) rfl
      have second := CallStep.take (H := H) (s := { t with
        client := Function.update t.client c (.called m args) }) (Function.update_self ..)
      obtain ⟨E', t', work, events, running, now, others⟩ := work_run (t := { t with
        client := Function.update (Function.update t.client c (.called m args)) c
          (.running m args (H.start m args)) }) steps (Function.update_self ..) rfl
      have alone : Run (Guarded CallSystem.OneAtATime (CallStep H)) ⟨t.state, Function.update
          (Function.update t.client c (.called m args)) c (.running m args (H.start m args))⟩ E' t' := by
        apply work.guarded
        rintro l₁ l₂ a u rfl -
        rw [events a (List.mem_append_right _ List.mem_cons_self)]
        trivial
      have taken : Guarded CallSystem.OneAtATime (CallStep H) { t with
          client := Function.update t.client c (.called m args) } (.take c m args) _ := ⟨free, second⟩
      have answered : Guarded CallSystem.OneAtATime (CallStep H) _ (.answer c m args outcome) _ :=
        ⟨trivial, CallStep.answer running done⟩
      have finished : Guarded CallSystem.OneAtATime (CallStep H) _ (.finish c m (callEnd outcome)) _ :=
        ⟨trivial, CallStep.finish
          (s := { t' with client := Function.update t'.client c (.executed m outcome) })
          (Function.update_self ..)⟩
      have whole := ((((calls.snoc first).snoc taken).append alone).snoc answered).snoc finished
      refine ⟨_, _, whole, ?_, now, fun c' => ?_, fun ev mem => ?_⟩
      · have silent : executed (E' ++ .take c m args :: .call c m args :: E) = executed E := by
          clear work alone whole
          induction E' with
          | nil => rfl
          | cons ev E' again =>
              rw [events ev List.mem_cons_self]
              exact again fun ev mem => events ev (List.mem_cons_of_mem _ mem)
        exact congrArg _ (silent.trans same)
      · by_cases here : c' = c
        · subst here
          exact Function.update_self ..
        · simp only [Function.update_of_ne here]
          rw [others c' here]
          simp only [Function.update_of_ne here]
          exact idle c'
      · rcases List.mem_cons.mp mem with rfl | mem
        · trivial
        · rcases List.mem_cons.mp mem with rfl | mem
          · exact ends
          · rcases List.mem_append.mp mem with work | mem
            · rw [events ev work]
              trivial
            · rcases List.mem_cons.mp mem with rfl | mem
              · trivial
              · rcases List.mem_cons.mp mem with rfl | mem
                · exact short
                · exact older ev mem

end Alone

end BloomServer
