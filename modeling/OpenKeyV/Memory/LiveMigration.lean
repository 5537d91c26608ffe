import OpenKeyV.Memory.ChangeStream
import OpenKeyV.Memory.Snapshot

/-!
# Live migration between two `MemoryStore`s

`copy_snapshot_with_feed`, and after it a loop that receives a change and
calls `apply_change`.  Any number of tasks call the source meanwhile; nobody
else calls the target, so that its calls run to their end in one step.
-/

namespace OpenKeyV.Memory

open OpenKeyV.Library

section Target

variable (config : MemoryConfig) (rng : Nat → Option Revision)
  (now : DateTime) (order : Order)

def finish : MemoryState × Phase → Except Error Response × MemoryState
  | (s, .done result) => (result, s)
  | (s, .lock action) =>
      let locked := perform config now order s action
      (locked.result, locked.pending.foldl
        (fun s mutation => s.recordChange now mutation) locked.state)
  -- Never taken: a put or a delete is done or waits for the mutation lock.
  | (s, _) => (.error (.invalidOperation "not a writing call"), s)

def runAlone (call : Call) (s : MemoryState) :
    Except Error Response × MemoryState :=
  match start now call with
  | .setup call => finish config now order (enter config rng now order s call)
  | phase => finish config now order (s, phase)

def memoryTarget : Target MemoryState :=
  let done (reply : Except Error Response × MemoryState) :
      Except Error Unit × MemoryState := (reply.1.map fun _ => (), reply.2)
  { put key value name ttl t :=
      done (runAlone config rng now order (.put key value (some name) ttl) t)
    putMany keys values name ttl t :=
      done (runAlone config rng now order
        (.putMany keys values (some name) ttl) t)
    delete key name t :=
      done (runAlone config rng now order (.delete key (some name)) t) }

end Target

inductive Stage where
  | subscribing
  | copying (stream : MemoryChangeStream) (phase : CopyPhase)
      (report : MigrationReport)
  | awaiting (stream : MemoryChangeStream) (report : MigrationReport)
  | applying (stream : MemoryChangeStream) (change : StoreChange)
      (report : MigrationReport)
  | writing (stream : MemoryChangeStream) (change : StoreChange)
      (name : String) (value : Option (Value × Option F64))
      (report : MigrationReport)
  | failed (error : Error)

structure LiveState where
  source : System
  target : MemoryState
  stage : Stage

inductive LiveLabel where
  | source (label : Label)
  | migrate (order targetOrder : Order) (lag : Option Nat)

def LiveState.start (source : System) : LiveState :=
  ⟨source, .empty, .subscribing⟩

def Response.remaining : Response → Option (Value × Option F64)
  | .ttl found => found
  -- Never another response.
  | _ => none

def Response.single : Response → Option Value
  | .value found => found
  | _ => none

def Stage.ofCopy (stream : MemoryChangeStream) (report : MigrationReport) :
    CopyPhase → Stage
  | .finished (.ok ()) => .awaiting stream report
  | .finished (.error error) => .failed error
  | phase => .copying stream phase report

def LiveState.wrote (s : LiveState) (reply : Except Error Unit × MemoryState)
    (next : Stage) : LiveState :=
  match reply with
  | (.error error, t) => { s with target := t, stage := .failed error }
  | (.ok (), t) => { s with target := t, stage := next }

section Step

variable (config targetConfig : MemoryConfig)
  (rng targetRng : Nat → Option Revision) (options : MigrationOptions)

def LiveState.apply (s : LiveState) (order : Order)
    (target : Target MemoryState) (stream : MemoryChangeStream)
    (change : StoreChange) (report : MigrationReport) : LiveState :=
  let replayed := report.merge ⟨0, 0, 0, 1⟩
  if options.selected change.collection then
    match options.targetCollection change.collection with
    | none => { s with stage := .awaiting stream report }
    | some name =>
        match change.operation with
        | .delete => s.wrote (target.delete change.key name s.target)
            (.awaiting stream replayed)
        | .put =>
            let collection := some change.collection
            let reply := readCall config rng s.source.clock order
              (if options.preserveTtl then .ttl change.key collection
                else .get change.key collection) s.source.state
            let found (response : Response) : Option (Value × Option F64) :=
              if options.preserveTtl then response.remaining
              else response.single.map fun value => (value, none)
            { s with
              source := { s.source with state := reply.2 }
              stage := match reply.1 with
                | .error error => .failed error
                | .ok response =>
                    .writing stream change name (found response) report }
  else { s with stage := .awaiting stream report }

def LiveState.write (s : LiveState) (target : Target MemoryState)
    (stream : MemoryChangeStream) (change : StoreChange) (name : String)
    (value : Option (Value × Option F64)) (report : MigrationReport) :
    LiveState :=
  match value with
  | some (value, ttl) =>
      s.wrote (target.put change.key value name ttl s.target)
        (.awaiting stream (report.merge ⟨0, 0, 0, 1⟩))
  | none =>
      s.wrote (target.delete change.key name s.target)
        (.awaiting stream (report.merge ⟨0, 0, 1, 1⟩))

def LiveState.migrate (s : LiveState) (order targetOrder : Order)
    (lag : Option Nat) : Option LiveState :=
  let target := memoryTarget targetConfig targetRng s.source.clock targetOrder
  match s.stage with
  | .subscribing =>
      match s.source.holder with
      | some _ => none
      | none =>
          let changes := s.source.state.changes
          match changes.subscribe ⟨.latest, .default⟩ with
          | .error error => some { s with stage := .failed error }
          | .ok stream => some { s with stage := .copying stream .opening .zero }
  | .copying stream phase report =>
      let copy : Copy MemoryState := ⟨s.source.state, s.target, phase, report⟩
      (copy.step config rng options target (s.source.clock, order)).map
        fun copy =>
          ⟨{ s.source with state := copy.source }, copy.target,
            .ofCopy stream copy.report copy.phase⟩
  | .awaiting stream report =>
      (stream.poll s.source.state.changes.sent lag).map fun polled =>
        { s with
          stage := match polled with
            | (stream, none) => .awaiting stream report
            | (stream, some (.item change)) => .applying stream change report
            | (_, some (.lagged skipped)) =>
                .failed (.changeFeedLagged skipped) }
  | .applying stream change report =>
      some (s.apply config rng options order target stream change report)
  | .writing stream change name value report =>
      some (s.write target stream change name value report)
  | .failed _ => none

def LiveState.step (s : LiveState) : LiveLabel → Option LiveState
  | .source label =>
      (s.source.step config rng label).map fun source => { s with source }
  | .migrate order targetOrder lag =>
      s.migrate config targetConfig rng targetRng options order targetOrder lag

end Step

end OpenKeyV.Memory
