import Mathlib.Algebra.Ring.Int.Defs
import Mathlib.Logic.Function.Basic
import VirtualContext.Library.Reach

/-!
# Session checkpoints in Redis

The checkpoint of a conversation is kept under one Redis key, with a version,
and backed up in the store.  Any number of workers load, save, delete and
undelete it.  A call is taken apart into its accesses of Redis and of the store,
each of which is atomic, so that the accesses of several calls can alternate.
-/

namespace VirtualContext

/-! ## Data -/

/-- `SessionState`; the checkpoint stands for its other fields. -/
structure SessionState (δ : Type) where
  checkpoint : δ
  version : Int := 0
  deleted : Bool := false
  deriving DecidableEq, Repr

/-- `_MAX_VERSION` -/
def maxVersion : Int := 2 ^ 53

/-- How often a conversation was tombstoned, and how often a delete returned. -/
structure DeleteMark where
  tombstones : Nat := 0
  deletes : Nat := 0
  deriving DecidableEq, Repr

/-- A state in the hands of a worker, with what was deleted when it was loaded. -/
structure LoadedState (δ : Type) where
  state : SessionState δ
  loaded : DeleteMark
  deriving DecidableEq, Repr

/-- The access that a worker makes next in the call that it is in. -/
inductive SessionCall where
  | idle
  /-- `load`: the key is missing. -/
  | readMarker
  | readStore
  /-- `save`: the check was passed when the key had the revision. -/
  | watching (revision : Nat)
  | backup (number : Nat)
  | settle (number : Nat) (stored : Bool)
  /-- `delete`: the tombstone is set. -/
  | deleting
  /-- `undelete`: a tombstone was read. -/
  | undeleting
  deriving DecidableEq, Repr

structure Worker (δ : Type) where
  held : Option (LoadedState δ) := none
  call : SessionCall := .idle
  deriving DecidableEq, Repr

/-- A write of a save, to Redis or to the store. -/
structure SessionWrite (δ : Type) where
  checkpoint : δ
  base : Int
  replaced : Option Int := none
  loaded : DeleteMark
  written : DeleteMark
  deriving DecidableEq, Repr

/-- The version that a save stores. -/
def SessionWrite.version {δ : Type} (w : SessionWrite δ) : Int := w.base + 1

/--
What has happened so far, which no call reads: the saves that succeeded in
Redis, the backups, the number of the latest save that was backed up or that
marked the store as stale, and what the loads took from the store, each with
the checkpoint of the last save.
-/
structure SessionLog (δ : Type) where
  mark : DeleteMark := {}
  saves : List (SessionWrite δ) := []
  backups : List (SessionWrite δ) := []
  storedNumber : Nat := 0
  staleNumber : Nat := 0
  fallbacks : List (Option δ × Option δ) := []

def SessionLog.lastSaved {δ : Type} (log : SessionLog δ) : Option δ :=
  log.saves.getLast?.map (·.checkpoint)

/-- The Redis keys of a conversation, its row in the store and the workers. -/
structure Sessions (δ ω : Type) where
  session : Option (SessionState δ) := none
  /-- How often the key was changed: what `WATCH` compares. -/
  revision : Nat := 0
  storeStale : Bool := false
  engineState : Option δ := none
  workers : ω → Worker δ := fun _ => {}
  log : SessionLog δ := {}

/-- The checkpoint of `SessionState()`, and what the store gives back of one. -/
structure CheckpointCodec (δ : Type) where
  blank : δ
  restored : δ → δ

/-! ## The accesses -/

section Accesses

variable {δ ω : Type} [DecidableEq ω] (codec : CheckpointCodec δ)

namespace Sessions

variable (s : Sessions δ ω) (w : ω)

def setWorker (worker : Worker δ) : Sessions δ ω :=
  { s with workers := Function.update s.workers w worker }

def setCall (call : SessionCall) : Sessions δ ω :=
  s.setWorker w { s.workers w with call := call }

section Workers

variable {s : Sessions δ ω} {w w' : ω} {worker : Worker δ} {call : SessionCall}

@[simp] theorem workers_setWorker_self :
    (s.setWorker w worker).workers w = worker :=
  Function.update_self _ _ _

theorem workers_setWorker_of_ne (h : w' ≠ w) :
    (s.setWorker w worker).workers w' = s.workers w' :=
  Function.update_of_ne h _ _

@[simp] theorem workers_setCall_self :
    (s.setCall w call).workers w = { s.workers w with call := call } :=
  workers_setWorker_self

theorem workers_setCall_of_ne (h : w' ≠ w) :
    (s.setCall w call).workers w' = s.workers w' :=
  workers_setWorker_of_ne h

end Workers

/-- A load returns. -/
def returnState (state : Option (SessionState δ)) : Sessions δ ω :=
  s.setWorker w
    { held := state.map fun state => ⟨state, s.log.mark⟩, call := .idle }

/-- A worker takes a new `SessionState()`. -/
def create : Sessions δ ω :=
  if (s.workers w).call = .idle then
    s.returnState w (some { checkpoint := codec.blank })
  else s

/-- A request changes the checkpoint that its worker holds. -/
def work (checkpoint : δ) : Sessions δ ω :=
  match s.workers w with
  | ⟨some held, .idle⟩ =>
      s.setWorker w
        { held := some
            { held with state := { held.state with checkpoint := checkpoint } } }
  | _ => s

/-- `load`: `GET` -/
def loadSession : Sessions δ ω :=
  if (s.workers w).call = .idle then
    match s.session with
    | some state => s.returnState w (some state)
    | none => s.setCall w .readMarker
  else s

/-- `_load_from_store`: is the store known to be stale? -/
def loadMarker : Sessions δ ω :=
  if (s.workers w).call = .readMarker then
    if s.storeStale then s.returnState w none else s.setCall w .readStore
  else s

/-- `_load_from_store`: `load_engine_state`, which may fail. -/
def loadStore (ok : Bool) : Sessions δ ω :=
  if (s.workers w).call = .readStore then
    let saved := if ok then s.engineState else none
    { s with
      log := { s.log with
        fallbacks := s.log.fallbacks ++ [(saved, s.log.lastSaved)] }
      }.returnState w
        (saved.map fun saved => { checkpoint := codec.restored saved })
  else s

/-- The check of `save`, under `WATCH`. -/
def accepts (state : SessionState δ) : Bool :=
  match s.session with
  | some current => !current.deleted && current.version ≤ state.version
  | none => true

/-- `save`: `WATCH` and `GET` -/
def watch : Sessions δ ω :=
  match s.workers w with
  | ⟨some held, .idle⟩ =>
      if s.accepts held.state then s.setCall w (.watching s.revision) else s
  | _ => s

/-- The write of a save that succeeds in Redis. -/
def writeOf (held : LoadedState δ) : SessionWrite δ where
  checkpoint := held.state.checkpoint
  base := held.state.version
  replaced := s.session.map (·.version)
  loaded := held.loaded
  written := s.log.mark

/-- `save`: `MULTI`, `SET` and `EXEC`, which fails if the key was changed. -/
def exec : Sessions δ ω :=
  match s.workers w with
  | ⟨some held, .watching revision⟩ =>
      if revision = s.revision then
        let state := { held.state with version := held.state.version + 1 }
        { s with
          session := some state
          revision := s.revision + 1
          log := { s.log with saves := s.log.saves ++ [s.writeOf held] }
          }.setWorker w
            { held := some { held with state := state }
              call := .backup (s.log.saves.length + 1) }
      else s.setCall w .idle
  | _ => s

/-- `_save_to_store`: `save_engine_state`, which may fail. -/
def backUp (ok : Bool) : Sessions δ ω :=
  match s.workers w with
  | ⟨some held, .backup number⟩ =>
      if ok then
        { s with
          engineState := some held.state.checkpoint
          log := { s.log with
            backups := s.log.backups ++ [s.writeOf held]
            storedNumber := number } }.setCall w (.settle number true)
      else s.setCall w (.settle number false)
  | _ => s

/-- `_save_to_store`: clear the stale marker, or set it after a failure. -/
def settleMarker : Sessions δ ω :=
  match (s.workers w).call with
  | .settle number stored =>
      { s with
        storeStale := !stored
        log := { s.log with
          staleNumber := if stored then 0 else max s.log.staleNumber number }
        }.setCall w .idle
  | _ => s

/-- `delete`: the tombstone. -/
def tombstone : Sessions δ ω :=
  if (s.workers w).call = .idle then
    { s with
      session := some
        { checkpoint := codec.blank, version := maxVersion, deleted := true }
      revision := s.revision + 1
      log := { s.log with
        mark := { s.log.mark with tombstones := s.log.mark.tombstones + 1 } }
      }.setCall w .deleting
  else s

/-- `delete`: `delete_conversation`; after a failure the call raises. -/
def deleteStored (ok : Bool) : Sessions δ ω :=
  if (s.workers w).call = .deleting then
    if ok then
      { s with
        engineState := none
        log := { s.log with
          mark := { s.log.mark with deletes := s.log.mark.deletes + 1 } }
        }.setCall w .idle
    else s.setCall w .idle
  else s

/-- `undelete`: is there a tombstone? -/
def readTombstone : Sessions δ ω :=
  if (s.workers w).call = .idle ∧ s.session.any (·.deleted) then
    s.setCall w .undeleting
  else s

/-- `undelete`: delete the key. -/
def clearTombstone : Sessions δ ω :=
  if (s.workers w).call = .undeleting then
    { s with session := none, revision := s.revision + 1 }.setCall w .idle
  else s

/-- Redis drops the key. -/
def evict : Sessions δ ω :=
  { s with session := none, revision := s.revision + 1 }

end Sessions

/-- The accesses, by what decides their outcome. -/
inductive SessionAccess (δ : Type) where
  | create
  | work (checkpoint : δ)
  | loadSession
  | loadMarker
  | loadStore (ok : Bool)
  | watch
  | exec
  | backUp (ok : Bool)
  | settleMarker
  | tombstone
  | deleteStored (ok : Bool)
  | readTombstone
  | clearTombstone
  | evict
  deriving DecidableEq, Repr

/-- An access of a worker; one that its call does not make changes nothing. -/
def Sessions.access (s : Sessions δ ω) (w : ω) :
    SessionAccess δ → Sessions δ ω
  | .create => s.create codec w
  | .work checkpoint => s.work w checkpoint
  | .loadSession => s.loadSession w
  | .loadMarker => s.loadMarker w
  | .loadStore ok => s.loadStore codec w ok
  | .watch => s.watch w
  | .exec => s.exec w
  | .backUp ok => s.backUp w ok
  | .settleMarker => s.settleMarker w
  | .tombstone => s.tombstone codec w
  | .deleteStored ok => s.deleteStored w ok
  | .readTombstone => s.readTombstone w
  | .clearTombstone => s.clearTombstone w
  | .evict => s.evict

/-- The accesses of a run, one after the other. -/
def Sessions.run (s : Sessions δ ω) (accesses : List (ω × SessionAccess δ)) :
    Sessions δ ω :=
  accesses.foldl (fun s (w, access) => s.access codec w access) s

end Accesses

def numberCodec : CheckpointCodec Nat := ⟨0, id⟩

end VirtualContext
