import Mathlib.Algebra.Order.Ring.Int
import Mathlib.Tactic.SplitIfs
import VirtualContext.Proxy.SessionState

/-!
# Checkpoints, versions and tombstones

The version check orders the saves between two deletes.  It does not fence what
was loaded before a delete: once `undelete` has removed the tombstone such a
state passes the check again, and the backup of a save is not checked at all.
-/

namespace VirtualContext

open VirtualContext.Library

variable {δ ω : Type} [DecidableEq ω] {codec : CheckpointCodec δ}
  {s s' : Sessions δ ω} {w : ω}

/-! ## The property and its condition -/

/--
The stored version increases with every save until the next tombstone, at most
one save is based on each loaded version, and nothing that was loaded before a
delete returned is written after it.
-/
structure CheckpointsSafe (s : Sessions δ ω) : Prop where
  replaced : ∀ save ∈ s.log.saves, ∀ version ∈ save.replaced,
    version < save.version
  increasing : s.log.saves.Pairwise fun earlier later =>
    earlier.written.tombstones = later.written.tombstones →
      earlier.version < later.version
  unique : s.log.saves.Pairwise fun earlier later =>
    ¬ (earlier.loaded.tombstones = later.loaded.tombstones ∧
      earlier.base = later.base)
  fenced : ∀ write ∈ s.log.saves ++ s.log.backups,
    write.loaded.deletes = write.written.deletes

/--
The accesses that keep the checkpoints safe.  What a save writes to Redis was
loaded since the last tombstone was set and the last delete returned, and what
it writes to the store since the last delete returned; an `undelete` removes
the key only if nothing was saved since the last tombstone; and the key is not
evicted.
-/
def KeepsFence (s : Sessions δ ω) (w : ω) : SessionAccess δ → Prop
  | .exec => ∀ held, s.workers w = ⟨some held, .watching s.revision⟩ →
      held.loaded = s.log.mark
  | .backUp ok => ok = true → ∀ held number,
      s.workers w = ⟨some held, .backup number⟩ →
        held.loaded.deletes = s.log.mark.deletes
  | .clearTombstone => (s.workers w).call = .undeleting →
      ∀ save ∈ s.log.saves, save.written.tombstones ≠ s.log.mark.tombstones
  | .evict => False
  | _ => True

/-- No call has been made; Redis and the store hold anything. -/
def SessionsStart (s : Sessions δ ω) : Prop :=
  (∀ w, s.workers w = {}) ∧ s.log = {}

/-- An access that keeps the fence. -/
def FencedAccess (codec : CheckpointCodec δ) (s s' : Sessions δ ω) : Prop :=
  ∃ w access, KeepsFence s w access ∧ s' = s.access codec w access

/-! ## The invariant -/

/-- A save whose check was passed finds the key as it was, or fails. -/
def WatchesKey (s : Sessions δ ω) (worker : Worker δ) : Prop :=
  ∀ revision, worker.call = .watching revision →
    revision ≤ s.revision ∧ (revision = s.revision →
      ∀ held, worker.held = some held → s.accepts held.state = true)

structure FenceInvariant (s : Sessions δ ω) : Prop where
  safe : CheckpointsSafe s
  loaded : ∀ save ∈ s.log.saves, save.loaded = save.written
  past : ∀ save ∈ s.log.saves,
    save.written.tombstones ≤ s.log.mark.tombstones
  current : ∀ save ∈ s.log.saves,
    save.written.tombstones = s.log.mark.tombstones →
      ∃ state, s.session = some state ∧ save.version ≤ state.version
  watching : ∀ w, WatchesKey s (s.workers w)

theorem fenceInvariant_start (h : SessionsStart s) : FenceInvariant s := by
  obtain ⟨hworkers, hlog⟩ := h
  have hsaves : s.log.saves = [] := by rw [hlog]
  have hbackups : s.log.backups = [] := by rw [hlog]
  refine ⟨⟨?_, ?_, ?_, ?_⟩, ?_, ?_, ?_, ?_⟩
  · simp [hsaves]
  · simp [hsaves]
  · simp [hsaves]
  · simp [hsaves, hbackups]
  · simp [hsaves]
  · simp [hsaves]
  · simp [hsaves]
  · intro w revision hcall
    rw [hworkers] at hcall
    cases hcall

namespace FenceInvariant

/-- Only the worker changes, and it does not start to watch. -/
theorem setWorker (h : FenceInvariant s) {worker : Worker δ}
    (hworker : WatchesKey s worker) :
    FenceInvariant (s.setWorker w worker) where
  safe := ⟨h.safe.replaced, h.safe.increasing, h.safe.unique, h.safe.fenced⟩
  loaded := h.loaded
  past := h.past
  current := h.current
  watching w' := by
    by_cases hw : w' = w
    · subst hw
      simpa [Sessions.setWorker, WatchesKey, Sessions.accepts] using hworker
    · have := h.watching w'
      simpa [Sessions.setWorker, hw, WatchesKey, Sessions.accepts] using this

theorem setCall (h : FenceInvariant s) {call : SessionCall}
    (hcall : ∀ revision, call ≠ .watching revision) :
    FenceInvariant (s.setCall w call) :=
  h.setWorker fun revision heq => absurd heq (hcall revision)

theorem returnState (h : FenceInvariant s)
    (state : Option (SessionState δ)) :
    FenceInvariant (s.returnState w state) :=
  h.setWorker fun _ heq => by cases heq

/-- The key was changed: no save that watches it will succeed. -/
theorem watching_of_lt (h : FenceInvariant s)
    (hrevision : s.revision < s'.revision) (hworkers : s'.workers = s.workers)
    (w : ω) : WatchesKey s' (s'.workers w) := by
  intro revision hcall
  rw [hworkers] at hcall
  have := (h.watching w revision hcall).1
  exact ⟨by omega, fun heq => by omega⟩

/-- The markers and the row of the store play no part. -/
theorem of_backups (h : FenceInvariant s) (hsession : s'.session = s.session)
    (hrevision : s'.revision = s.revision) (hworkers : s'.workers = s.workers)
    (hsaves : s'.log.saves = s.log.saves)
    (htombstones : s'.log.mark.tombstones = s.log.mark.tombstones)
    (hbackups : ∀ write ∈ s'.log.backups,
      write.loaded.deletes = write.written.deletes) :
    FenceInvariant s' where
  safe :=
    { replaced := hsaves ▸ h.safe.replaced
      increasing := hsaves ▸ h.safe.increasing
      unique := hsaves ▸ h.safe.unique
      fenced := by
        intro write hwrite
        rw [hsaves] at hwrite
        rcases List.mem_append.mp hwrite with hwrite | hwrite
        · exact h.safe.fenced write (List.mem_append_left _ hwrite)
        · exact hbackups write hwrite }
  loaded := hsaves ▸ h.loaded
  past := by
    rw [hsaves, htombstones]
    exact h.past
  current := by
    rw [hsaves, htombstones, hsession]
    exact h.current
  watching w := by
    have := h.watching w
    unfold WatchesKey Sessions.accepts at this ⊢
    rwa [hworkers, hrevision, hsession]

theorem backups (h : FenceInvariant s) : ∀ write ∈ s.log.backups,
    write.loaded.deletes = write.written.deletes :=
  fun write hwrite => h.safe.fenced write (List.mem_append_right _ hwrite)

/-- A save that succeeds is above all others since the last tombstone. -/
theorem version_le_of_accepts (h : FenceInvariant s) {state : SessionState δ}
    (haccepts : s.accepts state = true) {save : SessionWrite δ}
    (hsave : save ∈ s.log.saves)
    (hsince : save.written.tombstones = s.log.mark.tombstones) :
    save.version ≤ state.version := by
  obtain ⟨current, hcurrent, hle⟩ := h.current save hsave hsince
  rw [Sessions.accepts, hcurrent] at haccepts
  simp only [Bool.and_eq_true, decide_eq_true_eq] at haccepts
  exact hle.trans haccepts.2

theorem exec (h : FenceInvariant s) (hkeeps : KeepsFence s w .exec) :
    FenceInvariant (s.exec w) := by
  unfold Sessions.exec
  split
  · rename_i held revision hw
    split_ifs with hrevision
    · subst hrevision
      have hloaded : held.loaded = s.log.mark := hkeeps held hw
      have haccepts : s.accepts held.state = true := by
        have hwatching := h.watching w s.revision (by rw [hw])
        exact hwatching.2 rfl held (by rw [hw])
      -- the write, above the earlier ones
      have habove : ∀ save ∈ s.log.saves,
          save.written.tombstones = s.log.mark.tombstones →
            save.version < (s.writeOf held).version := by
        intro save hsave hsince
        have := h.version_le_of_accepts haccepts hsave hsince
        simp only [Sessions.writeOf, SessionWrite.version] at this ⊢
        omega
      refine setWorker ?_ fun _ heq => by cases heq
      refine ⟨⟨?_, ?_, ?_, ?_⟩, ?_, ?_, ?_, ?_⟩
      · intro save hsave version hversion
        rcases List.mem_append.mp hsave with hsave | hsave
        · exact h.safe.replaced save hsave version hversion
        · rw [List.mem_singleton.mp hsave] at hversion ⊢
          obtain ⟨current, hcurrent, rfl⟩ := Option.map_eq_some_iff.mp hversion
          rw [Sessions.accepts, hcurrent] at haccepts
          simp only [Bool.and_eq_true, decide_eq_true_eq] at haccepts
          simp only [Sessions.writeOf, SessionWrite.version]
          omega
      · refine List.pairwise_append.mpr ⟨h.safe.increasing,
          List.pairwise_singleton _ _, fun save hsave later hlater => ?_⟩
        rw [List.mem_singleton.mp hlater]
        exact habove save hsave
      · refine List.pairwise_append.mpr ⟨h.safe.unique,
          List.pairwise_singleton _ _, fun save hsave later hlater => ?_⟩
        rw [List.mem_singleton.mp hlater]
        rintro ⟨hsince, hbase⟩
        have hsince' : save.written.tombstones = s.log.mark.tombstones := by
          rw [← h.loaded save hsave, hsince, ← hloaded]
          rfl
        have hlt := habove save hsave hsince'
        simp only [SessionWrite.version, hbase] at hlt
        omega
      · intro write hwrite
        rcases List.mem_append.mp hwrite with hwrite | hwrite
        · rcases List.mem_append.mp hwrite with hwrite | hwrite
          · exact h.safe.fenced write (List.mem_append_left _ hwrite)
          · rw [List.mem_singleton.mp hwrite]
            exact congrArg DeleteMark.deletes hloaded
        · exact h.backups write hwrite
      · intro save hsave
        rcases List.mem_append.mp hsave with hsave | hsave
        · exact h.loaded save hsave
        · rw [List.mem_singleton.mp hsave]
          exact hloaded
      · intro save hsave
        rcases List.mem_append.mp hsave with hsave | hsave
        · exact h.past save hsave
        · rw [List.mem_singleton.mp hsave]
          exact le_refl _
      · intro save hsave hsince
        refine ⟨_, rfl, ?_⟩
        rcases List.mem_append.mp hsave with hsave | hsave
        · exact (habove save hsave hsince).le
        · rw [List.mem_singleton.mp hsave]
          exact le_refl _
      · exact h.watching_of_lt (Nat.lt_succ_self _) rfl
    · exact h.setCall (by simp)
  · exact h

theorem tombstone (h : FenceInvariant s) :
    FenceInvariant (s.tombstone codec w) := by
  unfold Sessions.tombstone
  split_ifs
  · refine setCall ?_ (by simp)
    refine ⟨⟨h.safe.replaced, h.safe.increasing, h.safe.unique,
      h.safe.fenced⟩, h.loaded, fun save hsave => ?_,
      fun save hsave hsince => ?_, ?_⟩
    · exact (h.past save hsave).trans (Nat.le_succ _)
    · have hpast := h.past save hsave
      dsimp only at hsince
      omega
    · exact h.watching_of_lt (Nat.lt_succ_self _) rfl
  · exact h

theorem clearTombstone (h : FenceInvariant s)
    (hkeeps : KeepsFence s w .clearTombstone) :
    FenceInvariant (s.clearTombstone w) := by
  unfold Sessions.clearTombstone
  split_ifs with hcall
  · refine setCall ?_ (by simp)
    refine ⟨⟨h.safe.replaced, h.safe.increasing, h.safe.unique,
      h.safe.fenced⟩, h.loaded, h.past, fun save hsave hsince => ?_, ?_⟩
    · exact absurd hsince (hkeeps hcall save hsave)
    · exact h.watching_of_lt (Nat.lt_succ_self _) rfl
  · exact h

theorem backUp (h : FenceInvariant s) {ok : Bool}
    (hkeeps : KeepsFence s w (.backUp ok)) : FenceInvariant (s.backUp w ok) := by
  unfold Sessions.backUp
  split
  · rename_i held number hw
    split_ifs with hok
    · refine setCall ?_ (by simp)
      refine h.of_backups rfl rfl rfl rfl rfl ?_
      intro write hwrite
      rcases List.mem_append.mp hwrite with hwrite | hwrite
      · exact h.backups write hwrite
      · rw [List.mem_singleton.mp hwrite]
        exact hkeeps hok held number hw
    · exact h.setCall (by simp)
  · exact h

theorem watch (h : FenceInvariant s) : FenceInvariant (s.watch w) := by
  unfold Sessions.watch
  split
  · rename_i held hw
    split_ifs with haccepts
    · refine h.setWorker fun revision hcall => ?_
      obtain rfl : s.revision = revision := by simpa using hcall
      refine ⟨le_refl _, fun _ held' hheld => ?_⟩
      rw [hw] at hheld
      cases hheld
      exact haccepts
    · exact h
  · exact h

theorem access (h : FenceInvariant s) {access : SessionAccess δ}
    (hkeeps : KeepsFence s w access) :
    FenceInvariant (s.access codec w access) := by
  cases access with
  | create =>
      change FenceInvariant (s.create codec w)
      unfold Sessions.create
      split_ifs
      · exact h.returnState _
      · exact h
  | work checkpoint =>
      change FenceInvariant (s.work w checkpoint)
      unfold Sessions.work
      split
      · exact h.setWorker fun _ heq => by cases heq
      · exact h
  | loadSession =>
      change FenceInvariant (s.loadSession w)
      unfold Sessions.loadSession
      split_ifs
      · split
        · exact h.returnState _
        · exact h.setCall (by simp)
      · exact h
  | loadMarker =>
      change FenceInvariant (s.loadMarker w)
      unfold Sessions.loadMarker
      split_ifs
      · exact h.returnState _
      · exact h.setCall (by simp)
      · exact h
  | loadStore ok =>
      change FenceInvariant (s.loadStore codec w ok)
      unfold Sessions.loadStore
      split_ifs
      · apply returnState
        exact h.of_backups rfl rfl rfl rfl rfl h.backups
      · apply returnState
        exact h.of_backups rfl rfl rfl rfl rfl h.backups
      · exact h
  | watch => exact h.watch
  | exec => exact h.exec hkeeps
  | backUp ok => exact h.backUp hkeeps
  | settleMarker =>
      change FenceInvariant (s.settleMarker w)
      unfold Sessions.settleMarker
      split
      · refine setCall ?_ (by simp)
        exact h.of_backups rfl rfl rfl rfl rfl h.backups
      · exact h
  | tombstone => exact h.tombstone
  | deleteStored ok =>
      change FenceInvariant (s.deleteStored w ok)
      unfold Sessions.deleteStored
      split_ifs
      · refine setCall ?_ (by simp)
        exact h.of_backups rfl rfl rfl rfl rfl h.backups
      · exact h.setCall (by simp)
      · exact h
  | readTombstone =>
      change FenceInvariant (s.readTombstone w)
      unfold Sessions.readTombstone
      split_ifs
      · exact h.setCall (by simp)
      · exact h
  | clearTombstone => exact h.clearTombstone hkeeps
  | evict => exact hkeeps.elim

end FenceInvariant

/-! ## Every run -/

end VirtualContext
