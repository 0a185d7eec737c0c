import Mathlib.Algebra.Order.Ring.Int
import Mathlib.Tactic.SplitIfs
import VirtualContext.Proxy.SessionState

/-!
# How fresh the backup is

A load that misses the key trusts the row in the store unless a marker says that
it is stale.  The row is that of the last save as long as the writes of the
store and of the marker follow the order of the saves in Redis.
-/

namespace VirtualContext

open VirtualContext.Library

variable {δ ω : Type} [DecidableEq ω] {codec : CheckpointCodec δ}
  {s s' : Sessions δ ω} {w : ω}

/-! ## The property and its condition -/

/-- What a load takes from the store is the checkpoint of the last save. -/
def FallbacksFresh (s : Sessions δ ω) : Prop :=
  ∀ fallback ∈ s.log.fallbacks, ∀ checkpoint ∈ fallback.1,
    fallback.2 = some checkpoint

/--
The accesses that keep the backup in order.  A save writes to the store only if
no later save has done so, and clears the marker only if no later save has set
it; a load reads the store only if the marker is still unset and the last save
is not between its write in Redis and the end of its backup.
-/
def KeepsOrder (s : Sessions δ ω) (w : ω) : SessionAccess δ → Prop
  | .backUp ok => ok = true → ∀ number, (s.workers w).call = .backup number →
      s.log.storedNumber ≤ number
  | .settleMarker => ∀ number, (s.workers w).call = .settle number true →
      s.storeStale = true → s.log.staleNumber ≤ number
  | .loadStore ok => ok = true → (s.workers w).call = .readStore →
      s.storeStale = false ∧
        ∀ w', (s.workers w').call ≠ .backup s.log.saves.length ∧
          (s.workers w').call ≠ .settle s.log.saves.length false
  | _ => True

/-- Nothing is saved yet, and no call has been made. -/
def NothingSaved (s : Sessions δ ω) : Prop :=
  (∀ w, s.workers w = {}) ∧ s.log = {} ∧ s.engineState = none

/-- An access that keeps the order. -/
def OrderedAccess (codec : CheckpointCodec δ) (s s' : Sessions δ ω) : Prop :=
  ∃ w access, KeepsOrder s w access ∧ s' = s.access codec w access

/-! ## The invariant -/

/-- The checkpoint of a save, by its number. -/
def SessionLog.savedAt (log : SessionLog δ) (number : Nat) : Option δ :=
  (log.saves[number - 1]?).map (·.checkpoint)

/-- What a worker is about to write is what it saved in Redis. -/
structure WritesSaved (log : SessionLog δ) (worker : Worker δ) : Prop where
  backup : ∀ number, worker.call = .backup number →
    1 ≤ number ∧ number ≤ log.saves.length ∧
      worker.held.map (·.state.checkpoint) = log.savedAt number
  settle : ∀ number stored, worker.call = .settle number stored →
    number ≤ log.saves.length ∧
      (stored = true → number ≤ log.storedNumber)

/-- The last save is backed up, or about to be, or has marked the store. -/
def LastAccounted (s : Sessions δ ω) : Prop :=
  s.log.storedNumber = s.log.saves.length ∨
    (s.storeStale = true ∧ s.log.staleNumber = s.log.saves.length) ∨
    ∃ w, (s.workers w).call = .backup s.log.saves.length ∨
      (s.workers w).call = .settle s.log.saves.length false

structure BackupInvariant (s : Sessions δ ω) : Prop where
  fresh : FallbacksFresh s
  stored : s.log.storedNumber ≤ s.log.saves.length
  stale : s.log.staleNumber ≤ s.log.saves.length
  row : ∀ checkpoint, s.engineState = some checkpoint →
    1 ≤ s.log.storedNumber ∧
      s.log.savedAt s.log.storedNumber = some checkpoint
  workers : ∀ w, WritesSaved s.log (s.workers w)
  last : LastAccounted s

theorem backupInvariant_start (h : NothingSaved s) : BackupInvariant s := by
  obtain ⟨hworkers, hlog, hrow⟩ := h
  refine ⟨?_, ?_, ?_, ?_, fun w => ⟨?_, ?_⟩, .inl ?_⟩
  · simp [FallbacksFresh, hlog]
  · simp [hlog]
  · simp [hlog]
  · simp [hrow]
  · intro number hcall
    rw [hworkers] at hcall
    cases hcall
  · intro number stored hcall
    rw [hworkers] at hcall
    cases hcall
  · simp [hlog]

theorem savedAt_append {log : SessionLog δ} {save : SessionWrite δ}
    {number : Nat} (h : number ≤ log.saves.length) (hpos : 1 ≤ number) :
    { log with saves := log.saves ++ [save] }.savedAt number =
      log.savedAt number := by
  unfold SessionLog.savedAt
  dsimp only
  rw [List.getElem?_append_left (by omega)]

theorem savedAt_length {log : SessionLog δ} :
    log.savedAt log.saves.length = log.lastSaved := by
  unfold SessionLog.savedAt SessionLog.lastSaved
  rw [List.getLast?_eq_getElem?]

/-- A call that is neither backing up nor settling. -/
def SessionCall.isAway (call : SessionCall) : Prop :=
  (∀ number, call ≠ .backup number) ∧ ∀ number stored, call ≠ .settle number stored

namespace BackupInvariant

theorem writesSaved_of_away {log : SessionLog δ} {worker : Worker δ}
    (h : worker.call.isAway) : WritesSaved log worker :=
  ⟨fun number heq => absurd heq (h.1 number),
    fun number stored heq => absurd heq (h.2 number stored)⟩

/-- A worker between two saves changes, and nothing that saves are about. -/
theorem setWorker (h : BackupInvariant s) {worker : Worker δ}
    (hbefore : (s.workers w).call.isAway) (hafter : worker.call.isAway) :
    BackupInvariant (s.setWorker w worker) where
  fresh := h.fresh
  stored := h.stored
  stale := h.stale
  row := h.row
  workers w' := by
    by_cases hw : w' = w
    · subst hw
      rw [Sessions.workers_setWorker_self]
      exact writesSaved_of_away hafter
    · rw [Sessions.workers_setWorker_of_ne hw]
      exact h.workers w'
  last := by
    rcases h.last with hlast | hlast | ⟨w', hlast⟩
    · exact .inl hlast
    · exact .inr (.inl hlast)
    · refine .inr (.inr ⟨w', ?_⟩)
      have hw : w' ≠ w := by
        rintro rfl
        rcases hlast with hlast | hlast
        · exact hbefore.1 _ hlast
        · exact hbefore.2 _ _ hlast
      rwa [Sessions.workers_setWorker_of_ne hw]

/-- The key in Redis plays no part, and a row may be deleted. -/
theorem of_row (h : BackupInvariant s) (hworkers : s'.workers = s.workers)
    (hstale : s'.storeStale = s.storeStale)
    (hsaves : s'.log.saves = s.log.saves)
    (hstored : s'.log.storedNumber = s.log.storedNumber)
    (hmarked : s'.log.staleNumber = s.log.staleNumber)
    (hrow : ∀ checkpoint, s'.engineState = some checkpoint →
      s.engineState = some checkpoint)
    (hfresh : FallbacksFresh s') : BackupInvariant s' where
  fresh := hfresh
  stored := by rw [hsaves, hstored]; exact h.stored
  stale := by rw [hsaves, hmarked]; exact h.stale
  row checkpoint hcheckpoint := by
    have := h.row checkpoint (hrow checkpoint hcheckpoint)
    unfold SessionLog.savedAt at this ⊢
    rwa [hsaves, hstored]
  workers w := by
    have := h.workers w
    rw [hworkers]
    refine ⟨fun number hcall => ?_, fun number stored hcall => ?_⟩
    · have := this.backup number hcall
      unfold SessionLog.savedAt at this ⊢
      rwa [hsaves]
    · have := this.settle number stored hcall
      rwa [hsaves, hstored]
  last := by
    have := h.last
    unfold LastAccounted at this ⊢
    rwa [hworkers, hstale, hsaves, hstored, hmarked]

theorem isAway_of_eq {call call' : SessionCall} (h : call = call')
    (haway : call'.isAway) : call.isAway := h ▸ haway

theorem isAway_idle : SessionCall.idle.isAway := ⟨by simp, by simp⟩

theorem returnState (h : BackupInvariant s)
    (hbefore : (s.workers w).call.isAway) (state : Option (SessionState δ)) :
    BackupInvariant (s.returnState w state) :=
  h.setWorker hbefore isAway_idle

theorem setCall (h : BackupInvariant s)
    (hbefore : (s.workers w).call.isAway) {call : SessionCall}
    (hafter : call.isAway) : BackupInvariant (s.setCall w call) :=
  h.setWorker hbefore hafter

/-- The row is that of the last save when a load reads it. -/
theorem lastSaved_of_row (h : BackupInvariant s)
    (hkeeps : KeepsOrder s w (.loadStore true))
    (hcall : (s.workers w).call = .readStore) {checkpoint : δ}
    (hrow : s.engineState = some checkpoint) :
    s.log.lastSaved = some checkpoint := by
  obtain ⟨hstale, hpending⟩ := hkeeps rfl hcall
  obtain ⟨hpos, hsaved⟩ := h.row checkpoint hrow
  rcases h.last with hlast | ⟨hmarked, -⟩ | ⟨w', hlast⟩
  · rw [← savedAt_length, ← hlast, hsaved]
  · rw [hstale] at hmarked
    cases hmarked
  · rcases hlast with hlast | hlast
    · exact absurd hlast (hpending w').1
    · exact absurd hlast (hpending w').2

theorem loadStore (h : BackupInvariant s) {ok : Bool}
    (hkeeps : KeepsOrder s w (.loadStore ok)) :
    BackupInvariant (s.loadStore codec w ok) := by
  unfold Sessions.loadStore
  by_cases hcall : (s.workers w).call = .readStore
  · rw [if_pos hcall]
    apply returnState
    swap
    · exact isAway_of_eq hcall ⟨by simp, by simp⟩
    refine h.of_row rfl rfl rfl rfl rfl (fun _ hrow => hrow) ?_
    intro fallback hfallback checkpoint hcheckpoint
    rcases List.mem_append.mp hfallback with hfallback | hfallback
    · exact h.fresh fallback hfallback checkpoint hcheckpoint
    · rw [List.mem_singleton.mp hfallback] at hcheckpoint ⊢
      cases ok with
      | false => cases hcheckpoint
      | true => exact h.lastSaved_of_row hkeeps hcall hcheckpoint
  · rw [if_neg hcall]
    exact h

/-- A save succeeds in Redis and is about to be backed up. -/
theorem exec (h : BackupInvariant s) : BackupInvariant (s.exec w) := by
  unfold Sessions.exec
  split
  · rename_i held revision hw
    have haway : (s.workers w).call.isAway :=
      isAway_of_eq (congrArg Worker.call hw) ⟨by simp, by simp⟩
    split_ifs with hrevision
    · have hlength : (s.log.saves ++ [s.writeOf held]).length =
          s.log.saves.length + 1 := by simp
      have hgrow : s.log.saves.length ≤
          (s.log.saves ++ [s.writeOf held]).length := by simp
      refine ⟨h.fresh, ?_, ?_, fun checkpoint hrow => ?_, fun w' => ?_, ?_⟩
      · have := h.stored
        dsimp only [Sessions.setWorker]
        omega
      · have := h.stale
        dsimp only [Sessions.setWorker]
        omega
      · obtain ⟨hpos, hsaved⟩ := h.row checkpoint hrow
        exact ⟨hpos, (savedAt_append h.stored hpos).trans hsaved⟩
      · by_cases hw' : w' = w
        · subst hw'
          rw [Sessions.workers_setWorker_self]
          refine ⟨fun number hcall => ?_, fun number stored hcall => ?_⟩
          · obtain rfl : s.log.saves.length + 1 = number := by
              simpa using hcall
            refine ⟨by omega, hlength.ge, ?_⟩
            simp [SessionLog.savedAt, Sessions.writeOf, Sessions.setWorker]
          · cases hcall
        · rw [Sessions.workers_setWorker_of_ne hw']
          refine ⟨fun number hcall => ?_, fun number stored hcall => ?_⟩
          · obtain ⟨hpos, hle, hsaved⟩ := (h.workers w').backup number hcall
            exact ⟨hpos, hle.trans hgrow,
              hsaved.trans (savedAt_append hle hpos).symm⟩
          · obtain ⟨hle, hstored⟩ := (h.workers w').settle number stored hcall
            exact ⟨hle.trans hgrow, hstored⟩
      · refine .inr (.inr ⟨w, .inl ?_⟩)
        simp [Sessions.setWorker]
    · exact h.setCall haway isAway_idle
  · exact h

theorem backUp (h : BackupInvariant s) {ok : Bool}
    (hkeeps : KeepsOrder s w (.backUp ok)) :
    BackupInvariant (s.backUp w ok) := by
  unfold Sessions.backUp
  split
  · rename_i held number hw
    have hcall : (s.workers w).call = .backup number := by rw [hw]
    obtain ⟨hpos, hle, hsaved⟩ := (h.workers w).backup number hcall
    have hother : ∀ w', (s.workers w').call = .backup s.log.saves.length →
        number ≠ s.log.saves.length → w' ≠ w := by
      rintro w' hlast hne rfl
      rw [hcall] at hlast
      exact hne (by simpa using hlast)
    have hsettling : ∀ w' number stored,
        (s.workers w').call = .settle number stored → w' ≠ w := by
      rintro w' number' stored hlast rfl
      rw [hcall] at hlast
      cases hlast
    split_ifs with hok
    · have horder : s.log.storedNumber ≤ number := hkeeps hok number hcall
      refine ⟨h.fresh, hle, h.stale, fun checkpoint hrow => ?_,
        fun w' => ?_, ?_⟩
      · cases hrow
        refine ⟨hpos, hsaved.symm.trans ?_⟩
        rw [hw]
        rfl
      · by_cases hw' : w' = w
        · subst hw'
          rw [Sessions.workers_setCall_self]
          refine ⟨fun number' heq => (nomatch heq),
            fun number' stored heq => ?_⟩
          obtain ⟨rfl, rfl⟩ : number = number' ∧ true = stored := by
            simpa using heq
          exact ⟨hle, fun _ => le_refl _⟩
        · rw [Sessions.workers_setCall_of_ne hw']
          refine ⟨(h.workers w').backup, fun number' stored heq => ?_⟩
          obtain ⟨hle', hstored⟩ := (h.workers w').settle number' stored heq
          exact ⟨hle', fun hok => (hstored hok).trans horder⟩
      · by_cases hlatest : number = s.log.saves.length
        · exact .inl hlatest
        · rcases h.last with hlast | hlast | ⟨w', hlast⟩
          · exact absurd (le_antisymm hle (hlast ▸ horder)) hlatest
          · exact .inr (.inl hlast)
          · refine .inr (.inr ⟨w', ?_⟩)
            have hne : w' ≠ w := by
              rcases hlast with hlast | hlast
              · exact hother w' hlast hlatest
              · exact hsettling w' _ _ hlast
            rwa [Sessions.workers_setCall_of_ne hne]
    · refine ⟨h.fresh, h.stored, h.stale, h.row, fun w' => ?_, ?_⟩
      · by_cases hw' : w' = w
        · subst hw'
          rw [Sessions.workers_setCall_self]
          refine ⟨fun number' heq => (nomatch heq),
            fun number' stored heq => ?_⟩
          obtain ⟨rfl, rfl⟩ : number = number' ∧ false = stored := by
            simpa using heq
          exact ⟨hle, fun heq => nomatch heq⟩
        · rw [Sessions.workers_setCall_of_ne hw']
          exact h.workers w'
      · rcases h.last with hlast | hlast | ⟨w', hlast⟩
        · exact .inl hlast
        · exact .inr (.inl hlast)
        · by_cases hlatest : number = s.log.saves.length
          · refine .inr (.inr ⟨w, .inr ?_⟩)
            simp [Sessions.setCall, Sessions.setWorker, hlatest]
          · refine .inr (.inr ⟨w', ?_⟩)
            have hne : w' ≠ w := by
              rcases hlast with hlast | hlast
              · exact hother w' hlast hlatest
              · exact hsettling w' _ _ hlast
            rwa [Sessions.workers_setCall_of_ne hne]
  · exact h

theorem settleMarker (h : BackupInvariant s)
    (hkeeps : KeepsOrder s w .settleMarker) :
    BackupInvariant (s.settleMarker w) := by
  unfold Sessions.settleMarker
  split
  · rename_i number stored hcall
    obtain ⟨hle, hstored⟩ := (h.workers w).settle number stored hcall
    have hpending : ∀ w' : ω,
        (s.workers w').call = .backup s.log.saves.length ∨
          (s.workers w').call = .settle s.log.saves.length false →
        ¬ (number = s.log.saves.length ∧ stored = false) → w' ≠ w := by
      rintro w' hlast hother rfl
      rw [hcall] at hlast
      exact hother (by simpa using hlast)
    refine ⟨h.fresh, h.stored, ?_, h.row, fun w' => ?_, ?_⟩
    · have := h.stale
      simp only [Sessions.setCall, Sessions.setWorker]
      split_ifs <;> omega
    · by_cases hw' : w' = w
      · subst hw'
        rw [Sessions.workers_setCall_self]
        exact writesSaved_of_away isAway_idle
      · rw [Sessions.workers_setCall_of_ne hw']
        exact ⟨(h.workers w').backup, (h.workers w').settle⟩
    · cases stored with
      | true =>
          have hcount := hstored rfl
          rcases h.last with hlast | ⟨hmarked, hlast⟩ | ⟨w', hlast⟩
          · exact .inl hlast
          · -- the marker was set by the last save, so that this is the last one
            have hlatest := hkeeps number hcall hmarked
            have heq : s.log.storedNumber = s.log.saves.length :=
              le_antisymm h.stored (by omega)
            exact .inl heq
          · have hne := hpending w' hlast (by simp)
            refine .inr (.inr ⟨w', ?_⟩)
            rwa [Sessions.workers_setCall_of_ne hne]
      | false =>
          rcases h.last with hlast | ⟨hmarked, hlast⟩ | ⟨w', hlast⟩
          · exact .inl hlast
          · refine .inr (.inl ⟨rfl, ?_⟩)
            simp only [Sessions.setCall, Sessions.setWorker]
            rw [if_neg (by simp), hlast]
            omega
          · by_cases hlatest : number = s.log.saves.length
            · have := h.stale
              refine .inr (.inl ⟨rfl, ?_⟩)
              simp only [Sessions.setCall, Sessions.setWorker]
              rw [if_neg (by simp)]
              omega
            · have hne := hpending w' hlast (by simp [hlatest])
              refine .inr (.inr ⟨w', ?_⟩)
              rwa [Sessions.workers_setCall_of_ne hne]
  · exact h

theorem access (h : BackupInvariant s) {access : SessionAccess δ}
    (hkeeps : KeepsOrder s w access) :
    BackupInvariant (s.access codec w access) := by
  have hsame {s' : Sessions δ ω} (hworkers : s'.workers = s.workers)
      (hstale : s'.storeStale = s.storeStale)
      (hlog : s'.log.saves = s.log.saves ∧
        s'.log.storedNumber = s.log.storedNumber ∧
        s'.log.staleNumber = s.log.staleNumber ∧
        s'.log.fallbacks = s.log.fallbacks)
      (hrow : ∀ checkpoint, s'.engineState = some checkpoint →
        s.engineState = some checkpoint) : BackupInvariant s' := by
    refine h.of_row hworkers hstale hlog.1 hlog.2.1 hlog.2.2.1 hrow ?_
    unfold FallbacksFresh
    rw [hlog.2.2.2]
    exact h.fresh
  cases access with
  | create =>
      change BackupInvariant (s.create codec w)
      unfold Sessions.create
      split_ifs with hcall
      · exact h.returnState (isAway_of_eq hcall isAway_idle) _
      · exact h
  | work checkpoint =>
      change BackupInvariant (s.work w checkpoint)
      unfold Sessions.work
      split
      · rename_i held hw
        exact h.setWorker
          (isAway_of_eq (congrArg Worker.call hw) isAway_idle) isAway_idle
      · exact h
  | loadSession =>
      change BackupInvariant (s.loadSession w)
      unfold Sessions.loadSession
      split_ifs with hcall
      · split
        · exact h.returnState (isAway_of_eq hcall isAway_idle) _
        · exact h.setCall (isAway_of_eq hcall isAway_idle) ⟨by simp, by simp⟩
      · exact h
  | loadMarker =>
      change BackupInvariant (s.loadMarker w)
      unfold Sessions.loadMarker
      split_ifs with hcall
      · exact h.returnState (isAway_of_eq hcall ⟨by simp, by simp⟩) _
      · exact h.setCall (isAway_of_eq hcall ⟨by simp, by simp⟩)
          ⟨by simp, by simp⟩
      · exact h
  | loadStore ok => exact h.loadStore hkeeps
  | watch =>
      change BackupInvariant (s.watch w)
      unfold Sessions.watch
      split
      · rename_i held hw
        split_ifs
        · exact h.setCall (isAway_of_eq (congrArg Worker.call hw) isAway_idle)
            ⟨by simp, by simp⟩
        · exact h
      · exact h
  | exec => exact h.exec
  | backUp ok => exact h.backUp hkeeps
  | settleMarker => exact h.settleMarker hkeeps
  | tombstone =>
      change BackupInvariant (s.tombstone codec w)
      unfold Sessions.tombstone
      split_ifs with hcall
      · refine setCall ?_ ?_ ?_
        · exact hsame rfl rfl ⟨rfl, rfl, rfl, rfl⟩ fun _ hrow => hrow
        · exact isAway_of_eq hcall isAway_idle
        · exact ⟨by simp, by simp⟩
      · exact h
  | deleteStored ok =>
      change BackupInvariant (s.deleteStored w ok)
      unfold Sessions.deleteStored
      split_ifs with hcall
      · refine setCall ?_ ?_ ?_
        · exact hsame rfl rfl ⟨rfl, rfl, rfl, rfl⟩ fun _ hrow => nomatch hrow
        · exact isAway_of_eq hcall ⟨by simp, by simp⟩
        · exact isAway_idle
      · exact h.setCall (isAway_of_eq hcall ⟨by simp, by simp⟩) isAway_idle
      · exact h
  | readTombstone =>
      change BackupInvariant (s.readTombstone w)
      unfold Sessions.readTombstone
      split_ifs with hcall
      · exact h.setCall (isAway_of_eq hcall.1 isAway_idle) ⟨by simp, by simp⟩
      · exact h
  | clearTombstone =>
      change BackupInvariant (s.clearTombstone w)
      unfold Sessions.clearTombstone
      split_ifs with hcall
      · refine setCall ?_ ?_ ?_
        · exact hsame rfl rfl ⟨rfl, rfl, rfl, rfl⟩ fun _ hrow => hrow
        · exact isAway_of_eq hcall ⟨by simp, by simp⟩
        · exact isAway_idle
      · exact h
  | evict => exact hsame rfl rfl ⟨rfl, rfl, rfl, rfl⟩ fun _ hrow => hrow

end BackupInvariant

/-! ## Every run -/

/-- In a run whose accesses keep the order no load returns an older checkpoint. -/
theorem fallbacksFresh_of_reach (codec : CheckpointCodec δ)
    (reach : Reach NothingSaved (OrderedAccess codec) s) :
    FallbacksFresh s := by
  refine (reach.invariant (fun _ => backupInvariant_start) ?_).fresh
  rintro s s' h ⟨w, access, hkeeps, rfl⟩
  exact h.access hkeeps

/-- A save that is backed up before the key is lost. -/
theorem fallbacksFresh_of_reach_backup :
    FallbacksFresh (({} : Sessions Nat Unit).run numberCodec
      [((), .create), ((), .work 1), ((), .watch), ((), .exec),
        ((), .backUp true), ((), .settleMarker), ((), .evict),
        ((), .loadSession), ((), .loadMarker), ((), .loadStore true)]) := by
  have hstart : Reach NothingSaved (OrderedAccess numberCodec)
      ({} : Sessions Nat Unit) := .start ⟨fun _ => rfl, rfl, rfl⟩
  have hcreate := hstart.step ⟨(), .create, trivial, rfl⟩
  have hwork := hcreate.step ⟨(), .work 1, trivial, rfl⟩
  have hwatch := hwork.step ⟨(), .watch, trivial, rfl⟩
  have hexec := hwatch.step ⟨(), .exec, trivial, rfl⟩
  have hbackup := hexec.step
    ⟨(), .backUp true, fun _ number _ => Nat.zero_le number, rfl⟩
  have hsettle := hbackup.step
    ⟨(), .settleMarker, fun number _ _ => Nat.zero_le number, rfl⟩
  have hevict := hsettle.step ⟨(), .evict, trivial, rfl⟩
  have hload := hevict.step ⟨(), .loadSession, trivial, rfl⟩
  have hmarker := hload.step ⟨(), .loadMarker, trivial, rfl⟩
  refine fallbacksFresh_of_reach numberCodec
    (hmarker.step ⟨(), .loadStore true, fun _ _ => ⟨rfl, fun _ => ?_⟩, rfl⟩)
  exact ⟨fun heq => (nomatch heq), fun heq => (nomatch heq)⟩

/-- The second save is backed up first, and the first one over it. -/
theorem older_backup_returned :
    ¬ FallbacksFresh (({} : Sessions Nat Bool).run numberCodec
      [(true, .create), (true, .work 1), (true, .watch), (true, .exec),
        (false, .loadSession), (false, .work 2), (false, .watch),
        (false, .exec), (false, .backUp true), (false, .settleMarker),
        (true, .backUp true), (true, .settleMarker), (true, .evict),
        (true, .loadSession), (true, .loadMarker),
        (true, .loadStore true)]) := by
  intro h
  unfold FallbacksFresh at h
  revert h
  decide

end VirtualContext
