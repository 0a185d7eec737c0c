import VirtualContext.Core.IngestHistory

/-!
# Sliding windows of one transcript

A client resends overlapping windows of a transcript whose turns all differ.
As long as each window has enough in common with what is stored already, the
store holds exactly the turns that the windows cover.
-/

namespace VirtualContext

open VirtualContext.Library

/-- A call that delivers the turns of a transcript from `lo` up to `hi`. -/
structure WindowCall (turns : List HexDigest) (conversationId : ConversationId)
    (epoch : Int) where
  call : IngestCall
  lo : Nat
  hi : Nat
  le : lo ≤ hi
  bound : hi ≤ turns.length
  own : call.ctx.conversationId = conversationId
  lifecycle : call.expectedLifecycleEpoch = epoch
  short : call.allowShortOverlap = true
  payload : call.ctx.prepared.map (·.turnHash) = window turns lo hi

/-- The number of positions that two intervals share. -/
def commonTurns (lo hi lo' hi' : Nat) : Nat := min hi hi' - max lo lo'

/-- Three common turns, or one when either side has fewer than three. -/
def Overlapping (lo hi lo' hi' : Nat) : Prop :=
  3 ≤ commonTurns lo hi lo' hi' ∨
    (min (hi - lo) (hi' - lo') < 3 ∧ 1 ≤ commonTurns lo hi lo' hi')

section

variable {turns : List HexDigest} {conversationId : ConversationId}
  {epoch : Int}

/-- Every window overlaps with what the ones before it cover. -/
def Chained : (lo hi : Nat) → List (WindowCall turns conversationId epoch) → Prop
  | _, _, [] => True
  | lo, hi, w :: ws =>
      Overlapping lo hi w.lo w.hi ∧ Chained (min lo w.lo) (max hi w.hi) ws

/-- A state in which the conversation holds one interval of the transcript. -/
structure Holds (sha : Sha256) (turns : List HexDigest)
    (conversationId : ConversationId) (epoch : Int) (lo hi : Nat) (t : Tables)
    (n : Nat) : Prop where
  drawn : t.Drawn n
  lives : t.LivesIn conversationId epoch
  anchors : AnchorsCurrent sha t conversationId
  hashes : t.hashes conversationId = window turns lo hi
  le : lo ≤ hi
  bound : hi ≤ turns.length

theorem Overlapping.lt {lo hi lo' hi' : Nat} (h : Overlapping lo hi lo' hi') :
    max lo lo' < min hi hi' := by
  unfold Overlapping commonTurns at h
  omega

/-- Common turns are a slice that both windows share. -/
theorem sharedSlice_window {lo hi lo' hi' count : Nat} (hhi : hi ≤ turns.length)
    (hhi' : hi' ≤ turns.length) (h : max lo lo' + count ≤ min hi hi') :
    SharedSlice (window turns lo hi) (window turns lo' hi') count
      (max lo lo' - lo') (max lo lo' - lo) := by
  refine ⟨?_, ?_, Alignment.slices_agree_iff.mpr fun k hk => ?_⟩
  · rw [length_window hhi']
    omega
  · rw [length_window hhi]
    omega
  · rw [getElem?_window (by omega), getElem?_window (by omega)]
    congr 1
    omega

theorem Overlapping.enoughShared {lo hi lo' hi' : Nat}
    (h : Overlapping lo hi lo' hi') (hhi : hi ≤ turns.length)
    (hhi' : hi' ≤ turns.length) :
    EnoughShared (window turns lo hi) (window turns lo' hi') := by
  rcases h with hthree | ⟨hshort, hone⟩
  · exact .inl ⟨_, _, sharedSlice_window hhi hhi' (by
      unfold commonTurns at hthree
      omega)⟩
  · refine .inr ⟨?_, _, _, sharedSlice_window hhi hhi' (by
      unfold commonTurns at hone
      omega)⟩
    rwa [length_window hhi, length_window hhi']

/-- Windows meet at an end of what is stored, so their rows have room. -/
theorem hasRoom_of_windows {existing incoming : List CanonicalTurnRow}
    {lo hi lo' hi' : Nat} (hnodup : turns.Nodup) (hhi : hi ≤ turns.length)
    (hhi' : hi' ≤ turns.length)
    (hexisting : existing.map (·.turnHash) = window turns lo hi)
    (hincoming : incoming.map (·.turnHash) = window turns lo' hi')
    (hkeys : Increasing (fun row => row.sortKey) existing) {a : Alignment}
    (h : a.Truthful (existing.map (·.turnHash)) (incoming.map (·.turnHash)))
    (hmax : a.Maximal (existing.map (·.turnHash)) (incoming.map (·.turnHash))) :
    a.HasRoom existing incoming := by
  have hlength : existing.length = (window turns lo hi).length := by
    rw [← hexisting, List.length_map]
  have hlength' : incoming.length = (window turns lo' hi').length := by
    rw [← hincoming, List.length_map]
  rw [hexisting, hincoming] at h hmax
  have hmax' := Alignment.overlap_maximal h hmax
  constructor
  · rcases hmax'.window_left hnodup hhi hhi' with hzero | hzero
    · intro l r hl
      rw [show a.existingStart = 0 from hzero] at hl
      simp [keyBefore?] at hl
    · rw [show a.incomingStart = 0 from hzero]
      exact roomAt_zero hkeys _
  · rcases hmax'.window_right hnodup hhi hhi' with hend | hend
    · intro l r _ hr
      rw [show a.existingStart + a.overlapLen = existing.length from
        hend.trans hlength.symm] at hr
      simp [keyOf?] at hr
    · rw [show a.incomingStart + a.overlapLen = incoming.length from
        hend.trans hlength'.symm, Nat.sub_self]
      exact roomAt_zero hkeys _

/-! ## One window -/

variable {sha : Sha256} {lo hi : Nat} {t : Tables} {n : Nat}

theorem Holds.existing (h : Holds sha turns conversationId epoch lo hi t n) :
    ((t.backfilled conversationId).loadRows conversationId).map (·.turnHash) =
      window turns lo hi := by
  rw [Tables.hashes_loadRows, Tables.hashes_eq, Tables.content_backfilled,
    ← Tables.hashes_eq, h.hashes]

/-- A call whose rows have room leaves the hashes that it merges. -/
theorem Holds.merge (h : Holds sha turns conversationId epoch lo hi t n)
    (w : WindowCall turns conversationId epoch) (alignment : Option Alignment)
    (hne : w.call.ctx.prepared ≠ [])
    (hplaced : Placed sha w.call.ctx w.call.allowShortOverlap
      (t.backfilled w.call.ctx.conversationId) alignment)
    (hhashes : mergeOrder alignment
        ((unmatchedRows (w.call.existing t) w.call.ctx.prepared alignment).map
          (·.turnHash)) (window turns lo hi) =
      window turns (min lo w.lo) (max hi w.hi)) :
    ∃ result t' n', w.call.run sha (.idle t n) = (.ok result, .idle t' n') ∧
      Holds sha turns conversationId epoch (min lo w.lo) (max hi w.hi) t' n' := by
  obtain ⟨call, lo', hi', hle, hbound, rfl, rfl, hshort, hpayload⟩ := w
  have hdrawn := h.drawn.backfilled call.ctx.conversationId
  obtain ⟨counts, batch, merged, hmerged, -, hbatch, hrun⟩ :=
    ingestPreparedTurns_run h.drawn h.lives hne hplaced
  refine ⟨_, _, _, hrun, ?_, ?_, ?_, ?_, ?_, ?_⟩
  · exact (hmerged.drawn hdrawn).settled sha _ _
      (hbatch.trans_le (Nat.le_add_right _ _))
  · apply h.lives.congr
    rw [Tables.conversations_settled]
    exact t.conversations_backfilled _
  · exact hmerged.anchorsCurrent hdrawn (h.anchors.backfilled _) batch
  · rw [Tables.hashes_eq, Tables.content_settled, ← Tables.hashes_eq,
      hmerged.hashes, ← Tables.hashes_loadRows, h.existing]
    exact hhashes
  · exact (Nat.min_le_left _ _).trans (h.le.trans (Nat.le_max_left _ _))
  · exact Nat.max_le.mpr ⟨h.bound, hbound⟩

/-- A call is on a state that holds its conversation. -/
theorem Holds.livesIn (h : Holds sha turns conversationId epoch lo hi t n)
    (w : WindowCall turns conversationId epoch) :
    t.LivesIn w.call.ctx.conversationId w.call.expectedLifecycleEpoch := by
  rw [w.own, w.lifecycle]
  exact h.lives

theorem Holds.anchorsCurrent
    (h : Holds sha turns conversationId epoch lo hi t n)
    (w : WindowCall turns conversationId epoch) :
    AnchorsCurrent sha t w.call.ctx.conversationId := by
  rw [w.own]
  exact h.anchors

/-- The first window fills an empty conversation. -/
theorem Holds.first {start : Nat}
    (h : Holds sha turns conversationId epoch start start t n)
    (w : WindowCall turns conversationId epoch) (hstart : w.lo = start) :
    ∃ result t' n', w.call.run sha (.idle t n) = (.ok result, .idle t' n') ∧
      Holds sha turns conversationId epoch w.lo w.hi t' n' := by
  subst hstart
  have hspan : min w.lo w.lo = w.lo ∧ max w.lo w.hi = w.hi :=
    ⟨Nat.min_self _, Nat.max_eq_right w.le⟩
  have hempty : w.call.existing t = [] := by
    have := h.existing
    rw [window_self, List.map_eq_nil_iff] at this
    rwa [IngestCall.existing, w.own]
  by_cases hne : w.call.ctx.prepared = []
  · obtain ⟨batch, hbatch, hrun⟩ := ingestPreparedTurns_run_empty sha
      w.call.allowShortOverlap n (h.livesIn w) hne
    have hsame : w.hi = w.lo := by
      have hlength := congrArg List.length w.payload
      rw [hne, length_window w.bound] at hlength
      have := w.le
      simp only [List.map_nil, List.length_nil] at hlength
      omega
    rw [hsame]
    refine ⟨_, _, _, hrun, ?_, ?_, ?_, ?_, le_refl _, h.bound⟩
    · exact ((h.drawn.backfilled _).mono (Nat.le_succ n)).withBatch hbatch.le
    · exact h.lives.congr (t.conversations_backfilled _)
    · exact (h.anchors.backfilled _).withBatch batch
    · change (t.backfilled _).hashes conversationId = _
      rw [Tables.hashes_eq, Tables.content_backfilled, ← Tables.hashes_eq,
        h.hashes]
  · rw [← hspan.1, ← hspan.2]
    apply h.merge w none hne
    · refine ⟨?_, by simp, by simp⟩
      unfold alignWith
      rw [if_pos]
      rw [show (t.backfilled w.call.ctx.conversationId).loadRows
        w.call.ctx.conversationId = [] from hempty]
      rfl
    · rw [hempty, window_self, hspan.1, hspan.2]
      exact w.payload

/-- A window that overlaps with the stored interval extends it. -/
theorem Holds.extend (h : Holds sha turns conversationId epoch lo hi t n)
    (hnodup : turns.Nodup) (w : WindowCall turns conversationId epoch)
    (hoverlap : Overlapping lo hi w.lo w.hi) :
    ∃ result t' n', w.call.run sha (.idle t n) = (.ok result, .idle t' n') ∧
      Holds sha turns conversationId epoch (min lo w.lo) (max hi w.hi) t' n' := by
  have hexisting : (w.call.existing t).map (·.turnHash) = window turns lo hi := by
    unfold IngestCall.existing
    rw [w.own]
    exact h.existing
  have hne : w.call.ctx.prepared ≠ [] := by
    intro hnil
    have hlength := congrArg List.length w.payload
    rw [hnil, length_window w.bound] at hlength
    have := hoverlap.lt
    simp only [List.map_nil, List.length_nil] at hlength
    omega
  have hcurrent := h.anchorsCurrent w
  have honest := w.call.honest hcurrent
  obtain ⟨alignment, halign, hspec⟩ := alignWith_spec honest
  cases alignment with
  | none =>
      exfalso
      unfold IngestCall.Honest at honest
      rw [w.short] at honest halign
      apply alignWith_ne_none honest
        (w.call.indexComplete hcurrent 3 (by simp)) _ halign
      rw [hexisting, w.payload]
      exact hoverlap.enoughShared h.bound w.bound
  | some a =>
      obtain ⟨htruthful, hmax⟩ := hspec a rfl
      have hroom := hasRoom_of_windows hnodup h.bound w.bound hexisting w.payload
        ((t.backfilled w.call.ctx.conversationId).loadRows_increasing
          w.call.ctx.conversationId) htruthful hmax
      apply h.merge w (some a) hne
      · refine ⟨halign, ?_, ?_⟩
        · rintro _ ⟨⟩
          exact htruthful.within hmax.pos
        · rintro _ ⟨⟩
          exact hroom
      · rw [← hexisting, mergeOrder_eq_splice htruthful hmax.pos]
        have hoverlapMax := Alignment.overlap_maximal htruthful hmax
        revert hoverlapMax
        generalize Alignment.overlap htruthful hmax.pos = o
        revert o
        rw [hexisting, w.payload]
        intro o homax
        exact homax.splice_window hnodup h.le w.le h.bound w.bound

/-! ## All windows -/

/-- The interval that the windows cover, grown from a first one. -/
theorem Holds.run (hnodup : turns.Nodup)
    (ws : List (WindowCall turns conversationId epoch))
    (h : Holds sha turns conversationId epoch lo hi t n)
    (hchain : Chained lo hi ws) :
    ∃ lo' hi' t' n', runCalls sha (ws.map (·.call)) (.idle t n) = .idle t' n' ∧
      Holds sha turns conversationId epoch lo' hi' t' n' ∧
      ∀ i, (lo' ≤ i ∧ i < hi') ↔
        (lo ≤ i ∧ i < hi) ∨ ∃ w ∈ ws, w.lo ≤ i ∧ i < w.hi := by
  induction ws generalizing lo hi t n with
  | nil => exact ⟨lo, hi, t, n, rfl, h, by simp⟩
  | cons w ws ih =>
      obtain ⟨hoverlap, hrest⟩ := hchain
      obtain ⟨result, t₁, n₁, hrun, hholds⟩ := h.extend hnodup w hoverlap
      obtain ⟨lo', hi', t', n', hruns, hholds', hcover⟩ := ih hholds hrest
      refine ⟨lo', hi', t', n', ?_, hholds', fun i => ?_⟩
      · rw [List.map_cons, runCalls, List.foldl_cons, hrun]
        exact hruns
      · have hlt := hoverlap.lt
        rw [hcover i]
        simp only [List.mem_cons, exists_eq_or_imp, ← or_assoc]
        apply or_congr_left
        omega

/-- Overlapping windows leave exactly the turns that they cover. -/
theorem windows_converge (sha : Sha256) {turns : List HexDigest}
    (hnodup : turns.Nodup) {conversationId : ConversationId} {epoch : Int}
    (s : Store) (hlives : s.tables.LivesIn conversationId epoch)
    (hempty : s.tables.canonicalTurns.ordered conversationId = [])
    (first : WindowCall turns conversationId epoch)
    (rest : List (WindowCall turns conversationId epoch))
    (hchain : Chained first.lo first.hi rest) :
    ∃ lo hi, hi ≤ turns.length ∧
      (∀ i, (lo ≤ i ∧ i < hi) ↔ ∃ w ∈ first :: rest, w.lo ≤ i ∧ i < w.hi) ∧
      (runCalls sha ((first :: rest).map (·.call)) s.conn).durable.hashes
        conversationId = window turns lo hi := by
  have hstart : Holds sha turns conversationId epoch first.lo first.lo s.tables
      s.supply := by
    refine ⟨s.drawn, hlives, ?_, ?_, le_refl _, first.le.trans first.bound⟩
    · apply anchorsCurrent_of_empty
      simp [Tables.loadRows, hempty]
    · simp [Tables.hashes, hempty]
  obtain ⟨result, t, n, hrun, hholds⟩ := hstart.first first rfl
  obtain ⟨lo, hi, t', n', hruns, hholds', hcover⟩ :=
    hholds.run hnodup rest hchain
  refine ⟨lo, hi, hholds'.bound, fun i => ?_, ?_⟩
  · rw [hcover i]
    simp
  · rw [List.map_cons, runCalls, List.foldl_cons, Store.conn, hrun]
    change (runCalls sha _ (.idle t n)).durable.hashes conversationId = _
    rw [hruns]
    exact hholds'.hashes

end

/-- The hashes of five messages. -/
def letters : List HexDigest :=
  (userCall ["a", "b", "c", "d", "e"]).ctx.prepared.map (·.turnHash)

/-- The last four of them, and then the first four. -/
def lastFour : WindowCall letters "chat" 1 :=
  ⟨userCall ["b", "c", "d", "e"], 1, 5, by decide, by decide +kernel, rfl, rfl,
    rfl, by decide +kernel⟩

def firstFour : WindowCall letters "chat" 1 :=
  ⟨userCall ["a", "b", "c", "d"], 0, 4, by decide, by decide +kernel, rfl, rfl,
    rfl, by decide +kernel⟩

theorem letters_nodup : letters.Nodup := by decide +kernel

theorem windows_converge_letters :
    ∃ lo hi, hi ≤ letters.length ∧
      (∀ i, (lo ≤ i ∧ i < hi) ↔
        ∃ w ∈ [lastFour, firstFour], w.lo ≤ i ∧ i < w.hi) ∧
      (runCalls .spelled ([lastFour, firstFour].map (·.call))
        chatStore.conn).durable.hashes "chat" = window letters lo hi := by
  have hlives : chatStore.tables.LivesIn "chat" 1 := ⟨_, rfl, rfl⟩
  have hchain : Chained lastFour.lo lastFour.hi [firstFour] :=
    ⟨.inl (by decide), trivial⟩
  exact windows_converge .spelled letters_nodup chatStore hlives rfl lastFour
    [firstFour] hchain

end VirtualContext
