import Mathlib.Data.List.Basic

/-!
# Cutting a stream into frames

A receiver keeps what it has not cut yet and cuts complete frames off its front.
If a complete frame stays what it is when more arrives, the frames do not depend
on how the stream was divided into chunks.
-/

namespace VirtualContext.Library

variable {α : Type}

/-- Where a buffer is cut: the length of its first frame, once that is complete. -/
structure Framer (α : Type) where
  cut : List α → Option Nat
  within : ∀ {buf n}, cut buf = some n → 0 < n ∧ n ≤ buf.length
  stable : ∀ {buf n} (more : List α), cut buf = some n → cut (buf ++ more) = some n
  complete : ∀ {buf n}, cut buf = some n → cut (buf.take n) = some n

namespace Framer

variable (framer : Framer α)

/-- At most so many frames off the front of a buffer, and what is left. -/
def cutUpTo : Nat → List α → List (List α) × List α
  | 0, buf => ([], buf)
  | limit + 1, buf =>
      match framer.cut buf with
      | none => ([], buf)
      | some n =>
          let later := cutUpTo limit (buf.drop n)
          (buf.take n :: later.1, later.2)

/-- All complete frames of a buffer, and what is left. -/
def frames (buf : List α) : List (List α) × List α :=
  framer.cutUpTo buf.length buf

/-- A frame of its own, with nothing after it. -/
def IsFrame (frame : List α) : Prop := framer.cut frame = some frame.length

/-- The frames cut from chunks that arrive one after the other. -/
def feed : List α → List (List α) → List (List α) × List α
  | buf, [] => ([], buf)
  | buf, chunk :: chunks =>
      let now := framer.frames (buf ++ chunk)
      let later := feed now.2 chunks
      (now.1 ++ later.1, later.2)

section

variable {framer} {buf frame rest : List α} {n limit : Nat}

theorem frames_of_none (h : framer.cut buf = none) : framer.frames buf = ([], buf) := by
  unfold frames
  cases buf.length with
  | zero => rfl
  | succ limit => rw [cutUpTo, h]

/-- A limit of the buffer's length is as good as any larger one. -/
theorem cutUpTo_eq_frames (h : buf.length ≤ limit) :
    framer.cutUpTo limit buf = framer.frames buf := by
  unfold frames
  generalize hlength : buf.length = length at h
  induction length using Nat.strongRecOn generalizing buf limit with
  | ind length ih =>
      cases hcut : framer.cut buf with
      | none =>
          cases limit <;> cases length <;> simp [cutUpTo, hcut]
      | some n =>
          obtain ⟨hpos, hle⟩ := framer.within hcut
          obtain ⟨limit, rfl⟩ := Nat.exists_eq_succ_of_ne_zero (by omega : limit ≠ 0)
          obtain ⟨length, rfl⟩ := Nat.exists_eq_succ_of_ne_zero (by omega : length ≠ 0)
          have hdrop : (buf.drop n).length = length + 1 - n := by
            rw [List.length_drop, hlength]
          have hshort : length + 1 - n < length + 1 := by omega
          have hlater (most : Nat) (h : length + 1 - n ≤ most) :
              framer.cutUpTo most (buf.drop n) = framer.cutUpTo (length + 1 - n) (buf.drop n) :=
            ih _ hshort hdrop h
          simp only [cutUpTo, hcut]
          rw [hlater limit (by omega), hlater length (by omega)]

theorem frames_of_some (h : framer.cut buf = some n) :
    framer.frames buf =
      (buf.take n :: (framer.frames (buf.drop n)).1, (framer.frames (buf.drop n)).2) := by
  obtain ⟨hpos, hle⟩ := framer.within h
  rw [← cutUpTo_eq_frames (Nat.le_succ buf.length), cutUpTo, h]
  dsimp only
  rw [cutUpTo_eq_frames (by rw [List.length_drop]; omega)]

/-- Induction along the frames of a buffer. -/
theorem frames_induction (framer : Framer α) {motive : List α → Prop}
    (stop : ∀ buf, framer.cut buf = none → motive buf)
    (next : ∀ buf n, framer.cut buf = some n → motive (buf.drop n) → motive buf)
    (buf : List α) : motive buf := by
  generalize hlength : buf.length = length
  induction length using Nat.strongRecOn generalizing buf with
  | ind length ih =>
      cases hcut : framer.cut buf with
      | none => exact stop buf hcut
      | some n =>
          obtain ⟨hpos, hle⟩ := framer.within hcut
          refine next buf n hcut (ih _ ?_ _ rfl)
          rw [List.length_drop]
          omega

/-- The frames and what is left are the buffer. -/
theorem flatten_frames (framer : Framer α) (buf : List α) :
    (framer.frames buf).1.flatten ++ (framer.frames buf).2 = buf := by
  induction buf using frames_induction framer with
  | stop buf h => rw [frames_of_none h, List.flatten_nil, List.nil_append]
  | next buf n h ih =>
      rw [frames_of_some h, List.flatten_cons, List.append_assoc, ih,
        List.take_append_drop]

/-- Nothing that is left can be cut. -/
theorem cut_rest (framer : Framer α) (buf : List α) :
    framer.cut (framer.frames buf).2 = none := by
  induction buf using frames_induction framer with
  | stop buf h => rwa [frames_of_none h]
  | next buf n h ih => rwa [frames_of_some h]

theorem isFrame_of_mem_frames (framer : Framer α) (buf : List α) :
    ∀ frame ∈ (framer.frames buf).1, framer.IsFrame frame := by
  induction buf using frames_induction framer with
  | stop buf h => simp [frames_of_none h]
  | next buf n h ih =>
      rw [frames_of_some h]
      intro frame hframe
      rcases List.mem_cons.mp hframe with rfl | hlater
      · rw [IsFrame, framer.complete h, List.length_take,
          Nat.min_eq_left (framer.within h).2]
      · exact ih frame hlater

/-- What arrives later does not change the frames that are complete. -/
theorem frames_append (framer : Framer α) (buf more : List α) :
    framer.frames (buf ++ more) =
      ((framer.frames buf).1 ++ (framer.frames ((framer.frames buf).2 ++ more)).1,
        (framer.frames ((framer.frames buf).2 ++ more)).2) := by
  induction buf using frames_induction framer with
  | stop buf h => rw [frames_of_none h, List.nil_append]
  | next buf n h ih =>
      have hle := (framer.within h).2
      rw [frames_of_some (framer.stable more h), frames_of_some h,
        List.take_append_of_le_length hle, List.drop_append_of_le_length hle, ih,
        List.cons_append]

/-- Chunks give the frames of what they are together. -/
theorem feed_eq (framer : Framer α) (buf : List α) (chunks : List (List α)) :
    framer.frames (buf ++ chunks.flatten) =
      ((framer.frames buf).1 ++ (framer.feed (framer.frames buf).2 chunks).1,
        (framer.feed (framer.frames buf).2 chunks).2) := by
  induction chunks generalizing buf with
  | nil => simp [feed]
  | cons chunk chunks ih =>
      rw [List.flatten_cons, ← List.append_assoc, ih, frames_append, feed]
      simp only [List.append_assoc]

theorem feed_nil (framer : Framer α) (chunks : List (List α)) :
    framer.feed [] chunks = framer.frames chunks.flatten := by
  have hempty : framer.frames [] = ([], []) := rfl
  have h := framer.feed_eq [] chunks
  rw [hempty] at h
  exact h.symm

theorem frames_frame_append (h : framer.IsFrame frame) (rest : List α) :
    framer.frames (frame ++ rest) =
      (frame :: (framer.frames rest).1, (framer.frames rest).2) := by
  have hcut : framer.cut (frame ++ rest) = some frame.length := framer.stable rest h
  rw [frames_of_some hcut, List.take_left, List.drop_left]

/-- Frames that are put together are cut apart again. -/
theorem frames_flatten {sent : List (List α)} (h : ∀ frame ∈ sent, framer.IsFrame frame)
    (rest : List α) :
    framer.frames (sent.flatten ++ rest) =
      (sent ++ (framer.frames rest).1, (framer.frames rest).2) := by
  induction sent with
  | nil => rfl
  | cons frame sent ih =>
      rw [List.flatten_cons, List.append_assoc,
        frames_frame_append (h frame List.mem_cons_self),
        ih fun other hother => h other (List.mem_cons_of_mem _ hother)]
      rfl

end

end Framer

end VirtualContext.Library
