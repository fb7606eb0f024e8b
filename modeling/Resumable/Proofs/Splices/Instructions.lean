/-
  Resumable.Proofs.Splices.Instructions — instructions whose payloads were dissolved.

  Frames hold instructions and never look at them: whatever is done to a stack of frames can be done
  before or after each instruction is replaced by another one.

  Main results:
    * `Frames.pop?_map` — closing a frame;
    * `Frames.root_map` — the instructions of the root frame.
-/
import Resumable.Program.Frames
import Resumable.Program.Instr
import Resumable.Proofs.Splices.Dissolving

namespace Resumable.Program

/-! ## §1. Instructions. -/

namespace Instr

mutual

/-- An instruction with dissolved payloads. -/
def dissolved : Instr → Instr
  | leaf command code async => leaf command code.dissolved async
  | branch cond yes no hasElse shape yesTemp noTemp =>
      branch cond.dissolved (dissolvedAll yes) (dissolvedAll no) hasElse shape yesTemp noTemp
  | loop cond test step body condSplit stepExpr =>
      loop cond.dissolved (dissolvedAll test) (dissolvedAll step) (dissolvedAll body) condSplit
        stepExpr.dissolved
  | defun name params body => defun name params (dissolvedAll body)

/-- Instructions with dissolved payloads. -/
def dissolvedAll : List Instr → List Instr
  | [] => []
  | i :: rest => dissolved i :: dissolvedAll rest

end

theorem dissolvedAll_eq (is : List Instr) : dissolvedAll is = is.map dissolved := by
  induction is with
  | nil => rfl
  | cons i is ih => rw [dissolvedAll, ih, List.map_cons]

end Instr

/-! ## §2. Frames. -/

section

variable {α β : Type} (f : α → β)

/-- A frame with each element replaced. -/
def Frame.map (fr : Frame α) : Frame β :=
  { buffer := fr.buffer.map f, tail := fr.tail.map f }

/-- A stack of frames with each element replaced. -/
def Frames.map (fs : Frames α) : Frames β :=
  { top := fs.top.map f, below := fs.below.map (Frame.map f) }

namespace Frame

@[simp] theorem content_map (fr : Frame α) : (fr.map f).content = fr.content.map f := by
  simp [content, Frame.map]

@[simp] theorem emitAll_map (fr : Frame α) (xs : List α) :
    (fr.map f).emitAll (xs.map f) = (fr.emitAll xs).map f := by
  simp [emitAll, flush, Frame.map]

@[simp] theorem defer_map (fr : Frame α) (x : α) :
    (fr.map f).defer (f x) = (fr.defer x).map f := by
  simp [defer, Frame.map]

@[simp] theorem insertAt_map (fr : Frame α) (mark : Nat) (x : α) :
    (fr.map f).insertAt mark (f x) = (fr.insertAt mark x).map f := by
  unfold insertAt
  rw [show (fr.map f).buffer.length = fr.buffer.length from List.length_map ..]
  split <;> simp [Frame.map, List.map_take, List.map_drop]

end Frame

namespace Frames

@[simp] theorem emitAll_map (fs : Frames α) (xs : List α) :
    (fs.map f).emitAll (xs.map f) = (fs.emitAll xs).map f := by
  simp [emitAll, Frames.map]

@[simp] theorem emit_map (fs : Frames α) (x : α) : (fs.map f).emit (f x) = (fs.emit x).map f :=
  emitAll_map f fs [x]

@[simp] theorem defer_map (fs : Frames α) (x : α) :
    (fs.map f).defer (f x) = (fs.defer x).map f := by
  simp [defer, Frames.map]

@[simp] theorem insertAt_map (fs : Frames α) (mark : Nat) (x : α) :
    (fs.map f).insertAt mark (f x) = (fs.insertAt mark x).map f := by
  simp [insertAt, Frames.map]

@[simp] theorem mark_map (fs : Frames α) :
    (fs.map f).mark = (fs.mark.1, fs.mark.2.map f) := by
  simp [mark, flush, Frame.flush, Frames.map, Frame.map]

/-- A stack is closed by handing over the elements that were replaced. -/
theorem pop?_map (fs : Frames α) :
    (fs.map f).pop? = fs.pop?.map (fun p => (p.1.map f, p.2.map f)) := by
  obtain ⟨top, below⟩ := fs
  cases below with
  | nil => rfl
  | cons fr rest => simp [pop?, Frames.map]

@[simp] theorem balanced_map (fs : Frames α) : (fs.map f).balanced = fs.balanced := by
  obtain ⟨top, below⟩ := fs
  cases below <;> rfl

@[simp] theorem depth_map (fs : Frames α) : (fs.map f).depth = fs.depth := by
  simp [depth, Frames.map]

/-- The root frame holds the elements that were replaced, at least if it is the only one. -/
theorem root_map {fs : Frames α} (h : fs.balanced = true) :
    (fs.map f).root.1 = fs.root.1.map f := by
  obtain ⟨top, below⟩ := fs
  cases below with
  | nil => exact Frame.content_map f top
  | cons fr rest => cases h

end Frames

end

end Resumable.Program
