/-
  Resumable.Program.Frames — buffers for nested regions.

  Every region of a program (the unit, a branch, a part of a loop, a function body) is collected
  in a frame of its own.  A frame is a buffer and a pending tail: what may suspend is emitted to
  the buffer after the tail, what cannot is deferred to the tail.  The content of a frame is the
  buffer followed by the tail, and each operation acts on that content as on a plain list.

  The stack is never empty: its bottom is the root frame.
-/
namespace Resumable.Program

variable {α : Type}

/-! ## §1. One frame. -/

/-- The buffer and the pending tail of one region. -/
structure Frame (α : Type) where
  buffer : List α := []
  tail : List α := []
  deriving Repr, Inhabited

namespace Frame

/-- Everything collected so far, in order. -/
def content (f : Frame α) : List α := f.buffer ++ f.tail

/-- Moves the tail into the buffer. -/
def flush (f : Frame α) : Frame α := { buffer := f.buffer ++ f.tail, tail := [] }

/-- Appends to the buffer, after the tail. -/
def emitAll (f : Frame α) (xs : List α) : Frame α := { f.flush with buffer := f.flush.buffer ++ xs }

/-- Queues one element on the tail. -/
def defer (f : Frame α) (x : α) : Frame α := { f with tail := f.tail ++ [x] }

/-- Puts an element at a position of the buffer; a position at or behind its end is the start of
    the tail. -/
def insertAt (f : Frame α) (mark : Nat) (x : α) : Frame α :=
  if mark ≥ f.buffer.length then { f with tail := x :: f.tail }
  else { f with buffer := f.buffer.take mark ++ x :: f.buffer.drop mark }

@[simp] theorem content_flush (f : Frame α) : f.flush.content = f.content := by
  simp [flush, content]

@[simp] theorem content_emitAll (f : Frame α) (xs : List α) :
    (f.emitAll xs).content = f.content ++ xs := by
  simp [emitAll, flush, content]

@[simp] theorem content_defer (f : Frame α) (x : α) : (f.defer x).content = f.content ++ [x] := by
  simp [defer, content]

end Frame

/-! ## §2. The stack. -/

/-- A stack of frames: the one in use and those below it, the root last. -/
structure Frames (α : Type) where
  top : Frame α := {}
  below : List (Frame α) := []
  deriving Repr, Inhabited

namespace Frames

/-- How many frames there are, the root included. -/
def depth (s : Frames α) : Nat := s.below.length + 1

/-- Opens a frame for a nested region. -/
def push (s : Frames α) : Frames α := { top := {}, below := s.top :: s.below }

/-- Closes the frame in use and hands over its content; the root frame stays. -/
def pop? (s : Frames α) : Option (List α × Frames α) :=
  match s.below with
  | [] => none
  | f :: rest => some (s.top.content, { top := f, below := rest })

/-- Appends one element to the buffer, after the tail. -/
def emit (s : Frames α) (x : α) : Frames α := { s with top := s.top.emitAll [x] }

/-- Appends a list to the buffer, after the tail. -/
def emitAll (s : Frames α) (xs : List α) : Frames α := { s with top := s.top.emitAll xs }

/-- Queues one element on the tail. -/
def defer (s : Frames α) (x : α) : Frames α := { s with top := s.top.defer x }

/-- Moves the tail into the buffer. -/
def flush (s : Frames α) : Frames α := { s with top := s.top.flush }

/-- The position behind everything collected in the frame in use. -/
def mark (s : Frames α) : Nat × Frames α := (s.top.flush.buffer.length, s.flush)

/-- Puts an element at a position that `mark` gave, before everything collected since. -/
def insertAt (s : Frames α) (mark : Nat) (x : α) : Frames α :=
  { s with top := s.top.insertAt mark x }

/-- The root frame. -/
def rootFrame (s : Frames α) : Frame α := s.below.getLastD s.top

/-- Whether only the root frame is open. -/
def balanced (s : Frames α) : Bool := s.below.isEmpty

/-- The content of the root frame, with its tail flushed. -/
def root (s : Frames α) : List α × Frames α :=
  (s.rootFrame.content,
    match s.below with
    | [] => s.flush
    | f :: rest => { s with below := (f :: rest).dropLast ++ [s.rootFrame.flush] })

@[simp] theorem pop?_push (s : Frames α) : s.push.pop? = some ([], s) := by
  simp [push, pop?, Frame.content]

end Frames

end Resumable.Program
