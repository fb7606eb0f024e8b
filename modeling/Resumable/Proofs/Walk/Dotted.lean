/-
  Resumable.Proofs.Walk.Dotted — dotted paths as expressions.

  The value of a call is read from a dotted path: a name, and the members behind it, one after the
  other.  So what holds of names and passes from a base to its members holds of the path
  (`dotted_of`).
-/
import Resumable.Program.Transform

namespace Resumable.Program.Naming

/-! ## §1. Paths. -/

/-- What holds of a name, and of a member if it holds of the base, holds of a dotted path.  It may
    speak of the parts that were spelled so far. -/
theorem dotted_of {P : List String → Node → Prop} (path : String) (name : ∀ x, P [x] (.name x))
    (dot : ∀ x xs n f, P (x :: xs) n → P (x :: xs ++ [f]) (.dot n f)) :
    P (parts path) (dotted path) := by
  have members (x : String) (fields : List String) : ∀ xs n, P (x :: xs) n →
      P (x :: xs ++ fields) (fields.foldl Node.dot n) := by
    induction fields with
    | nil =>
      intro xs n h
      rwa [List.append_nil]
    | cons f fields ih =>
      intro xs n h
      rw [List.append_cons]
      exact ih _ _ (dot x xs n f h)
  unfold parts dotted
  cases path.splitOn "." with
  | nil => exact name ""
  | cons x rest => exact members x rest [] _ (name x)

theorem parts_cons (path : String) : ∃ root fields, parts path = root :: fields := by
  unfold parts
  cases path.splitOn "." with
  | nil => exact ⟨"", [], rfl⟩
  | cons root fields => exact ⟨root, fields, rfl⟩

/-- The expression of a path with known parts. -/
theorem dotted_eq {path root : String} {fields : List String} (h : parts path = root :: fields) :
    dotted path = fields.foldl Node.dot (.name root) := by
  have hfold : dotted path = (parts path).tail.foldl Node.dot (.name ((parts path).headD "")) := by
    refine dotted_of (P := fun xs n => n = xs.tail.foldl Node.dot (.name (xs.headD ""))) path
      (fun _ => rfl) fun x xs n f hn => ?_
    rw [List.cons_append, List.tail_cons, List.foldl_append, hn]
    rfl
  rw [hfold, h]
  rfl

/-! ## §2. Splitting. -/

/-- A piece of text without a separator is skipped. -/
theorem splitOnAux_skip {s sep : String} {b i : String.Pos.Raw} {r : List String}
    (he : i.atEnd s = false) (hc : (i.get s == (0 : String.Pos.Raw).get sep) = false) :
    s.splitOnAux sep b i 0 r = s.splitOnAux sep b ((i.unoffsetBy 0).next s) 0 r := by
  rw [String.splitOnAux, he, hc]
  rfl

theorem parts_eq {path : String} {xs : List String} (h : path.splitOn "." = xs) (hxs : xs ≠ []) :
    parts path = xs := by
  unfold parts
  rw [h]
  cases xs with
  | nil => exact absurd rfl hxs
  | cons root fields => rfl

/-- The usual path of return values. -/
theorem parts_usual : parts "self.returnValue" = ["self", "returnValue"] := by
  have hsplit : "self.returnValue".splitOn "." = ["self", "returnValue"] := by
    rw [String.splitOn, if_neg (by decide)]
    repeat rw [splitOnAux_skip (by decide) (by decide)]
    rw [String.splitOnAux, if_neg (by decide), if_pos (by decide)]
    dsimp only
    rw [if_pos (by decide)]
    repeat rw [splitOnAux_skip (by decide) (by decide)]
    rw [String.splitOnAux, if_pos (by decide)]
    decide
  exact parts_eq hsplit (List.cons_ne_nil _ _)

end Resumable.Program.Naming
