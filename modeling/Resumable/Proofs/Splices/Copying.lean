/-
  Resumable.Proofs.Splices.Copying — what a tree dissolves into is copied like the tree.

  A copy of a splice is a splice of copies, and nothing else is copied to a splice.  So copying what
  a tree dissolves into gives what the copy of the tree dissolves into, and declares the same names
  on the way.

  Main statement: `rename_dissolved`.
-/
import Resumable.Proofs.Splices.Dissolving
import Resumable.Proofs.Walk.Copying

namespace Resumable.Program

open Node (dissolved dissolvedAll dissolvedEach dissolvedFields dissolvedHandler
  dissolvedFinalizer dissolvedCases members)

/-! ## §1. References and declarations. -/

theorem Surroundings.enter_dissolved (s : Surroundings) (params : List String) (body : List Node) :
    s.enter params (dissolvedAll body) = s.enter params body := by
  rw [enter, enter, Node.varsAll_dissolved]

theorem assignments_dissolved (es : List Node) :
    (assignments es).dissolved = assignments (dissolvedEach es) := by
  match es with
  | [] | [_] | _ :: _ :: _ => rfl

theorem resolve_dissolved (σ : Scope) (x : String) : (σ.resolve x).dissolved = σ.resolve x := by
  unfold Scope.resolve
  split <;> rfl

/-- A copied reference has nothing to dissolve. -/
theorem renameName_dissolved (s : Surroundings) (x : String) :
    dissolved <$> renameName s x = renameName s x := by
  unfold renameName
  split
  · rfl
  · simp only [map_bind, map_pure, resolve_dissolved]

/-! ## §2. Lists. -/

section

variable (s : Surroundings)

theorem renameAll_append (xs ys : List Node) :
    renameAll s (xs ++ ys) = do
      let xs' ← renameAll s xs
      let ys' ← renameAll s ys
      return xs' ++ ys' := by
  induction xs with
  | nil => simp [renameAll]
  | cons x xs ih => simp only [List.cons_append, renameAll, ih, bind_assoc, pure_bind]

/-- Only splices are copied to splices. -/
def splicing : Copying where
  invariant _ := True
  source _ _ := True
  copy _ n m := m.kind? = some .splice → n.kind? = some .splice

theorem splicing_sound : splicing.Sound where
  part _ _ _ := trivial
  declare _ _ _ _ := trivial
  hidden _ _ := id
  resolved {around σ x} _ _ _ := by
    show (σ.resolve x).kind? = _ → _
    unfold Scope.resolve
    split <;> nofun
  kept _ _ hm h := hm.kind.symm.trans h
  bindings _ _ := nofun
  header _ _ _ _ _ := nofun
  iterator _ _ _ _ := nofun

theorem kind?_eq_splice {n : Node} : n.kind? = some .splice ↔ ∃ nodes, n = .splice nodes := by
  refine ⟨Node.builtAs, ?_⟩
  rintro ⟨nodes, rfl⟩
  rfl

/-- A splice is copied node by node. -/
theorem renameAll_members (around : List (List String)) (n : Node) :
    renameAll (.of around) n.members = members <$> rename (.of around) n := by
  by_cases h : ∃ nodes, n = .splice nodes
  · obtain ⟨nodes, rfl⟩ := h
    simp only [members, rename, map_bind, map_pure, bind_pure]
  · rw [Node.members_of_ne fun nodes hn => h ⟨nodes, hn⟩]
    funext σ
    have copy : ∀ nodes, ((rename (.of around) n).run σ).1 ≠ .splice nodes := fun nodes hm =>
      h (kind?_eq_splice.mp ((rename_sound splicing_sound around n trivial σ trivial).2
        (kind?_eq_splice.mpr ⟨nodes, hm⟩)))
    exact congrArg (·, ((rename (.of around) n).run σ).2) (Node.members_of_ne copy).symm

/-! ## §3. Copies. -/

/-- The claim for a loop that is copied part by part. -/
theorem rename_forLoop_dissolved {i c st b : Node} (h : ∀ ds, i ≠ .var ds)
    (hi : rename s i.dissolved = dissolved <$> rename s i)
    (hc : rename s c.dissolved = dissolved <$> rename s c)
    (hst : rename s st.dissolved = dissolved <$> rename s st)
    (hb : rename s b.dissolved = dissolved <$> rename s b) :
    rename s (Node.forLoop i c st b).dissolved = dissolved <$> rename s (.forLoop i c st b) := by
  have kept : ∀ ds, i.dissolved ≠ .var ds := by
    intro ds hd
    cases i with
    | var ds' => exact h ds' rfl
    | _ => cases hd
  rw [dissolved, rename_forLoop s h, rename_forLoop s kept]
  simp only [hi, hc, hst, hb, map_bind, bind_map_left, map_pure, dissolved]

/-- The claim for a loop over an object that is copied part by part. -/
theorem rename_forIn_dissolved {i o b : Node} (h : ∀ d, i ≠ .var [d])
    (hi : rename s i.dissolved = dissolved <$> rename s i)
    (ho : rename s o.dissolved = dissolved <$> rename s o)
    (hb : rename s b.dissolved = dissolved <$> rename s b) :
    rename s (Node.forIn i o b).dissolved = dissolved <$> rename s (.forIn i o b) := by
  have kept : ∀ d, i.dissolved ≠ .var [d] := by
    intro d hd
    cases i with
    | var ds =>
      match ds with
      | [] => cases hd
      | [d'] => exact h d' rfl
      | _ :: _ :: _ => cases hd
    | _ => cases hd
  rw [dissolved, rename_forIn s h, rename_forIn s kept]
  simp only [hi, ho, hb, map_bind, bind_map_left, map_pure, dissolved]

end

mutual

/-- What a tree dissolves into is copied to what its copy dissolves into. -/
theorem rename_dissolved (around : List (List String)) (n : Node) :
    rename (.of around) n.dissolved = dissolved <$> rename (.of around) n := by
  cases n with
  | absent | num _ | string _ | atom _ | regexp _ _ | breakTo _ | continueTo _ | debugger => rfl
  | name x =>
    rw [dissolved, rename, renameName_dissolved]
  | array es | seq es =>
    simp only [dissolved, rename, renameEach_dissolved around es, map_bind, bind_map_left, map_pure]
  | object ps | const ps =>
    simp only [dissolved, rename, renameFields_dissolved around ps, map_bind, bind_map_left,
      map_pure]
  | call c as | new c as =>
    simp only [dissolved, rename, rename_dissolved around c, renameEach_dissolved around as,
      map_bind, bind_map_left, map_pure]
  | unary _ _ a | dot a _ | stat a | label _ a | ret a | throw a =>
    simp only [dissolved, rename, rename_dissolved around a, map_bind, bind_map_left, map_pure]
  | binary _ a b | assign _ a b | sub a b | whileLoop a b | doLoop a b | withObject a b =>
    simp only [dissolved, rename, rename_dissolved around a, rename_dissolved around b, map_bind,
      bind_map_left, map_pure]
  | conditional a b c | ifElse a b c =>
    simp only [dissolved, rename, rename_dissolved around a, rename_dissolved around b,
      rename_dissolved around c, map_bind, bind_map_left, map_pure]
  | function f ps b =>
    simp only [dissolved, rename, Surroundings.enter_dissolved, Surroundings.enter_of,
      renameAll_dissolved _ b, map_bind, bind_map_left, map_pure]
  | block b | defun _ _ b | toplevel b | splice b =>
    simp only [dissolved, rename, renameAll_dissolved around b, map_bind, bind_map_left, map_pure]
  | var ds =>
    rw [dissolved, rename, rename]
    split
    · simp only [renameFields_dissolved around ds, map_bind, bind_map_left, map_pure, dissolved]
    · simp only [localize_dissolved around ds, map_bind, bind_map_left, map_pure, dissolved,
        assignments_dissolved]
  | forLoop i c st b =>
    cases i with
    | var ds =>
      rw [dissolved, dissolved, rename, rename]
      split
      · simp only [renameFields_dissolved around ds, rename_dissolved around c,
          rename_dissolved around st, rename_dissolved around b, map_bind, bind_map_left, map_pure,
          dissolved]
      · simp only [localize_dissolved around ds, rename_dissolved around c,
          rename_dissolved around st, rename_dissolved around b, map_bind, bind_map_left, map_pure,
          dissolved, assignments_dissolved]
    | _ =>
      exact rename_forLoop_dissolved (.of around) nofun (rename_dissolved around _)
        (rename_dissolved around c) (rename_dissolved around st) (rename_dissolved around b)
  | forIn i o b =>
    cases i with
    | var ds =>
      match ds with
      | [(x, v)] =>
        simp only [dissolved, dissolvedFields, rename]
        split
        · simp only [rename_dissolved around v, rename_dissolved around o,
            rename_dissolved around b, map_bind, bind_map_left, map_pure, dissolved,
            dissolvedFields]
        · simp only [rename_dissolved around o, rename_dissolved around b, map_bind,
            bind_map_left, map_pure, dissolved, Scope.field]
      | [] | _ :: _ :: _ =>
        exact rename_forIn_dissolved (.of around) nofun (rename_dissolved around _)
          (rename_dissolved around o) (rename_dissolved around b)
    | _ =>
      exact rename_forIn_dissolved (.of around) nofun (rename_dissolved around _)
        (rename_dissolved around o) (rename_dissolved around b)
  | tryCatch b h f =>
    simp only [dissolved, rename, renameAll_dissolved around b, renameFinalizer_dissolved around f,
      renameHandler_dissolved around h, map_bind, bind_map_left, map_pure]
  | switch d cs =>
    simp only [dissolved, rename, renameCases_dissolved around cs, rename_dissolved around d,
      map_bind, bind_map_left, map_pure]
termination_by structural n

theorem renameAll_dissolved (around : List (List String)) (ns : List Node) :
    renameAll (.of around) (dissolvedAll ns) = dissolvedAll <$> renameAll (.of around) ns := by
  cases ns with
  | nil => rfl
  | cons n rest =>
    simp only [dissolvedAll, renameAll_append, renameAll_members, rename_dissolved around n,
      renameAll_dissolved around rest, renameAll, map_bind, bind_map_left, map_pure]
termination_by structural ns

theorem renameEach_dissolved (around : List (List String)) (es : List Node) :
    renameAll (.of around) (dissolvedEach es) = dissolvedEach <$> renameAll (.of around) es := by
  cases es with
  | nil => rfl
  | cons e rest =>
    simp only [dissolvedEach, renameAll, rename_dissolved around e,
      renameEach_dissolved around rest, map_bind, bind_map_left, map_pure]
termination_by structural es

theorem renameFields_dissolved (around : List (List String)) (ps : List (String × Node)) :
    renameFields (.of around) (dissolvedFields ps) =
      dissolvedFields <$> renameFields (.of around) ps := by
  cases ps with
  | nil => rfl
  | cons p rest =>
    obtain ⟨k, n⟩ := p
    simp only [dissolvedFields, renameFields, rename_dissolved around n,
      renameFields_dissolved around rest, map_bind, bind_map_left, map_pure]
termination_by structural ps

theorem localize_dissolved (around : List (List String)) (ds : List (String × Node)) :
    localize (.of around) (dissolvedFields ds) = dissolvedEach <$> localize (.of around) ds := by
  cases ds with
  | nil => rfl
  | cons d rest =>
    obtain ⟨x, i⟩ := d
    simp only [dissolvedFields, localize, Node.isAbsent_dissolved]
    split
    · simp only [localize_dissolved around rest, map_bind, bind_map_left, map_pure, pure_bind,
        dissolvedEach]
      rfl
    · simp only [rename_dissolved around i, localize_dissolved around rest, map_bind,
        bind_map_left, map_pure, dissolvedEach]
      rfl
termination_by structural ds

theorem renameHandler_dissolved (around : List (List String)) (h : Option (String × List Node)) :
    renameHandler (.of around) (dissolvedHandler h) =
      dissolvedHandler <$> renameHandler (.of around) h := by
  rcases h with _ | ⟨x, b⟩
  · rfl
  · simp only [dissolvedHandler, renameHandler, renameAll_dissolved around b, map_bind,
      bind_map_left, map_pure]
termination_by structural h

theorem renameFinalizer_dissolved (around : List (List String)) (f : Option (List Node)) :
    renameFinalizer (.of around) (dissolvedFinalizer f) =
      dissolvedFinalizer <$> renameFinalizer (.of around) f := by
  rcases f with _ | b
  · rfl
  · simp only [dissolvedFinalizer, renameFinalizer, renameAll_dissolved around b, map_bind,
      bind_map_left, map_pure]
termination_by structural f

theorem renameCases_dissolved (around : List (List String)) (cs : List (Node × List Node)) :
    renameCases (.of around) (dissolvedCases cs) =
      dissolvedCases <$> renameCases (.of around) cs := by
  cases cs with
  | nil => rfl
  | cons c rest =>
    obtain ⟨t, b⟩ := c
    simp only [dissolvedCases, renameCases, rename_dissolved around t, renameAll_dissolved around b,
      renameCases_dissolved around rest, map_bind, bind_map_left, map_pure]
termination_by structural cs

end

end Resumable.Program
