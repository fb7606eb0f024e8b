/-
  Resumable.Proofs.Walk.Captures — every call is followed by the capture of its value.

  The runtime keeps one return slot, so whatever stands between a call and the statement that reads
  the slot may overwrite it.  `followsAll` lists every instruction of a program, at any depth,
  beside what follows it in the same list.  Behind a call stands `t = <return value>`, with a temp
  `t` of its own.

  The invariant of a derivation is `Captured`: the captures behind the calls of its code, from left
  to right, use temps with rising numbers among those it made.  No list of a derivation ends with a
  call, which is why joining two lists keeps every call next to its capture.

  Main statement: `transform_captures_calls`.
-/
import Resumable.Proofs.Walk.Growth

namespace Resumable.Program

namespace Instr

/-! ## §1. What follows an instruction. -/

mutual

/-- The instructions inside one, each with what follows it in its own list. -/
def follows : Instr → List (Instr × Option Instr)
  | leaf _ _ _ => []
  | branch _ yes no _ _ _ _ => followsAll yes ++ followsAll no
  | loop _ test step body _ _ => followsAll test ++ followsAll step ++ followsAll body
  | defun _ _ body => followsAll body

/-- The instructions of a list at any depth, in program order, each with what follows it in its own
    list. -/
def followsAll : List Instr → List (Instr × Option Instr)
  | [] => []
  | i :: rest => (i, rest.head?) :: (follows i ++ followsAll rest)

end

/-- What follows each call of a list, nested ones included. -/
def afterCalls (list : List Instr) : List (Option Instr) :=
  ((followsAll list).filter (fun p => p.1.command == "call")).map (·.2)

mutual

theorem follows_fst (i : Instr) : (follows i).map (·.1) = walkAll i.inner := by
  cases i with
  | leaf c n a => simp [follows, inner, walkAll]
  | branch c yes no e sh yt nt =>
    simp [follows, inner, walkAll_append, followsAll_fst yes, followsAll_fst no]
  | loop c test step body cs st =>
    simp [follows, inner, walkAll_append, followsAll_fst test, followsAll_fst step,
      followsAll_fst body]
  | defun f ps body => simp [follows, inner, followsAll_fst body]
termination_by structural i

/-- Nothing is left out and nothing is met twice. -/
theorem followsAll_fst (list : List Instr) : (followsAll list).map (·.1) = walkAll list := by
  cases list with
  | nil => simp [followsAll, walkAll]
  | cons i rest =>
    rw [walkAll_cons, followsAll, List.map_cons, List.map_append, follows_fst i,
      followsAll_fst rest]
termination_by structural list

end

theorem length_afterCalls (list : List Instr) : (afterCalls list).length = callCount list := by
  unfold afterCalls callCount
  rw [← followsAll_fst list, List.countP_map, List.length_map, List.countP_eq_length_filter]
  rfl

/-- A call is followed by the next instruction. -/
theorem afterCalls_call (c : Node) (a : Bool) (rest : List Instr) :
    afterCalls (.leaf "call" c a :: rest) = rest.head? :: afterCalls rest := rfl

/-- An instruction that is no call adds what it holds. -/
theorem afterCalls_cons {i : Instr} (hi : i.command ≠ "call") (rest : List Instr) :
    afterCalls (i :: rest) = afterCalls [i] ++ afterCalls rest := by
  unfold afterCalls
  simp [followsAll, hi]

theorem afterCalls_leaf {command : String} (h : command ≠ "call") (c : Node) (a : Bool) :
    afterCalls [.leaf command c a] = [] := by
  unfold afterCalls
  simp [followsAll, follows, Instr.command, h]

theorem afterCalls_branch (c : Node) (yes no : List Instr) (e : Bool) (sh : Shape)
    (yt nt : Option String) :
    afterCalls [.branch c yes no e sh yt nt] = afterCalls yes ++ afterCalls no := by
  unfold afterCalls
  simp [followsAll, follows, Instr.command]

theorem afterCalls_loop (c : Node) (test step body : List Instr) (cs : Bool) (st : Node) :
    afterCalls [.loop c test step body cs st] =
      afterCalls test ++ afterCalls step ++ afterCalls body := by
  unfold afterCalls
  simp [followsAll, follows, Instr.command]

theorem afterCalls_defun (f : String) (ps : List String) (body : List Instr) :
    afterCalls [.defun f ps body] = afterCalls body := by
  unfold afterCalls
  simp [followsAll, follows, Instr.command]

/-- Lists are joined without a change where no call comes last in its list. -/
theorem afterCalls_append {xs : List Instr} (hxs : none ∉ afterCalls xs) (ys : List Instr) :
    afterCalls (xs ++ ys) = afterCalls xs ++ afterCalls ys := by
  induction xs with
  | nil => rfl
  | cons x xs ih =>
    by_cases hx : x.command = "call"
    · obtain ⟨c, a, rfl⟩ : ∃ c a, x = .leaf "call" c a := by
        cases x with
        | leaf command c a => exact ⟨c, a, by rw [show command = "call" from hx]⟩
        | _ => exact absurd hx (by simp [command])
      rw [afterCalls_call, List.mem_cons, not_or] at hxs
      rw [List.cons_append, afterCalls_call, afterCalls_call, ih hxs.2, List.cons_append]
      -- at the end of `xs` the call would be followed by the head of `ys` instead of by nothing
      cases xs with
      | nil => exact absurd rfl hxs.1
      | cons y ys => rfl
    · rw [afterCalls_cons hx, List.mem_append, not_or] at hxs
      rw [List.cons_append, afterCalls_cons hx, afterCalls_cons hx xs, ih hxs.2,
        List.append_assoc]

end Instr

namespace Walk

/-! ## §2. The captures of a derivation. -/

/-- What follows the calls of a list are captures of the return value, into temps whose numbers
    rise and are among those made between two scopes. -/
def Captures (env : Surface) (σ σ' : Scope) (list : List Instr) : Prop :=
  ∃ ks : List Nat, ks.Pairwise (· < ·) ∧ (∀ k ∈ ks, σ.temps ≤ k ∧ k < σ'.temps) ∧
    Instr.afterCalls list = ks.map fun k => some (captureInstr env (σ.temp k))

namespace Captures

variable {env : Surface} {σ σ₁ σ₂ : Scope} {xs ys : List Instr}

/-- A list without calls. -/
theorem none (h : Instr.afterCalls xs = []) : Captures env σ σ₁ xs := ⟨[], .nil, by simp, h⟩

theorem leaf {command : String} (h : command ≠ "call") (c : Node) (a : Bool) :
    Captures env σ σ₁ [.leaf command c a] := none (Instr.afterCalls_leaf h c a)

theorem none_not_mem (h : Captures env σ σ₁ xs) : Option.none ∉ Instr.afterCalls xs := by
  obtain ⟨ks, -, -, hks⟩ := h
  simp [hks]

/-- Lists made one after the other. -/
theorem append (h : Captures env σ σ₁ xs) (h' : Captures env σ₁ σ₂ ys) (hσ : σ.Grows σ₁)
    (hσ' : σ₁.Grows σ₂) : Captures env σ σ₂ (xs ++ ys) := by
  have hjoin := Instr.afterCalls_append h.none_not_mem ys
  obtain ⟨ks, hks, hb, hx⟩ := h
  obtain ⟨ks', hks', hb', hy⟩ := h'
  have hlo := hσ.temps
  have hhi := hσ'.temps
  -- the scope between the lists bounds the numbers of the first from above and those of the
  -- second from below
  refine ⟨ks ++ ks', ?_, ?_, ?_⟩
  · rw [List.pairwise_append]
    refine ⟨hks, hks', fun j hj k hk => ?_⟩
    have := hb j hj
    have := hb' k hk
    omega
  · intro k hk
    rcases List.mem_append.mp hk with hk | hk
    · have := hb k hk
      omega
    · have := hb' k hk
      omega
  · rw [hjoin, hx, hy, List.map_append]
    simp only [hσ.temp]

/-- Another list with the same calls. -/
theorem congr (h : Captures env σ σ₁ xs) (hy : Instr.afterCalls ys = Instr.afterCalls xs) :
    Captures env σ σ₁ ys := by
  unfold Captures
  rw [hy]
  exact h

/-- A call and its capture, into the temp made for it. -/
theorem call (c : Node) (a : Bool) :
    Captures env σ σ.nextTemp.2 [.leaf "call" c a, captureInstr env σ.nextTemp.1] :=
  ⟨[σ.temps], List.pairwise_singleton _ _, by simp [Scope.nextTemp], rfl⟩

end Captures

/-- Every call of a derivation is followed by its capture. -/
theorem Emits.captures {env : Surface} {job : Job} {σ σ' : Scope} {vs : List Node} {split : Bool}
    {code : List Instr} (h : Emits env job σ vs split code σ') : Captures env σ σ' code := by
  induction h with
  | reference | literal | copied | operandsNil | void | stmtsNil | bindingsNil => exact .none rfl
  | kept _ _ ih | leads _ _ ih => exact ih
  | captured _ ops ih =>
    exact ih.append (.leaf (by decide) _ _) ops.grows (Scope.grows_nextTemp _)
  | assigned _ ops ih => exact ih.append (.leaf (by decide) _ _) ops.grows (.refl _)
  | called ops ih => exact ih.append (.call _ _) ops.grows (Scope.grows_nextTemp _)
  | operandsCons head tail ih ih' | stmtsCons head tail ih ih' =>
    exact ih.append ih' head.grows tail.grows
  | @effect σ σ' n v split code value ih =>
    refine ih.append ?_ value.grows (.refl _)
    cases split with
    | false => exact .leaf (by decide) _ _
    | true => exact .none rfl
  | test value ih => exact ih.append (.leaf (by decide) _ _) value.grows (.refl _)
  | branch cond yesDone noDone ih ih₁ ih₂ =>
    -- the instruction keeps its two lists apart, yet has the captures of their concatenation
    have hregions := ih₁.append ih₂ yesDone.grows noDone.grows
    refine ih.append (hregions.congr ?_) cond.grows (yesDone.grows.trans noDone.grows)
    rw [Instr.afterCalls_branch, Instr.afterCalls_append ih₁.none_not_mem]
  | loop initDone testDone stepDone bodyDone ih ih₁ ih₂ ih₃ =>
    have hstep := testDone.grows.trans stepDone.grows
    have hahead := ih₁.append ih₂ testDone.grows stepDone.grows
    have hparts := hahead.append ih₃ hstep bodyDone.grows
    refine ih.append (hparts.congr ?_) initDone.grows (hstep.trans bodyDone.grows)
    rw [Instr.afterCalls_loop, Instr.afterCalls_append hahead.none_not_mem,
      Instr.afterCalls_append ih₁.none_not_mem]
  | declaration body ih => exact ih.congr (Instr.afterCalls_defun _ _ _)
  | passed hp => exact .leaf (isPassed_tag hp) _ _
  | @bare σ σ' x ds vs split code rest ih =>
    have hx := (Scope.declares_declare σ x).toGrows
    have hset : Captures env σ (σ.declare x) [.set (σ.field x) .null] := .leaf (by decide) _ _
    exact hset.append ih hx rest.grows
  | @bound σ σ₁ σ₂ x init v ds vs split split' code code' value rest ih ih' =>
    -- the placeholder is inserted in front of the code of the value and the assignment comes
    -- behind it, so neither parts a call from its capture
    have hx := (Scope.declares_declare σ x).toGrows
    have hfront : Captures env σ (σ.declare x) (placeholder split (σ.field x)) := by
      cases split with
      | false => exact .none rfl
      | true => exact .leaf (by decide) _ _
    have hvalue := hfront.append ih hx value.grows
    have hset : Captures env σ₁ σ₁ [.set (σ.field x) v] := .leaf (by decide) _ _
    have hrest := hset.append ih' (.refl _) rest.grows
    exact hvalue.append hrest (hx.trans value.grows) rest.grows

end Walk

/-! ## §3. Whole programs. -/

/-- Behind every call of a program, at any depth, stands the statement that captures its value, and
    every call has a temp of its own. -/
theorem transform_captures_calls (naming : Naming) (isAsync : String → Bool) (unit : Node)
    (t : Transformed) (h : (transform naming isAsync unit).1 = .ok t) :
    ∃ temps : List String, temps.Nodup ∧ temps.length = Instr.callCount t.program ∧
      (∀ x ∈ temps, ∃ k < t.stats.temps, x = naming.stem ++ toString k) ∧
      Instr.afterCalls t.program =
        temps.map fun x => some (.set (.name x) (Naming.dotted naming.returnValue)) := by
  obtain ⟨body, σ, -, hd⟩ := transform_emits h
  obtain ⟨vs, split, he⟩ := hd.emits
  obtain ⟨ks, hks, hb, hafter⟩ := he.captures
  have hstem : ∀ k, (naming.scope body).temp k = naming.stem ++ toString k := by
    intro k
    unfold Scope.temp
    rw [(naming.declares_scope body).stem]
  refine ⟨ks.map (naming.scope body).temp, ?_, ?_, ?_, ?_⟩
  · -- rising numbers make different names
    rw [List.Nodup, List.pairwise_map]
    refine hks.imp fun {j k} hjk heq => ?_
    exact absurd (Scope.temp_injective _ heq) (Nat.ne_of_lt hjk)
  · rw [← Instr.length_afterCalls, hafter, List.length_map, List.length_map]
  · intro x hx
    obtain ⟨k, hk, rfl⟩ := List.mem_map.mp hx
    refine ⟨k, ?_, hstem k⟩
    rw [hd.stats]
    exact (hb k hk).2
  · rw [hafter, List.map_map]
    rfl

/-- A loop whose condition, step and body have calls:
    `for (var i = f(g()); h(i); i = k(i)) f(i)`. -/
theorem transform_captures_calls_of_loop :
    let call (f : String) (as : List Node) : Node := .call (.name f) as
    let unit : Node := .toplevel [.forLoop (.var [("i", call "f" [call "g" []])])
      (call "h" [.name "i"]) (.assign "" (.name "i") (call "k" [.name "i"]))
      (.stat (call "f" [.name "i"]))]
    ∃ t, (transform {} (fun _ => false) unit).1 = .ok t ∧
      ∃ temps : List String, temps.Nodup ∧ temps.length = Instr.callCount t.program ∧
        (∀ x ∈ temps, ∃ k < t.stats.temps, x = "__DrutaTemp_" ++ toString k) ∧
        Instr.afterCalls t.program =
          temps.map fun x => some (.set (.name x) (Naming.dotted "self.returnValue")) := by
  intro call unit
  obtain ⟨t, ht⟩ : ∃ t, (transform {} (fun _ => false) unit).1 = .ok t :=
    exists_of_isOk (by decide +kernel)
  exact ⟨t, ht, transform_captures_calls {} (fun _ => false) unit t ht⟩

end Resumable.Program
