/-
  Resumable.Proofs.Code.Addresses — where the instruction is that a failure names.

  A report on a payload has a path: positions in lists and, in between, the names of the lists.
  `resolve` follows a path, and `addresses` lists the instructions of a program in its order with
  the path to each.  Serializing a program asks the renderer for payloads in that order and stops
  at the first one that is refused, so the report of a failed serialization is the one that belongs
  to that payload (`failure?_serializeAll`).

  Main statement: `toCode_reports_first_refusal`.
-/
import Resumable.Proofs.Support
import Resumable.Proofs.Walk.Shapes

namespace Resumable.Program

namespace Instr

/-! ## §1. Paths. -/

/-- The lists that an instruction holds, under the names they have in a path. -/
def parts : Instr → List (String × List Instr)
  | leaf _ _ _ => []
  | branch _ yes no _ _ _ _ => [("then", yes), ("else", no)]
  | loop _ test step body _ _ => [("cond", test), ("step", step), ("body", body)]
  | defun name _ body => [(name, body)]

/-- The instruction that a path leads to: a position in the list, or a position, the name of a list
    inside the instruction there, and a path through that list. -/
def resolve (list : List Instr) : (path : List String) → Option Instr
  | [] => none
  | [k] => k.toNat?.bind (list[·]?)
  | k :: name :: path => do
      let i ← k.toNat?.bind (list[·]?)
      resolve (← i.parts.lookup name) path

mutual

/-- An instruction and all those inside it, in program order, with the path to each. -/
def address (path : List String) : Instr → List (List String × Instr)
  | i@(leaf _ _ _) => [(path, i)]
  | i@(branch _ yes no _ _ _ _) =>
      (path, i) :: (addressAll (path ++ ["then"]) 0 yes ++ addressAll (path ++ ["else"]) 0 no)
  | i@(loop _ test step body _ _) =>
      (path, i) :: (addressAll (path ++ ["cond"]) 0 test ++ addressAll (path ++ ["step"]) 0 step ++
        addressAll (path ++ ["body"]) 0 body)
  | i@(defun name _ body) => (path, i) :: addressAll (path ++ [name]) 0 body

/-- All instructions of a list, the first one at position `k`. -/
def addressAll (path : List String) (k : Nat) : List Instr → List (List String × Instr)
  | [] => []
  | i :: rest => address (path ++ [toString k]) i ++ addressAll path (k + 1) rest

end

/-- The instructions of a program, nested ones included, in program order with the path to each. -/
def addresses (program : List Instr) : List (List String × Instr) := addressAll [] 0 program

theorem address_eq (path : List String) (i : Instr) :
    address path i = (path, i) :: i.parts.flatMap fun l => addressAll (path ++ [l.1]) 0 l.2 := by
  cases i with
  | leaf command code async => rfl
  | branch cond yes no hasElse shape yesTemp noTemp =>
    rw [address]
    simp [parts]
  | loop cond test step body condSplit stepExpr =>
    rw [address]
    simp [parts]
  | defun name params body =>
    rw [address]
    simp [parts]

theorem walk_eq_parts (i : Instr) : i.walk = i :: i.parts.flatMap fun l => walkAll l.2 := by
  cases i <;> simp [walk, parts]

theorem sizeOf_lt_of_mem_parts {i : Instr} {name : String} {inner : List Instr}
    (h : (name, inner) ∈ i.parts) : sizeOf inner < sizeOf i := by
  cases i <;> simp only [parts, List.mem_cons, List.not_mem_nil, or_false, Prod.mk.injEq] at h
  case branch =>
    rw [branch.sizeOf_spec]
    rcases h with ⟨-, rfl⟩ | ⟨-, rfl⟩ <;> omega
  case loop =>
    rw [loop.sizeOf_spec]
    rcases h with ⟨-, rfl⟩ | ⟨-, rfl⟩ | ⟨-, rfl⟩ <;> omega
  case defun =>
    obtain ⟨-, rfl⟩ := h
    rw [defun.sizeOf_spec]
    omega

/-- A list is found under its name, as no two lists of an instruction have the same one. -/
theorem lookup_parts {i : Instr} {name : String} {inner : List Instr}
    (h : (name, inner) ∈ i.parts) : i.parts.lookup name = some inner := by
  cases i <;> simp only [parts, List.mem_cons, List.not_mem_nil, or_false, Prod.mk.injEq] at h ⊢
  case branch => rcases h with ⟨rfl, rfl⟩ | ⟨rfl, rfl⟩ <;> rfl
  case loop => rcases h with ⟨rfl, rfl⟩ | ⟨rfl, rfl⟩ | ⟨rfl, rfl⟩ <;> rfl
  case defun =>
    obtain ⟨rfl, rfl⟩ := h
    simp

theorem resolve_item {list : List Instr} {k : Nat} {i : Instr} (hi : list[k]? = some i) :
    resolve list [toString k] = some i := by
  show (Nat.repr k).toNat?.bind (list[·]?) = some i
  rw [Nat.toNat?_repr, Option.bind_some, hi]

theorem resolve_inside {list inner : List Instr} {k : Nat} {i : Instr} {name : String}
    (hi : list[k]? = some i) (hinner : (name, inner) ∈ i.parts) (path : List String) :
    resolve list (toString k :: name :: path) = resolve inner path := by
  show (do
    let i ← (Nat.repr k).toNat?.bind (list[·]?)
    resolve (← i.parts.lookup name) path) = _
  rw [Nat.toNat?_repr, Option.bind_some, hi]
  show (i.parts.lookup name).bind (resolve · path) = _
  rw [lookup_parts hinner, Option.bind_some]

/-! ## §2. Addresses. -/

/-- Addresses are in program order. -/
theorem map_addressAll (path : List String) (k : Nat) (list : List Instr) :
    (addressAll path k list).map (·.2) = walkAll list := by
  match list with
  | [] => rfl
  | i :: rest =>
    have inParts : ∀ l ∈ i.parts,
        (addressAll (path ++ [toString k] ++ [l.1]) 0 l.2).map (·.2) = walkAll l.2 := by
      intro l hl
      have := sizeOf_lt_of_mem_parts hl
      exact map_addressAll _ 0 l.2
    rw [addressAll, address_eq, walkAll, walk_eq_parts, List.map_append, List.map_cons,
      map_addressAll path (k + 1) rest, List.map_flatMap]
    congr 2
    exact List.flatMap_congr inParts
termination_by sizeOf list
decreasing_by all_goals simp only [List.cons.sizeOf_spec]; omega

theorem mem_addressAll {path : List String} {k : Nat} {list : List Instr}
    {a : List String × Instr} (h : a ∈ addressAll path k list) :
    ∃ m i, list[m]? = some i ∧ a ∈ address (path ++ [toString (k + m)]) i := by
  induction list generalizing k with
  | nil => cases h
  | cons i rest ih =>
    rw [addressAll, List.mem_append] at h
    rcases h with h | h
    · exact ⟨0, i, rfl, h⟩
    · obtain ⟨m, j, hj, ha⟩ := ih h
      refine ⟨m + 1, j, hj, ?_⟩
      rwa [show k + (m + 1) = k + 1 + m by omega]

/-- A path that is listed leads to what it is listed with. -/
theorem resolve_of_mem {path p : List String} {list : List Instr} {i : Instr}
    (h : (p, i) ∈ addressAll path 0 list) : ∃ q, p = path ++ q ∧ resolve list q = some i := by
  obtain ⟨k, j, hj, h⟩ := mem_addressAll h
  rw [Nat.zero_add, address_eq, List.mem_cons] at h
  rcases h with heq | h
  · cases heq
    exact ⟨_, rfl, resolve_item hj⟩
  · obtain ⟨⟨name, inner⟩, hl, h⟩ := List.mem_flatMap.mp h
    have hlt := sizeOf_lt_of_mem_parts hl
    have hlist := List.sizeOf_lt_of_mem (List.mem_of_getElem? hj)
    obtain ⟨q, rfl, hq⟩ := resolve_of_mem h
    refine ⟨toString k :: name :: q, by simp, ?_⟩
    rw [resolve_inside hj hl, hq]
termination_by sizeOf list
decreasing_by exact Nat.lt_trans hlt hlist

theorem resolve_address {program : List Instr} {path : List String} {i : Instr}
    (h : (path, i) ∈ addresses program) : resolve program path = some i := by
  obtain ⟨q, rfl, hq⟩ := resolve_of_mem h
  exact hq

end Instr

open Instr (parts address addressAll addresses walkAll)

/-! ## §3. The first refusal. -/

/-- The failure of a computation, if it fails. -/
def failure? {α : Type} : Except Failure α → Option Failure
  | .ok _ => none
  | .error f => some f

theorem failure?_eq_some {α : Type} {x : Except Failure α} {f : Failure} :
    failure? x = some f ↔ x = .error f := by
  cases x with
  | ok a => exact iff_of_false nofun nofun
  | error g =>
    show some g = some f ↔ _
    rw [Option.some.injEq, Except.error.injEq]

/-- What the second step fails with counts only if the first one does not fail. -/
theorem failure?_bind {α β : Type} {x : Except Failure α} {g : α → Except Failure β}
    {o : Option Failure} (h : ∀ a, failure? (g a) = o) :
    failure? (x >>= g) = (failure? x).or o := by
  cases x with
  | ok a => exact h a
  | error f => rfl

theorem failure?_return {α β : Type} {x : Except Failure α} {g : α → β} :
    failure? (x >>= fun a => pure (g a)) = failure? x := by
  cases x with
  | ok a => rfl
  | error f => rfl

variable (render : Renderer)

/-- The failure for the payloads of an instruction at a path, if they are not all rendered. -/
def refusal (a : List String × Instr) : Option Failure :=
  a.2.payloads.findSome? fun n => failure? (payload render a.1 n)

/-- Serializing an instruction fails with its own payload or with the first of its lists to fail. -/
theorem failure?_serialize (path : List String) (i : Instr) :
    failure? (serialize render path i) = (refusal render (path, i)).or
      (i.parts.findSome? fun l => failure? (serializeAll render (path ++ [l.1]) 0 l.2)) := by
  cases i with
  | leaf command code async =>
    rw [serialize, failure?_return]
    simp [refusal, Instr.payloads, parts]
  | branch cond yes no hasElse shape yesTemp noTemp =>
    rw [serialize, failure?_bind fun _ => failure?_bind fun _ => failure?_return, parts]
    simp [refusal, Instr.payloads, findSome?_cons_eq_or]
  | loop cond test step body condSplit stepExpr =>
    rw [serialize, failure?_bind fun _ => failure?_bind fun _ => failure?_return, parts]
    simp [refusal, Instr.payloads, findSome?_cons_eq_or]
  | defun name params body =>
    rw [serialize, failure?_return]
    simp [refusal, Instr.payloads, parts]

/-- Serializing a list fails with the first refusal in program order. -/
theorem failure?_serializeAll (path : List String) (k : Nat) (list : List Instr) :
    failure? (serializeAll render path k list) =
      (addressAll path k list).findSome? (refusal render) := by
  match list with
  | [] => rfl
  | i :: rest =>
    have inParts : ∀ l ∈ i.parts,
        (addressAll (path ++ [toString k] ++ [l.1]) 0 l.2).findSome? (refusal render) =
          failure? (serializeAll render (path ++ [toString k] ++ [l.1]) 0 l.2) := by
      intro l hl
      have := Instr.sizeOf_lt_of_mem_parts hl
      exact (failure?_serializeAll _ 0 l.2).symm
    rw [serializeAll, failure?_bind fun _ => failure?_return, failure?_serialize,
      failure?_serializeAll path (k + 1) rest, addressAll, Instr.address_eq,
      List.findSome?_append, findSome?_cons_eq_or, findSome?_flatMap inParts]
termination_by sizeOf list
decreasing_by all_goals simp only [List.cons.sizeOf_spec]; omega

variable {render}

/-- The report on a payload that a renderer refused. -/
def refused (path : List String) (n : Node) (cause : Failure) : Failure :=
  .report { phase := .serialize, category := .encode, path, node := n.tag } (some cause)

/-- A payload that is there fails if the renderer refuses it. -/
theorem failure?_payload {path : List String} {n : Node} (hn : n.isAbsent = false) :
    failure? (payload render path n) = (failure? (render n)).map (refused path n) := by
  rw [payload, if_neg (by simp [hn])]
  cases render n with
  | ok text => rfl
  | error cause => rfl

theorem refusal_eq_none (path : List String) {i : Instr} (hi : i.WellShaped) :
    refusal render (path, i) = none ↔ ∀ n ∈ i.payloads, (render n).isOk = true := by
  unfold refusal
  rw [List.findSome?_eq_none_iff]
  refine forall₂_congr fun n hn => ?_
  rw [failure?_payload (hi.payloads n hn)]
  cases render n with
  | ok text => exact iff_of_true rfl rfl
  | error cause => exact iff_of_false nofun nofun

theorem exists_of_refusal {path : List String} {i : Instr} (hi : i.WellShaped) {f : Failure}
    (h : refusal render (path, i) = some f) :
    ∃ n ∈ i.payloads, ∃ cause, render n = .error cause ∧ f = refused path n cause := by
  obtain ⟨n, hn, hf⟩ := List.exists_of_findSome?_eq_some h
  rw [failure?_payload (hi.payloads n hn)] at hf
  obtain ⟨cause, hcause, rfl⟩ := Option.map_eq_some_iff.mp hf
  exact ⟨n, hn, cause, failure?_eq_some.mp hcause, rfl⟩

/-- Serializing the program of a transformed unit fails exactly if the renderer refuses some
    payload.  The report is on the first refused payload in program order: its path leads to the
    instruction, and it names the kind of the payload. -/
theorem toCode_reports_first_refusal (naming : Naming) (isAsync : String → Bool) (unit : Node)
    (t : Transformed) (render : Renderer) (h : (transform naming isAsync unit).1 = .ok t) :
    (addresses t.program).map (·.2) = walkAll t.program ∧
    ((∃ f, toCode render t.program = .error f) ↔
      ∃ i ∈ walkAll t.program, ∃ n ∈ i.payloads, ∃ cause, render n = .error cause) ∧
    ∀ f, toCode render t.program = .error f →
      ∃ before path i after n cause, addresses t.program = before ++ (path, i) :: after ∧
        (∀ a ∈ before, ∀ m ∈ a.2.payloads, (render m).isOk = true) ∧
        n ∈ i.payloads ∧ render n = .error cause ∧
        Instr.resolve t.program path = some i ∧ f = refused path n cause := by
  obtain ⟨body, σ, rfl, hd⟩ := transform_emits h
  obtain ⟨vs, split, emits⟩ := hd.emits
  have inOrder : (addresses t.program).map (·.2) = walkAll t.program :=
    Instr.map_addressAll [] 0 t.program
  have shaped : ∀ a ∈ addresses t.program, a.2.WellShaped := by
    intro a ha
    refine emits.wellShaped a.2 ?_
    rw [← inOrder]
    exact List.mem_map_of_mem ha
  have first : failure? (toCode render t.program) =
      (addresses t.program).findSome? (refusal render) :=
    failure?_serializeAll render [] 0 t.program
  have report : ∀ f, toCode render t.program = .error f →
      ∃ before path i after n cause, addresses t.program = before ++ (path, i) :: after ∧
        (∀ a ∈ before, ∀ m ∈ a.2.payloads, (render m).isOk = true) ∧
        n ∈ i.payloads ∧ render n = .error cause ∧ Instr.resolve t.program path = some i ∧
        f = refused path n cause := by
    intro f hf
    rw [← failure?_eq_some, first, List.findSome?_eq_some_iff] at hf
    obtain ⟨before, ⟨path, i⟩, after, hsplit, hrefused, hbefore⟩ := hf
    have hmem : (path, i) ∈ addresses t.program := by
      rw [hsplit]
      exact List.mem_append_right _ List.mem_cons_self
    obtain ⟨n, hn, cause, hcause, hreport⟩ := exists_of_refusal (shaped _ hmem) hrefused
    refine ⟨before, path, i, after, n, cause, hsplit, fun a ha => ?_, hn, hcause,
      Instr.resolve_address hmem, hreport⟩
    have hshaped := shaped a (hsplit ▸ List.mem_append_left _ ha)
    exact (refusal_eq_none a.1 hshaped).mp (hbefore a ha)
  refine ⟨inOrder, ⟨?_, ?_⟩, report⟩
  · rintro ⟨f, hf⟩
    obtain ⟨before, path, i, after, n, cause, hsplit, -, hn, hcause, -⟩ := report f hf
    refine ⟨i, ?_, n, hn, cause, hcause⟩
    rw [← inOrder, hsplit]
    exact List.mem_map_of_mem (List.mem_append_right _ List.mem_cons_self)
  · rintro ⟨i, hi, n, hn, cause, hcause⟩
    rw [← inOrder] at hi
    obtain ⟨⟨path, i⟩, ha, rfl⟩ := List.mem_map.mp hi
    cases hcode : toCode render t.program with
    | error f => exact ⟨f, rfl⟩
    | ok code =>
      -- then nothing was refused, this payload included
      rw [hcode] at first
      have hnone := List.findSome?_eq_none_iff.mp first.symm _ ha
      have hok := (refusal_eq_none path (shaped _ ha)).mp hnone n hn
      rw [hcause] at hok
      cases hok

/-- A renderer that refuses calls, and a function with a call in one side of a branch:
    `function g() { if (x) f(); }`. -/
theorem toCode_reports_first_refusal_of_branch :
    let unit : Node := .toplevel [.defun "g" [] [.ifElse (.name "x")
      (.stat (.call (.name "f") [])) .absent]]
    let render : Renderer := fun n => if n.tag == "stat" then .error .external else .ok n.tag
    ∃ t f, (transform {} (fun _ => false) unit).1 = .ok t ∧ toCode render t.program = .error f ∧
      ∃ before path i after n cause, addresses t.program = before ++ (path, i) :: after ∧
        (∀ a ∈ before, ∀ m ∈ a.2.payloads, (render m).isOk = true) ∧
        n ∈ i.payloads ∧ render n = .error cause ∧
        Instr.resolve t.program path = some i ∧ f = refused path n cause := by
  intro unit render
  obtain ⟨t, ht, hsome⟩ := exists_of_okAnd (r := (transform {} (fun _ => false) unit).1)
    (fun t => (walkAll t.program).any (fun i => i.payloads.any (fun n => !(render n).isOk)))
    (by decide +kernel)
  obtain ⟨-, fails, report⟩ := toCode_reports_first_refusal {} (fun _ => false) unit t render ht
  obtain ⟨i, hi, hpayloads⟩ := List.any_eq_true.mp hsome
  obtain ⟨n, hn, hbad⟩ := List.any_eq_true.mp hpayloads
  obtain ⟨cause, hcause⟩ := exists_of_not_isOk ((Bool.not_eq_true' _).mp hbad)
  obtain ⟨f, hf⟩ := fails.mpr ⟨i, hi, n, hn, cause, hcause⟩
  exact ⟨t, f, ht, hf, report f hf⟩

end Resumable.Program
