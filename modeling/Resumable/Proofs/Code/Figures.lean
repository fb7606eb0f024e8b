/-
  Resumable.Proofs.Code.Figures — the figures of a program, taken from its code.

  Serializing turns payloads into text and leaves everything else as it is: a walk over the code
  meets the same commands as a walk over the program, and the same ones suspend.  So what a
  transform counted on the way can be counted again afterwards, temps apart.

  Main results:
    * `toCode_labels`    — code meets the commands of its program in the same order;
    * `compile_statsOf`  — the figures of a compiled unit, from its code and its local names.
-/
import Resumable.Compiler
import Resumable.Proofs.Support
import Resumable.Proofs.Walk.Statement

namespace Resumable

/-! ## §1. Labels. -/

/-- The command of an instruction, and whether the runtime has to wait after it. -/
def Op.label (o : Op) : String × Bool := (o.command, o.suspends)

namespace Program

/-- The command of an instruction, and whether it may suspend. -/
def Instr.label (i : Instr) : String × Bool := (i.command, i.async)

variable {render : Renderer}

mutual

/-- A serialized instruction has the labels of the instruction and of those inside it. -/
theorem serialize_labels {path : List String} {i : Instr} {op : Op}
    (h : serialize render path i = .ok op) :
    (op.walk (fun _ => true)).map Op.label = i.walk.map Instr.label := by
  -- payloads and paths play no part: only the lists inside an instruction matter
  cases i with
  | leaf command code async =>
    rw [serialize] at h
    obtain ⟨text, -, h⟩ := bind_eq_ok h
    cases h
    rw [Op.walk, Instr.walk]
    rfl
  | branch cond yes no hasElse shape yesTemp noTemp =>
    rw [serialize] at h
    obtain ⟨text, -, h⟩ := bind_eq_ok h
    obtain ⟨yes', hyes, h⟩ := bind_eq_ok h
    obtain ⟨no', hno, h⟩ := bind_eq_ok h
    cases h
    have inYes := serializeAll_labels hyes
    have inNo := serializeAll_labels hno
    rw [Op.walk, Instr.walk, if_pos rfl, List.map_cons, List.map_cons, List.map_append,
      List.map_append, inYes, inNo]
    rfl
  | loop cond test step body split expr =>
    rw [serialize] at h
    obtain ⟨test', htest, h⟩ := bind_eq_ok h
    obtain ⟨step', hstep, h⟩ := bind_eq_ok h
    obtain ⟨body', hbody, h⟩ := bind_eq_ok h
    cases h
    have inTest := serializeAll_labels htest
    have inStep := serializeAll_labels hstep
    have inBody := serializeAll_labels hbody
    rw [Op.walk, Instr.walk, if_pos rfl, List.map_cons, List.map_cons]
    simp only [List.map_append, inTest, inStep, inBody]
    rfl
  | defun name params body =>
    rw [serialize] at h
    obtain ⟨body', hbody, h⟩ := bind_eq_ok h
    cases h
    have inBody := serializeAll_labels hbody
    rw [Op.walk, Instr.walk, if_pos rfl, List.map_cons, List.map_cons, inBody]
    rfl

/-- So do serialized lists. -/
theorem serializeAll_labels {path : List String} {k : Nat} {list : List Instr} {code : Code}
    (h : serializeAll render path k list = .ok code) :
    (Op.walkAll (fun _ => true) code).map Op.label = (Instr.walkAll list).map Instr.label := by
  cases list with
  | nil =>
    cases h
    rfl
  | cons i rest =>
    rw [serializeAll] at h
    obtain ⟨op, hop, h⟩ := bind_eq_ok h
    obtain ⟨ops, hops, h⟩ := bind_eq_ok h
    cases h
    rw [Op.walkAll, Instr.walkAll, List.map_append, List.map_append, serialize_labels hop,
      serializeAll_labels hops]

end

/-- Code meets the commands of its program in the same order, and waits after the same ones. -/
theorem toCode_labels {program : List Instr} {code : Code} (h : toCode render program = .ok code) :
    code.all.map Op.label = (Instr.walkAll program).map Instr.label :=
  serializeAll_labels h

/-! ## §2. Figures. -/

/-- Whatever is counted by labels is counted alike in code and in its program. -/
theorem countP_labels {program : List Instr} {code : Code} (h : toCode render program = .ok code)
    (p : String × Bool → Bool) :
    code.all.countP (fun o => p o.label) = (Instr.walkAll program).countP (fun i => p i.label) := by
  have counted := congrArg (List.countP p) (toCode_labels h)
  rw [List.countP_map, List.countP_map] at counted
  exact counted

/-- The figures of code are those of the program it comes from. -/
theorem statsOf_toCode {program : List Instr} {code : Code} (locals : List String)
    (h : toCode render program = .ok code) :
    Compiler.statsOf code locals =
      { calls := Instr.callCount program, asyncCalls := Instr.asyncCount program
        instructions := Instr.count program, locals := locals.length } := by
  have count : code.count = Instr.count program := by
    simpa [Code.count, Instr.count] using congrArg List.length (toCode_labels h)
  have calls : (code.all.filter (fun o => o.command == "call")).length =
      Instr.callCount program := by
    rw [← List.countP_eq_length_filter]
    exact countP_labels h (fun l => l.1 == "call")
  have asyncCalls : ((code.all.filter (fun o => o.command == "call")).filter Op.suspends).length =
      Instr.asyncCount program := by
    -- calls are filtered twice over here and counted by one condition there
    rw [← List.countP_eq_length_filter, List.countP_filter]
    simp only [Bool.and_comm (Op.suspends _)]
    exact countP_labels h (fun l => l.1 == "call" && l.2)
  simp only [Compiler.statsOf, count, calls, asyncCalls]

/-- The figures of a compiled unit can be taken from its code and its local names, the number of
    temps apart. -/
theorem compile_statsOf {o : Options} {unit : Node} {out : Output}
    (h : (compile o unit).1 = .ok out) :
    Compiler.statsOf out.code out.locals = { out.stats with temps := 0 } := by
  obtain ⟨t, ht, hout⟩ : ∃ t, (transform o.naming o.isAsync unit).1 = .ok t ∧
      t.output o = .ok out := by
    apply bind_eq_ok
    unfold compile at h
    dsimp only at h
    split at h
    · cases h
    · next heq => rw [heq]; exact h
  obtain ⟨code, hcode, hout⟩ := bind_eq_ok hout
  obtain ⟨source, -, hout⟩ := bind_eq_ok hout
  cases hout
  obtain ⟨body, σ, -, derived⟩ := transform_emits ht
  rw [statsOf_toCode t.locals hcode, derived.stats, derived.locals]

end Program

end Resumable
