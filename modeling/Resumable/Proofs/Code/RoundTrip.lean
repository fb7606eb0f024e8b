/-
  Resumable.Proofs.Code.RoundTrip — code survives its formats.

  A format gives code back as long as its library gives back the plain values that code is made of:
  texts, flags, lists and records.  JSON and CBOR do so up to the depth at which their readers stop.
  YAML does not for every text: a line break at the start of one is lost.

  Main statement: `survives_codecs`.
-/
import Resumable.Convention
import Resumable.Proofs.Code.CborReading
import Resumable.Proofs.Code.JsonReading
import Resumable.Proofs.Code.Levels
import Resumable.Proofs.Code.YamlReading

namespace Resumable.Code

/-- Proper code is read back from JSON, CBOR and YAML if the values it is written as are, except
    that YAML leaves it open whether parameters were left out or are none.  JSON gives back what is
    nested at most `Json.deepest` levels deep.  So does CBOR for `Cbor.deepest` levels, unless a
    text or a list is longer than its reader allows.  The code of a transformed unit is proper. -/
theorem survives_codecs :
    (∀ code : Code, code.Proper →
      ((code.encode jsonEncoding).Kept → ofJson (Text.bytesOf code.toJson) = .ok code) ∧
      ((code.encode cborEncoding).Kept → ofCbor code.toCbor = .ok code) ∧
      ((code.encode yamlEncoding).Kept →
        ofYaml (Text.bytesOf code.toYaml) = .ok (some code.filled))) ∧
    (∀ code : Code, code.levels ≤ Json.deepest → (code.encode jsonEncoding).Kept) ∧
    (∀ code : Code, code.levels ≤ Cbor.deepest → code.isShort = true →
      (code.encode cborEncoding).Kept) ∧
    (∀ (naming : Program.Naming) (isAsync : String → Bool) (unit : Node)
      (t : Program.Transformed) (render : Renderer) (code : Code),
      (Program.transform naming isAsync unit).1 = .ok t →
      Program.toCode render t.program = .ok code → code.Proper) :=
  ⟨fun _ h => ⟨ofJson_toJson h, ofCbor_toCbor h, ofYaml_toYaml h⟩,
    fun _ h => kept_json h,
    fun _ h hshort => kept_cbor h hshort,
    fun _ _ _ _ _ _ ht h => Program.proper_of_toCode ht h⟩

/-- A function whose parameters are left out, and a unit of one call. -/
theorem survives_codecs_of_call :
    let code : Code := [.defun "greet" none [.leaf "call" "say" true] false]
    let unit : Node := .toplevel [.stat (.call (.name "say") [])]
    code.Proper ∧
      ofJson (Text.bytesOf code.toJson) = .ok code ∧
      ofCbor code.toCbor = .ok code ∧
      ofYaml (Text.bytesOf code.toYaml) =
        .ok (some [.defun "greet" (some []) [.leaf "call" "say" true] false]) ∧
      ∃ t, (Program.transform {} Convention.usual.isAsync unit).1 = .ok t ∧
        ∃ code, Program.toCode (fun _ => .ok "say();") t.program = .ok code ∧ code.Proper := by
  intro code unit
  obtain ⟨reads, json, cbor, serializes⟩ := survives_codecs
  have hproper : code.Proper := by decide +kernel
  obtain ⟨hjson, hcbor, hyaml⟩ := reads code hproper
  refine ⟨hproper, hjson (json code ?_), hcbor (cbor code ?_ ?_), hyaml ?_, ?_⟩
  · decide +kernel
  · decide +kernel
  · decide +kernel
  · decide +kernel
  · have ok : ((Program.transform {} Convention.usual.isAsync unit).1.bind
        (fun t => Program.toCode (fun _ => .ok "say();") t.program)).isOk = true := by
      decide +kernel
    cases ht : (Program.transform {} Convention.usual.isAsync unit).1 with
    | error e => rw [ht] at ok; cases ok
    | ok t =>
      rw [ht] at ok
      cases hcode : Program.toCode (fun _ => .ok "say();") t.program with
      | error e =>
        rw [Except.bind, hcode] at ok
        cases ok
      | ok code => exact ⟨t, rfl, code, hcode, serializes _ _ _ _ _ _ ht hcode⟩

end Resumable.Code
