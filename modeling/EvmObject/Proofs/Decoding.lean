import EvmObject.Proofs.Codec
import EvmObject.Proofs.Validity
/-!
What a container that was loaded has to be. Main statement: it is legal (`legal_of_load`).
-/
namespace EvmObject.Container

variable {c : Container} {bytes : List UInt8}

theorem load_eq_ok : load bytes = .ok c ↔ decode bytes = .ok c ∧ c.validate = .ok () := by
  rw [load]
  cases decode bytes with
  | error e => simp
  | ok d =>
    dsimp only
    cases valid : d.validate with
    | error e =>
      simp only [reduceCtorEq, false_iff, not_and]
      rintro same
      cases same
      simp [valid]
    | ok u =>
      constructor
      · intro same
        cases same
        exact ⟨rfl, valid⟩
      · rintro ⟨same, _⟩
        cases same
        rfl

theorem legal_of_load (h : load bytes = .ok c) : c.Legal := by
  obtain ⟨decoded, valid⟩ := load_eq_ok.1 h
  exact ⟨legal_of_validate valid, (decode_eq_ok.1 decoded).1.sections_pos⟩

end EvmObject.Container
