import ToneScore.Proofs.Results
import ToneScore.Score.Fault

/-!
# Readers of single fields

A field of a score is read on its own. `Reads` says that the reader of a field accepts exactly the
tokens of a language, with their values, and that any other token is itself at fault.
-/

namespace ToneScore.Score

variable {α : Type}

/-- The reader accepts the tokens that denote a value and finds fault with the others. -/
structure Reads (read : String → Except Fault α) (Denotes : String → α → Prop)
    (fault : String → Fault) : Prop where
  ok_iff : ∀ token value, read token = .ok value ↔ Denotes token value
  error_iff : ∀ token e, read token = .error e ↔ e = fault token ∧ ∀ value, ¬ Denotes token value

theorem reads_of_option {read : String → Except Fault α} {read? : String → Option α}
    {Denotes : String → α → Prop} {fault : String → Fault}
    (hread : ∀ token, read token = (read? token).elim (.error (fault token)) .ok)
    (h : ∀ token value, read? token = some value ↔ Denotes token value) :
    Reads read Denotes fault where
  ok_iff token value := by
    rw [← h, hread]
    cases read? token <;> simp
  error_iff token e := by
    simp only [← h, hread]
    cases read? token <;> simp [eq_comm]

namespace Reads

variable {read : String → Except Fault α} {Denotes : String → α → Prop} {fault : String → Fault}
  {token : String}

theorem eq_ok (h : Reads read Denotes fault) {value : α} (hvalue : Denotes token value) :
    read token = .ok value := (h.ok_iff token value).mpr hvalue

theorem eq_error (h : Reads read Denotes fault) (hnone : ∀ value, ¬ Denotes token value) :
    read token = .error (fault token) := (h.error_iff token _).mpr ⟨rfl, hnone⟩

end Reads

end ToneScore.Score
