/-!
# Results of fallible steps

A sequence of steps succeeds exactly if each of them does (`bind_eq_ok_iff`). That a step on a fixed
input succeeds can be computed, which gives its result a name (`exists_ok`, `exists_ok_of_any`).
-/

namespace ToneScore

variable {ε α β : Type}

theorem bind_eq_ok_iff {x : Except ε α} {next : α → Except ε β} {b : β} :
    (x >>= next) = .ok b ↔ ∃ a, x = .ok a ∧ next a = .ok b := by
  cases x with
  | error e => exact ⟨nofun, fun ⟨a, h, _⟩ => nomatch h⟩
  | ok a => exact ⟨fun h => ⟨a, rfl, h⟩, fun ⟨a', ha, h⟩ => Except.ok.inj ha ▸ h⟩

theorem exists_ok {result : Except ε α} (h : result.toOption.isSome = true) :
    ∃ value, result = .ok value := by
  cases result with
  | ok value => exact ⟨value, rfl⟩
  | error e => cases h

theorem exists_ok_of_any {result : Except ε α} {p : α → Bool}
    (h : result.toOption.any p = true) : ∃ value, result = .ok value ∧ p value = true := by
  cases result with
  | ok value => exact ⟨value, rfl, h⟩
  | error e => cases h

end ToneScore
