import Mathlib.Tactic.Lemma
import Overload.Fault

/-! Computations on a state that may fail: what they did stays done. -/

namespace Overload

variable {S α β : Type}

lemma bind_def (a : ExceptT Fault (StateM S) α) (f : α → ExceptT Fault (StateM S) β) (s : S) :
    (a >>= f) s = match a s with
      | (.ok x, t) => f x t
      | (.error e, t) => (.error e, t) := by
  simp only [bind, ExceptT.bind, ExceptT.mk, StateT.bind, ExceptT.bindCont]
  rcases a s with ⟨r, t⟩
  cases r <;> rfl

lemma bind_eq_ok {a : ExceptT Fault (StateM S) α} {f : α → ExceptT Fault (StateM S) β} {s t : S}
    {y : β} : (a >>= f) s = (.ok y, t) ↔ ∃ x u, a s = (.ok x, u) ∧ f x u = (.ok y, t) := by
  rw [bind_def]
  rcases a s with ⟨r, u⟩
  cases r with
  | error e =>
    refine ⟨fun h => ?_, fun ⟨_, _, h, _⟩ => ?_⟩ <;> cases congrArg Prod.fst h
  | ok x =>
    refine ⟨fun h => ⟨x, u, rfl, h⟩, fun ⟨_, _, h, h'⟩ => ?_⟩
    obtain ⟨hx, rfl⟩ := Prod.mk.inj h
    obtain rfl := Except.ok.inj hx
    exact h'

@[simp] lemma ok_bind (x : α) (f : α → Except Fault β) : (Except.ok x >>= f) = f x := rfl

@[simp] lemma error_bind (e : Fault) (f : α → Except Fault β) :
    (Except.error e >>= f) = .error e := rfl

@[simp] lemma pure_ok (x : α) : (pure x : Except Fault α) = .ok x := rfl

lemma except_bind_eq_ok {x : Except Fault α} {f : α → Except Fault β} {b : β} :
    (x >>= f) = .ok b ↔ ∃ a, x = .ok a ∧ f a = .ok b := by
  cases x <;> simp

lemma exists_ok_of_isSome {x : Except Fault α} (h : x.toOption.isSome = true) :
    ∃ a, x = .ok a := by
  cases x with
  | ok a => exact ⟨a, rfl⟩
  | error e => cases h

end Overload
