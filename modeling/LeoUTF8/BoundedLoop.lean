import Mathlib.Tactic

set_option autoImplicit false

/-!
# Faulting executions and bounded loops

A computation over raw memory either returns or faults. A loop is given by the
function of its body, which either continues from a new state or leaves the loop.
The loop runs with a bound on its iterations and reaching the bound is a fault,
so a proof that no fault occurs is also a proof of termination.
-/
namespace LeoUTF8.BoundedLoop

/-- `read` and `write` are accesses outside an object, `bound` is an exhausted bound. -/
inductive Fault where
  | read
  | write
  | bound
  deriving DecidableEq, Repr

abbrev Exec (α : Type) := Except Fault α

@[simp] theorem ok_bind {α β : Type} (x : α) (f : α → Exec β) :
    ((.ok x : Exec α) >>= f) = f x := rfl

@[simp] theorem error_bind {α β : Type} (e : Fault) (f : α → Exec β) :
    ((.error e : Exec α) >>= f) = .error e := rfl

theorem bind_eq_ok {α β : Type} {x : Exec α} {f : α → Exec β} {b : β}
    (h : (x >>= f) = .ok b) : ∃ a, x = .ok a ∧ f a = .ok b := by
  cases x with
  | error e => simp at h
  | ok a => exact ⟨a, rfl, h⟩

inductive Step (σ ρ : Type) where
  | next (s : σ)
  | done (r : ρ)

variable {σ ρ : Type}

def run (body : σ → Exec (Step σ ρ)) : ℕ → σ → Exec ρ
  | 0, _ => .error .bound
  | fuel + 1, s => body s >>= fun
    | .next u => run body fuel u
    | .done r => .ok r

theorem run_next {body : σ → Exec (Step σ ρ)} {s u : σ} (h : body s = .ok (.next u))
    (fuel : ℕ) : run body (fuel + 1) s = run body fuel u := by
  simp [run, h]

theorem run_done {body : σ → Exec (Step σ ρ)} {s : σ} {r : ρ} (h : body s = .ok (.done r))
    (fuel : ℕ) : run body (fuel + 1) s = .ok r := by
  simp [run, h]

/-- The body keeps `I` and lowers `measure`, or leaves the loop with a result in `Q`. -/
def Progress (body : σ → Exec (Step σ ρ)) (I : σ → Prop) (measure : σ → ℕ)
    (Q : ρ → Prop) : Prop :=
  ∀ s, I s → (∃ u, body s = .ok (.next u) ∧ I u ∧ measure u < measure s) ∨
    ∃ r, body s = .ok (.done r) ∧ Q r

/-- Total correctness of a loop: the bound exceeds the measure of the entry state. -/
theorem run_total {body : σ → Exec (Step σ ρ)} {I : σ → Prop} {measure : σ → ℕ}
    {Q : ρ → Prop} (progress : Progress body I measure Q) (fuel : ℕ) (s : σ) (hs : I s)
    (hfuel : measure s < fuel) : ∃ r, run body fuel s = .ok r ∧ Q r := by
  induction fuel generalizing s with
  | zero => omega
  | succ fuel ih =>
    obtain ⟨u, hu, hI, hlt⟩ | ⟨r, hr, hQ⟩ := progress s hs
    · obtain ⟨r, hr, hQ⟩ := ih u hI (by omega)
      exact ⟨r, by rw [run_next hu, hr], hQ⟩
    · exact ⟨r, run_done hr fuel, hQ⟩

/-- Partial correctness: a loop that returns leaves from a state of the invariant. -/
theorem run_leaves {body : σ → Exec (Step σ ρ)} {I : σ → Prop}
    (step : ∀ s u, I s → body s = .ok (.next u) → I u) {fuel : ℕ} {s : σ} {r : ρ} (hs : I s)
    (h : run body fuel s = .ok r) : ∃ u, I u ∧ body u = .ok (.done r) := by
  induction fuel generalizing s with
  | zero => cases h
  | succ fuel ih =>
    obtain ⟨next, hbody, hnext⟩ := bind_eq_ok h
    cases next with
    | next u => exact ih (step s u hs hbody) hnext
    | done r' =>
      obtain rfl : r' = r := by simpa using hnext
      exact ⟨s, hs, hbody⟩

theorem run_eq {body : σ → Exec (Step σ ρ)} {I : σ → Prop} {measure : σ → ℕ} {r : ρ}
    (progress : Progress body I measure (· = r)) {fuel : ℕ} {s : σ} (hs : I s)
    (hfuel : measure s < fuel) : run body fuel s = .ok r := by
  obtain ⟨_, h, rfl⟩ := run_total progress fuel s hs hfuel
  exact h

/-- Two loops whose bodies agree on the states of the first return alike. The bounds may differ. -/
theorem run_congr {body body' : σ → Exec (Step σ ρ)} {I : σ → Prop} {measure : σ → ℕ}
    (agree : ∀ s, I s → body' s = body s)
    (step : ∀ s u, I s → body s = .ok (.next u) → I u ∧ measure u < measure s)
    {fuel fuel' : ℕ} {s : σ} (hs : I s) (hfuel : measure s < fuel) (hfuel' : measure s < fuel') :
    run body' fuel' s = run body fuel s := by
  induction fuel generalizing fuel' s with
  | zero => omega
  | succ fuel ih =>
    cases fuel' with
    | zero => omega
    | succ fuel' =>
      rw [run, run, agree s hs]
      cases h : body s with
      | error e => rfl
      | ok next =>
        cases next with
        | done r => rfl
        | next u =>
          obtain ⟨hu, hlt⟩ := step s u hs h
          exact ih hu (by omega) (by omega)

/-- The states that a loop passes through, with the number of iterations before each. -/
inductive Reaches (body : σ → Exec (Step σ ρ)) (s : σ) : ℕ → σ → Prop where
  | entry : Reaches body s 0 s
  | step {n : ℕ} {u v : σ} (h : Reaches body s n u) (hv : body u = .ok (.next v)) :
      Reaches body s (n + 1) v

theorem Reaches.invariant {body : σ → Exec (Step σ ρ)} {s : σ} (I : ℕ → σ → Prop)
    (entry : I 0 s) (step : ∀ n u v, I n u → body u = .ok (.next v) → I (n + 1) v)
    {n : ℕ} {u : σ} (h : Reaches body s n u) : I n u := by
  induction h with
  | entry => exact entry
  | step _ hv ih => exact step _ _ _ ih hv

end LeoUTF8.BoundedLoop
