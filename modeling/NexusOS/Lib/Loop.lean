import Mathlib.Tactic

namespace NexusOS.Lib

variable {σ ε : Type*}

/-- A loop whose body fails, leaves the loop or goes round again, run for at most `k` rounds. -/
def loop (body : σ → Except ε (ForInStep σ)) : ℕ → σ → Except ε σ
  | 0, s => .ok s
  | k + 1, s =>
    match body s with
    | .error e => .error e
    | .ok (.done s) => .ok s
    | .ok (.yield s) => loop body k s

variable {body : σ → Except ε (ForInStep σ)}

theorem loop_done {s s' : σ} (h : body s = .ok (.done s')) (k : ℕ) :
    loop body (k + 1) s = .ok s' := by
  simp only [loop, h]

theorem loop_yield {s s' : σ} (h : body s = .ok (.yield s')) (k : ℕ) :
    loop body (k + 1) s = loop body k s' := by
  simp only [loop, h]

end NexusOS.Lib
