import ProgramAnalysis.Event
/-!
Computations that log events and may fail. What was logged before a failure stays logged, and the
log never changes the result.
-/
namespace ProgramAnalysis

structure Traced (α : Type) where
  result : Except AnalysisError α
  events : List Event

namespace Traced

variable {α β : Type}

instance : Monad Traced where
  pure a := ⟨.ok a, []⟩
  bind x f :=
    match x.result with
    | .error e => ⟨.error e, x.events⟩
    | .ok a =>
      let y := f a
      ⟨y.result, x.events ++ y.events⟩

instance : MonadLift (Except AnalysisError) Traced := ⟨fun x => ⟨x, []⟩⟩

def fail (e : AnalysisError) : Traced α := ⟨.error e, []⟩

def log (e : Event) : Traced Unit := ⟨.ok (), [e]⟩

@[simp] theorem result_pure (a : α) : (pure a : Traced α).result = .ok a := rfl

theorem result_bind (x : Traced α) (f : α → Traced β) :
    (x >>= f).result = x.result >>= fun a => (f a).result := by
  simp only [bind]
  cases x.result <;> rfl

@[simp] theorem result_lift (x : Except AnalysisError α) :
    (liftM x : Traced α).result = x := rfl

@[simp] theorem result_log (e : Event) : (log e).result = .ok () := rfl

end Traced
end ProgramAnalysis
