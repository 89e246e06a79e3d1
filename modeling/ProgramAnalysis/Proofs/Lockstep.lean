import Mathlib.Data.Set.Basic
import ProgramAnalysis.Proofs.Traced

/-! Two computations in step. A computation moves a state and only adds to what the state has seen.
Another one that does the same as long as nothing outside `R` is seen is, log and all, the same
computation, if the first one ends and has seen nothing outside `R` by then. Seeing only adds, so
that where it ends bounds what it has seen on the way. -/
namespace ProgramAnalysis.Traced

variable {σ κ α β γ : Type} {seen : σ → Set κ} {R : Set κ} {I : σ → Prop} {s t : σ}

/-- From the state `s`, `y` does as `x`, where `st` is the state in what `x` returns and `I` is what
both keep. -/
structure Mirrors (seen : σ → Set κ) (R : Set κ) (I : σ → Prop) (s : σ) (st : α → σ)
    (y x : Traced α) : Prop where
  grows : ∀ a, x.result = .ok a → seen s ⊆ seen (st a)
  same : I s → ∀ a, x.result = .ok a → seen (st a) ⊆ R → y = x ∧ I (st a)

variable {st : α → σ} {st' : β → σ} {x y : Traced α}

/-- Only the values that a computation returns matter for what comes after it. -/
theorem bind_congr_of_ok {f g : α → Traced β} (h : ∀ a, x.result = .ok a → f a = g a) :
    x >>= f = x >>= g := by
  obtain ⟨_ | a, events⟩ := x
  · rfl
  · show Traced.mk (f a).result (events ++ (f a).events) = _
    rw [h a rfl]
    rfl

theorem Mirrors.bind {f g : α → Traced β} (hx : Mirrors seen R I s st y x)
    (hf : ∀ a, x.result = .ok a → Mirrors seen R I (st a) st' (g a) (f a)) :
    Mirrors seen R I s st' (y >>= g) (x >>= f) where
  grows b h := by
    obtain ⟨a, ha, hb⟩ := bind_ok_iff.mp h
    exact (hx.grows a ha).trans ((hf a ha).grows b hb)
  same hs b h hR := by
    obtain ⟨a, ha, hb⟩ := bind_ok_iff.mp h
    obtain ⟨rfl, ht⟩ := hx.same hs a ha (((hf a ha).grows b hb).trans hR)
    obtain ⟨hsame, hu⟩ := (hf a ha).same ht b hb hR
    refine ⟨bind_congr_of_ok fun a' ha' => ?_, hu⟩
    cases ha.symm.trans ha'
    exact hsame

theorem mirrors_pure {a : α} (hgrows : seen s ⊆ seen (st a))
    (hkept : I s → seen (st a) ⊆ R → I (st a)) : Mirrors seen R I s st (pure a) (pure a) where
  grows a' h := by
    cases h
    exact hgrows
  same hs a' h hR := by
    cases h
    exact ⟨rfl, hkept hs hR⟩

/-- What is needed of the start and of the end may be assumed, if it is known that seeing only adds. -/
theorem Mirrors.of_end (hgrows : ∀ a, x.result = .ok a → seen s ⊆ seen (st a))
    (h : I s → ∀ a, x.result = .ok a → seen (st a) ⊆ R → Mirrors seen R I s st y x) :
    Mirrors seen R I s st y x where
  grows := hgrows
  same hs a ha hR := (h hs a ha hR).same hs a ha hR

/-- The state changes before the computation. -/
theorem Mirrors.after (h : Mirrors seen R I t st y x) (hgrows : seen s ⊆ seen t)
    (hkept : I s → seen t ⊆ R → I t) : Mirrors seen R I s st y x where
  grows a ha := hgrows.trans (h.grows a ha)
  same hs a ha hR := h.same (hkept hs ((h.grows a ha).trans hR)) a ha hR

theorem mirrors_log_bind {e : Event} {f g : Unit → Traced α}
    (h : Mirrors seen R I s st (g ()) (f ())) :
    Mirrors seen R I s st (log e >>= g) (log e >>= f) where
  grows a ha := by
    obtain ⟨⟨⟩, -, ha⟩ := bind_ok_iff.mp ha
    exact h.grows a ha
  same hs a ha hR := by
    obtain ⟨⟨⟩, -, ha⟩ := bind_ok_iff.mp ha
    obtain ⟨hsame, ht⟩ := h.same hs a ha hR
    exact ⟨bind_congr_of_ok fun _ _ => hsame, ht⟩

/-- A lookup that succeeds must give the same. -/
theorem mirrors_lift_bind {v w : Except AnalysisError γ} {f g : γ → Traced α}
    (hv : ∀ c, v = .ok c → w = .ok c)
    (hf : ∀ c, v = .ok c → Mirrors seen R I s st (g c) (f c)) :
    Mirrors seen R I s st ((liftM w : Traced γ) >>= g) ((liftM v : Traced γ) >>= f) where
  grows a ha := by
    obtain ⟨c, hc, ha⟩ := bind_ok_iff.mp ha
    exact (hf c hc).grows a ha
  same hs a ha hR := by
    obtain ⟨c, hc, ha⟩ := bind_ok_iff.mp ha
    obtain ⟨hsame, ht⟩ := (hf c hc).same hs a ha hR
    rw [hv c hc]
    refine ⟨?_, ht⟩
    cases (hc : v = .ok c)
    exact bind_congr_of_ok fun c' hc' => by cases hc'; exact hsame

theorem mirrors_foldlM {f g : σ → α → Traced σ} {xs : List α}
    (h : ∀ s, ∀ a ∈ xs, Mirrors seen R I s id (g s a) (f s a)) (s : σ) :
    Mirrors seen R I s id (xs.foldlM g s) (xs.foldlM f s) := by
  induction xs generalizing s with
  | nil => exact mirrors_pure subset_rfl fun hs _ => hs
  | cons a xs ih =>
    rw [List.foldlM_cons, List.foldlM_cons]
    refine (h s a List.mem_cons_self).bind fun t _ => ?_
    exact ih (fun s b hb => h s b (List.mem_cons_of_mem a hb)) t

end ProgramAnalysis.Traced
