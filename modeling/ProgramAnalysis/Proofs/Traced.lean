import Mathlib.Data.List.Forall2
import ProgramAnalysis.Proofs.Except
import ProgramAnalysis.Traced

/-! Total correctness of traced computations: one that `Returns` a postcondition does not fail, and
what it returns satisfies the postcondition. One that `Ensures` it may fail. The log plays no
part. -/
namespace ProgramAnalysis.Traced

variable {α β : Type} {P Q : α → Prop}

instance : LawfulMonad Traced := by
  refine .mk' _ (fun x => ?_) (fun a f => rfl) fun x f g => ?_
  · obtain ⟨_ | a, events⟩ := x
    · rfl
    · exact congrArg (Traced.mk (.ok a)) (List.append_nil events)
  · obtain ⟨_ | a, events⟩ := x
    · rfl
    · simp only [bind]
      cases (f a).result
      · rfl
      · simp [List.append_assoc]

theorem bind_ok_iff {x : Traced α} {f : α → Traced β} {b : β} :
    (x >>= f).result = .ok b ↔ ∃ a, x.result = .ok a ∧ (f a).result = .ok b := by
  rw [result_bind]
  exact ProgramAnalysis.bind_ok_iff

/-- Two loops over one list: if each round of the second follows that of the first and relates to it,
so does the whole. -/
theorem mapM_related {f g : α → Traced β} {T : β → β → Prop} {xs : List α} {ys : List β}
    (hround : ∀ x ∈ xs, ∀ y, (f x).result = .ok y → ∃ z, (g x).result = .ok z ∧ T y z)
    (h : (xs.mapM f).result = .ok ys) :
    ∃ zs, (xs.mapM g).result = .ok zs ∧ List.Forall₂ T ys zs := by
  induction xs generalizing ys with
  | nil =>
    cases h
    exact ⟨[], rfl, .nil⟩
  | cons x xs ih =>
    rw [List.mapM_cons] at h ⊢
    obtain ⟨y, hy, h⟩ := bind_ok_iff.mp h
    obtain ⟨ys, hys, h⟩ := bind_ok_iff.mp h
    cases h
    obtain ⟨z, hz, hyz⟩ := hround x List.mem_cons_self y hy
    obtain ⟨zs, hzs, hrest⟩ := ih (fun w hw => hround w (List.mem_cons_of_mem x hw)) hys
    exact ⟨z :: zs, bind_ok_iff.mpr ⟨z, hz, bind_ok_iff.mpr ⟨zs, hzs, rfl⟩⟩, .cons hyz hrest⟩

theorem mapM_total {f : α → Traced β} {xs : List α}
    (h : ∀ x ∈ xs, ∃ y, (f x).result = .ok y) : ∃ ys, (xs.mapM f).result = .ok ys := by
  induction xs with
  | nil => exact ⟨[], rfl⟩
  | cons x xs ih =>
    obtain ⟨y, hy⟩ := h x List.mem_cons_self
    obtain ⟨ys, hys⟩ := ih fun z hz => h z (List.mem_cons_of_mem x hz)
    refine ⟨y :: ys, ?_⟩
    rw [List.mapM_cons]
    exact bind_ok_iff.mpr ⟨y, hy, bind_ok_iff.mpr ⟨ys, hys, rfl⟩⟩

def Returns (x : Traced α) (Q : α → Prop) : Prop := ∃ a, x.result = .ok a ∧ Q a

@[simp] theorem returns_pure {a : α} : Returns (pure a) Q ↔ Q a := by
  simp [Returns]

theorem Returns.mono {x : Traced α} (h : Returns x P) (hpq : ∀ a, P a → Q a) : Returns x Q := by
  obtain ⟨a, hx, ha⟩ := h
  exact ⟨a, hx, hpq a ha⟩

/-- A computation has one result, so that two postconditions hold of the same one. -/
theorem Returns.and {x : Traced α} (hp : Returns x P) (hq : Returns x Q) :
    Returns x fun a => P a ∧ Q a := by
  obtain ⟨a, hx, ha⟩ := hp
  obtain ⟨b, hy, hb⟩ := hq
  rw [hx] at hy
  cases hy
  exact ⟨a, hx, ha, hb⟩

theorem Returns.bind {x : Traced α} {f : α → Traced β} {R : β → Prop} (hx : Returns x P)
    (hf : ∀ a, P a → Returns (f a) R) : Returns (x >>= f) R := by
  obtain ⟨a, hx, ha⟩ := hx
  obtain ⟨b, hb, hr⟩ := hf a ha
  exact ⟨b, bind_ok_iff.mpr ⟨a, hx, hb⟩, hr⟩

theorem returns_lift_bind {x : Except AnalysisError α} {a : α} {f : α → Traced β}
    {R : β → Prop} (hx : x = .ok a) : Returns ((liftM x : Traced α) >>= f) R ↔ Returns (f a) R := by
  simp only [Returns, result_bind, result_lift, hx]
  rfl

@[simp] theorem returns_log_bind {e : Event} {f : Unit → Traced β} {R : β → Prop} :
    Returns (log e >>= f) R ↔ Returns (f ()) R := by
  simp only [Returns, result_bind, result_log]
  rfl

/-- A loop that keeps `I` and moves along `R`, and does `D a` for each element `a`: what is done
stays done, so that in the end it is done for all. -/
theorem Returns.foldlM {I : β → Prop} {R : β → β → Prop} {D : α → β → Prop}
    (refl : ∀ s, R s s) (trans : ∀ {s t u}, R s t → R t u → R s u)
    (kept : ∀ {a s t}, R s t → D a s → D a t) {f : β → α → Traced β} {xs : List α}
    (hf : ∀ a ∈ xs, ∀ s, I s → Returns (f s a) fun t => I t ∧ R s t ∧ D a t) {s : β} (hs : I s) :
    Returns (xs.foldlM f s) fun t => I t ∧ R s t ∧ ∀ a ∈ xs, D a t := by
  induction xs generalizing s with
  | nil => simp [hs, refl]
  | cons x xs ih =>
    rw [List.foldlM_cons]
    refine (hf x (by simp) s hs).bind fun t ⟨ht, hst, hx⟩ => ?_
    refine (ih (fun a ha => hf a (List.mem_cons_of_mem x ha)) ht).mono fun u ⟨hu, htu, hxs⟩ => ?_
    refine ⟨hu, trans hst htu, fun a ha => ?_⟩
    rcases List.mem_cons.mp ha with rfl | ha
    · exact kept htu hx
    · exact hxs a ha

def Ensures (x : Traced α) (Q : α → Prop) : Prop := ∀ a, x.result = .ok a → Q a

theorem Returns.of_ensures {x : Traced α} (hp : Returns x P) (hq : Ensures x Q) :
    Returns x fun a => P a ∧ Q a := by
  obtain ⟨a, hx, ha⟩ := hp
  exact ⟨a, hx, ha, hq a hx⟩

@[simp] theorem ensures_pure {a : α} : Ensures (pure a) Q ↔ Q a := by
  simp [Ensures]

theorem Ensures.mono {x : Traced α} (h : Ensures x P) (hpq : ∀ a, P a → Q a) : Ensures x Q :=
  fun a ha => hpq a (h a ha)

theorem Ensures.bind {x : Traced α} {f : α → Traced β} {R : β → Prop} (hx : Ensures x P)
    (hf : ∀ a, P a → Ensures (f a) R) : Ensures (x >>= f) R := by
  intro b h
  obtain ⟨a, ha, hb⟩ := bind_ok_iff.mp h
  exact hf a (hx a ha) b hb

/-- A loop keeps what its rounds keep. -/
theorem Ensures.foldlM {I : β → Prop} {f : β → α → Traced β} {xs : List α}
    (hf : ∀ s, ∀ a ∈ xs, I s → Ensures (f s a) I) {s : β} (hs : I s) :
    Ensures (xs.foldlM f s) I := by
  induction xs generalizing s with
  | nil => simpa using hs
  | cons x xs ih =>
    rw [List.foldlM_cons]
    refine (hf s x List.mem_cons_self hs).bind fun t ht => ?_
    exact ih (fun s a ha => hf s a (List.mem_cons_of_mem x ha)) ht

theorem ensures_true {x : Traced α} : Ensures x fun _ => True := fun _ _ => trivial

/-! ### Logs -/

variable {T : Event → Prop}

/-- Whatever is logged satisfies `T`, also by a computation that fails. -/
def Logs (x : Traced α) (T : Event → Prop) : Prop := ∀ e ∈ x.events, T e

theorem logs_pure {a : α} : Logs (pure a) T := fun _ he => absurd he List.not_mem_nil

theorem logs_lift {x : Except AnalysisError α} : Logs (liftM x : Traced α) T :=
  fun _ he => absurd he List.not_mem_nil

theorem logs_fail {e : AnalysisError} : Logs (fail e : Traced α) T :=
  fun _ he => absurd he List.not_mem_nil

theorem logs_log {e : Event} (he : T e) : Logs (log e) T := List.forall_mem_singleton.mpr he

theorem Logs.bind {x : Traced α} {f : α → Traced β} (hx : Logs x T)
    (hf : ∀ a, x.result = .ok a → Logs (f a) T) : Logs (x >>= f) T := by
  obtain ⟨result, events⟩ := x
  cases result with
  | error e => exact hx
  | ok a => exact fun e he => (List.mem_append.mp he).elim (hx e) (hf a rfl e)

theorem logs_lift_bind {x : Except AnalysisError α} {f : α → Traced β}
    (hf : ∀ a, x = .ok a → Logs (f a) T) : Logs ((liftM x : Traced α) >>= f) T :=
  logs_lift.bind hf

theorem logs_log_bind {e : Event} {f : Unit → Traced β} (he : T e) (hf : Logs (f ()) T) :
    Logs (log e >>= f) T :=
  (logs_log he).bind fun _ _ => hf

theorem Logs.foldlM {f : β → α → Traced β} {xs : List α} (hf : ∀ s, ∀ a ∈ xs, Logs (f s a) T)
    (s : β) : Logs (xs.foldlM f s) T := by
  induction xs generalizing s with
  | nil => exact logs_pure
  | cons x xs ih =>
    rw [List.foldlM_cons]
    refine (hf s x List.mem_cons_self).bind fun t _ => ?_
    exact ih (fun s a ha => hf s a (List.mem_cons_of_mem x ha)) t

theorem Logs.mapM {f : α → Traced β} {xs : List α} (hf : ∀ a ∈ xs, Logs (f a) T) :
    Logs (xs.mapM f) T := by
  induction xs with
  | nil => exact logs_pure
  | cons x xs ih =>
    rw [List.mapM_cons]
    refine (hf x List.mem_cons_self).bind fun _ _ => ?_
    exact (ih fun a ha => hf a (List.mem_cons_of_mem x ha)).bind fun _ _ => logs_pure

end ProgramAnalysis.Traced
