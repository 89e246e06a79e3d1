import Mathlib.Logic.Basic

/-! Computations that may fail: what a sequence or a loop over a list says of its parts. -/
namespace ProgramAnalysis

variable {α β : Type} {ε : Type}

theorem bind_ok_iff {x : Except ε α} {f : α → Except ε β} {b : β} :
    x >>= f = .ok b ↔ ∃ a, x = .ok a ∧ f a = .ok b := by
  cases x with
  | error e => exact ⟨nofun, fun ⟨_, h, _⟩ => nomatch h⟩
  | ok a => exact ⟨fun h => ⟨a, rfl, h⟩, fun ⟨_, ha, h⟩ => by cases ha; exact h⟩

/-- Only the values that a computation returns matter for what comes after it. -/
theorem bind_congr_of_ok {x : Except ε α} {f g : α → Except ε β} (h : ∀ a, x = .ok a → f a = g a) :
    x >>= f = x >>= g := by
  cases x with
  | error e => rfl
  | ok a => exact h a rfl

theorem mapM_congr {m : Type → Type} [Monad m] [LawfulMonad m] {f g : α → m β} {xs : List α}
    (h : ∀ x ∈ xs, f x = g x) : xs.mapM f = xs.mapM g := by
  induction xs with
  | nil => rfl
  | cons x xs ih =>
    rw [List.mapM_cons, List.mapM_cons, h x List.mem_cons_self,
      ih fun y hy => h y (List.mem_cons_of_mem x hy)]

theorem filterM_congr {m : Type → Type} [Monad m] {f g : α → m Bool} {xs : List α}
    (h : ∀ x ∈ xs, f x = g x) : xs.filterM f = xs.filterM g := by
  have haux : ∀ (xs acc : List α), (∀ x ∈ xs, f x = g x) →
      xs.filterAuxM f acc = xs.filterAuxM g acc := by
    intro xs
    induction xs with
    | nil => exact fun _ _ => rfl
    | cons x xs ih =>
      intro acc h
      rw [List.filterAuxM, List.filterAuxM, h x List.mem_cons_self]
      exact congrArg (g x >>= ·) (funext fun b => ih _ fun y hy => h y (List.mem_cons_of_mem x hy))
  unfold List.filterM
  rw [haux xs [] h]

/-- A loop over a list that succeeds does so for each element, with these results and no others. -/
theorem mapM_ok {f : α → Except ε β} {xs : List α} {ys : List β} (h : xs.mapM f = .ok ys) :
    (∀ x ∈ xs, ∃ y ∈ ys, f x = .ok y) ∧ ∀ y ∈ ys, ∃ x ∈ xs, f x = .ok y := by
  induction xs generalizing ys with
  | nil =>
    cases h
    exact ⟨nofun, nofun⟩
  | cons x xs ih =>
    rw [List.mapM_cons] at h
    obtain ⟨y, hy, h⟩ := bind_ok_iff.mp h
    obtain ⟨zs, hzs, h⟩ := bind_ok_iff.mp h
    cases h
    obtain ⟨hall, hfrom⟩ := ih hzs
    refine ⟨List.forall_mem_cons.mpr ⟨⟨y, List.mem_cons_self, hy⟩, fun w hw => ?_⟩,
      List.forall_mem_cons.mpr ⟨⟨x, List.mem_cons_self, hy⟩, fun z hz => ?_⟩⟩
    · obtain ⟨z, hz, hf⟩ := hall w hw
      exact ⟨z, List.mem_cons_of_mem y hz, hf⟩
    · obtain ⟨w, hw, hf⟩ := hfrom z hz
      exact ⟨w, List.mem_cons_of_mem x hw, hf⟩

/-- What is taken satisfies the test, and all that does is taken. -/
theorem mem_filterM {f : α → Except ε Bool} {xs ys : List α} {x : α}
    (h : xs.filterM f = .ok ys) : x ∈ ys ↔ x ∈ xs ∧ f x = .ok true := by
  have haux : ∀ (xs acc ys : List α), xs.filterAuxM f acc = .ok ys →
      (x ∈ ys ↔ x ∈ acc ∨ x ∈ xs ∧ f x = .ok true) := by
    intro xs
    induction xs with
    | nil =>
      intro acc ys h
      cases h
      simp
    | cons z xs ih =>
      intro acc ys h
      obtain ⟨taken, htaken, h⟩ := bind_ok_iff.mp h
      rw [ih _ _ h, List.mem_cons, or_and_right, ← or_assoc]
      refine or_congr_left ?_
      cases taken with
      | false =>
        refine ⟨.inl, fun h => h.elim id fun ⟨hx, hf⟩ => ?_⟩
        rw [hx, htaken] at hf
        cases hf
      | true =>
        rw [cond_true, List.mem_cons]
        refine ⟨fun h => h.elim (fun hx => .inr ⟨hx, hx ▸ htaken⟩) .inl, fun h => ?_⟩
        exact h.elim .inr fun ⟨hx, _⟩ => .inl hx
  obtain ⟨zs, hzs, h⟩ := bind_ok_iff.mp h
  cases h
  rw [List.mem_reverse, haux xs [] zs hzs]
  simp

/-- A loop whose rounds all succeed does so. -/
theorem mapM_total {f : α → Except ε β} {xs : List α} (h : ∀ x ∈ xs, ∃ y, f x = .ok y) :
    ∃ ys, xs.mapM f = .ok ys := by
  induction xs with
  | nil => exact ⟨[], rfl⟩
  | cons x xs ih =>
    obtain ⟨y, hy⟩ := h x List.mem_cons_self
    obtain ⟨ys, hys⟩ := ih fun z hz => h z (List.mem_cons_of_mem x hz)
    refine ⟨y :: ys, ?_⟩
    rw [List.mapM_cons]
    exact bind_ok_iff.mpr ⟨y, hy, bind_ok_iff.mpr ⟨ys, hys, rfl⟩⟩

theorem filterM_total {f : α → Except ε Bool} {xs : List α} (h : ∀ x ∈ xs, ∃ b, f x = .ok b) :
    ∃ ys, xs.filterM f = .ok ys := by
  have haux : ∀ (xs acc : List α), (∀ x ∈ xs, ∃ b, f x = .ok b) →
      ∃ ys, xs.filterAuxM f acc = .ok ys := by
    intro xs
    induction xs with
    | nil => exact fun acc _ => ⟨acc, rfl⟩
    | cons x xs ih =>
      intro acc h
      obtain ⟨b, hb⟩ := h x List.mem_cons_self
      obtain ⟨ys, hys⟩ := ih (cond b (x :: acc) acc) fun z hz => h z (List.mem_cons_of_mem x hz)
      exact ⟨ys, bind_ok_iff.mpr ⟨b, hb, hys⟩⟩
  obtain ⟨ys, hys⟩ := haux xs [] h
  exact ⟨ys.reverse, bind_ok_iff.mpr ⟨ys, hys, rfl⟩⟩

theorem mapM_eq_map {f : α → Except ε β} {g : α → β} {xs : List α} (h : ∀ x ∈ xs, f x = .ok (g x)) :
    xs.mapM f = .ok (xs.map g) :=
  (mapM_congr (g := fun x => pure (g x)) h).trans List.mapM_pure

theorem filterM_eq_filter {f : α → Except ε Bool} {g : α → Bool} {xs : List α}
    (h : ∀ x ∈ xs, f x = .ok (g x)) : xs.filterM f = .ok (xs.filter g) := by
  have haux : ∀ (xs acc : List α), (∀ x ∈ xs, f x = .ok (g x)) →
      xs.filterAuxM f acc = .ok ((xs.filter g).reverse ++ acc) := by
    intro xs
    induction xs with
    | nil => exact fun acc _ => rfl
    | cons x xs ih =>
      intro acc h
      have hrest := ih (cond (g x) (x :: acc) acc) fun y hy => h y (List.mem_cons_of_mem x hy)
      refine bind_ok_iff.mpr ⟨g x, h x List.mem_cons_self, hrest.trans (congrArg _ ?_)⟩
      cases hg : g x with
      | false => rw [List.filter_cons_of_neg (by simp [hg])]; rfl
      | true => rw [List.filter_cons_of_pos hg, List.reverse_cons, List.append_assoc]; rfl
  exact bind_ok_iff.mpr ⟨_, haux xs [] h, by simp [pure, Except.pure]⟩

theorem forM_ok {f : α → Except ε Unit} {xs : List α} (h : ∀ x ∈ xs, f x = .ok ()) :
    xs.forM f = .ok () := by
  rw [List.forM_eq_forM]
  induction xs with
  | nil => rfl
  | cons x xs ih =>
    rw [List.forM_cons, ih fun y hy => h y (List.mem_cons_of_mem x hy), h x List.mem_cons_self]
    rfl

/-- One more round of a loop that has succeeded so far. -/
theorem foldlM_concat {f : β → α → Except ε β} {xs : List α} {x : α} {a b c : β}
    (h : xs.foldlM f a = .ok b) (hx : f b x = .ok c) : (xs ++ [x]).foldlM f a = .ok c := by
  rw [List.foldlM_append]
  exact bind_ok_iff.mpr ⟨b, h, bind_ok_iff.mpr ⟨c, hx, rfl⟩⟩

/-- A loop whose rounds add to a state what another loop over the list yields. -/
theorem foldlM_eq_foldl {γ : Type} {f : β → α → Except ε β} {g : α → Except ε γ} {add : β → γ → β}
    {xs : List α} {ys : List γ} (hround : ∀ b x y, g x = .ok y → f b x = .ok (add b y))
    (h : xs.mapM g = .ok ys) (b : β) : xs.foldlM f b = .ok (ys.foldl add b) := by
  induction xs generalizing ys b with
  | nil =>
    cases h
    rfl
  | cons x xs ih =>
    rw [List.mapM_cons] at h
    obtain ⟨y, hy, h⟩ := bind_ok_iff.mp h
    obtain ⟨zs, hzs, h⟩ := bind_ok_iff.mp h
    cases h
    rw [List.foldlM_cons]
    exact bind_ok_iff.mpr ⟨add b y, hround b x y hy, ih hzs (add b y)⟩

/-- Whatever goes wrong in a computation has the property. -/
def Raises (P : ε → Prop) (x : Except ε α) : Prop := ∀ e, x = .error e → P e

namespace Raises

variable {P : ε → Prop} {x : Except ε α}

theorem ok (a : α) : Raises P (.ok a) := nofun

theorem error {e : ε} (h : P e) : Raises P (.error e : Except ε α) := fun _ he =>
  Except.error.inj he ▸ h

theorem bind {f : α → Except ε β} (hx : Raises P x) (hf : ∀ a, Raises P (f a)) :
    Raises P (x >>= f) := by
  cases x with
  | error e => exact fun _ he => hx _ (congrArg _ (Except.error.inj he))
  | ok a => exact hf a

end Raises

end ProgramAnalysis
