import Mathlib.Logic.Relation
import ProgramAnalysis.Program.Hierarchy
import ProgramAnalysis.Proofs.Program.Accepted

/-! The two walks over the class hierarchy against the relation that they walk: a class that the
walk up finds to be a subtype is among those that the walk down collects. The walk down takes each
class once and each link once, so that its fuel lasts. -/
namespace ProgramAnalysis.Program

variable {p : Program} {c d : ClassId} {decl : ClassDecl}

/-- `d` is the superclass or an interface of `c`. -/
def Inherits (p : Program) (c d : ClassId) : Prop := ∃ decl, p.class? c = some decl ∧ d ∈ above decl

/-! ### Up -/

theorem class?_of_getClass (h : p.getClass c = .ok decl) : p.class? c = some decl := by
  unfold getClass orDangling at h
  split at h
  · next hc => exact hc.trans (congrArg some (Except.ok.inj h))
  · cases h

theorem walkUp_sound {target : ClassId} {fuel : Nat} {queue seen : List ClassId}
    (h : p.walkUp target fuel queue seen = .ok true) :
    ∃ c ∈ queue, Relation.ReflTransGen p.Inherits c target := by
  induction fuel generalizing queue seen with
  | zero => cases h
  | succ fuel ih =>
    cases queue with
    | nil => cases h
    | cons c queue =>
      rw [walkUp] at h
      by_cases hc : c = target
      · exact ⟨c, List.mem_cons_self, hc ▸ .refl⟩
      · rw [if_neg hc] at h
        by_cases hseen : c ∈ seen
        · rw [if_pos hseen] at h
          obtain ⟨d, hd, hpath⟩ := ih h
          exact ⟨d, List.mem_cons_of_mem c hd, hpath⟩
        · rw [if_neg hseen] at h
          cases hget : p.getClass c with
          | error e => rw [hget] at h; cases h
          | ok decl =>
            rw [hget] at h
            obtain ⟨d, hd, hpath⟩ := ih h
            rcases List.mem_append.mp hd with hd | hd
            · exact ⟨d, List.mem_cons_of_mem c hd, hpath⟩
            · exact ⟨c, List.mem_cons_self, .head ⟨decl, class?_of_getClass hget, hd⟩ hpath⟩

theorem isSubtype_sound (h : p.isSubtype c d = .ok true) : Relation.ReflTransGen p.Inherits c d := by
  obtain ⟨c', hc', hpath⟩ := walkUp_sound h
  exact List.mem_singleton.mp hc' ▸ hpath

/-! ### Links -/

theorem mem_links {f : ClassDecl → List ClassId} :
    c ∈ p.links f d ↔ ∃ decl, p.class? c = some decl ∧ d ∈ f decl := by
  simp only [links, List.mem_flatMap, Prod.exists, List.mem_zipIdx_iff_getElem?, List.mem_map,
    List.mem_filter, beq_iff_eq]
  constructor
  · intro ⟨decl, i, hdecl, x, ⟨hx, hxd⟩, hi⟩
    subst hxd hi
    exact ⟨decl, by simpa [class?] using hdecl, hx⟩
  · intro ⟨decl, hdecl, hd⟩
    exact ⟨decl, c.index, by simpa [class?] using hdecl, d, ⟨hd, rfl⟩, rfl⟩

theorem mem_below : c ∈ p.below d ↔ p.Inherits c d := by
  simp only [below, subclasses, subinterfaces, implementors, List.mem_append, mem_links, Inherits,
    above]
  constructor
  · intro h
    rcases h with (⟨decl, hdecl, hd⟩ | ⟨decl, hdecl, hd⟩) | ⟨decl, hdecl, hd⟩
    · exact ⟨decl, hdecl, .inl hd⟩
    · split at hd
      · exact ⟨decl, hdecl, .inr hd⟩
      · cases hd
    · split at hd
      · cases hd
      · exact ⟨decl, hdecl, .inr hd⟩
  · intro ⟨decl, hdecl, hd⟩
    rcases hd with hd | hd
    · exact .inl (.inl ⟨decl, hdecl, hd⟩)
    · by_cases hi : decl.isInterface = true
      · exact .inl (.inr ⟨decl, hdecl, by rw [if_pos hi]; exact hd⟩)
      · exact .inr ⟨decl, hdecl, by rw [if_neg hi]; exact hd⟩

/-- The classes that links of the program go to, once for each link. -/
def linkTargets (p : Program) : List ClassId := p.classes.toList.flatMap above

theorem length_linkTargets (p : Program) : p.linkTargets.length = p.linkCount := by
  unfold linkTargets linkCount
  induction p.classes.toList with
  | nil => rfl
  | cons d ds ih => simp [ih, above, Nat.add_assoc]

theorem length_links (p : Program) (f : ClassDecl → List ClassId) (c : ClassId) :
    (p.links f c).length = (p.classes.toList.flatMap f).count c := by
  have hfold : ∀ (ds : List ClassDecl) (k : Nat), ((ds.zipIdx k).flatMap fun e =>
      ((f e.1).filter (· == c)).map fun _ => ClassId.mk e.2).length = (ds.flatMap f).count c := by
    intro ds
    induction ds with
    | nil => intro k; rfl
    | cons d ds ih =>
      intro k
      rw [List.zipIdx_cons, List.flatMap_cons, List.flatMap_cons, List.length_append,
        List.count_append, ih, List.length_map, ← List.count_eq_length_filter]
  exact hfold p.classes.toList 0

theorem length_below (p : Program) (c : ClassId) : (p.below c).length = p.linkTargets.count c := by
  simp only [below, subclasses, subinterfaces, implementors, List.length_append, length_links,
    linkTargets]
  induction p.classes.toList with
  | nil => rfl
  | cons d ds ih =>
    simp only [List.flatMap_cons, List.count_append, above] at ih ⊢
    cases d.isInterface
    · simp
      omega
    · simp
      omega

/-! ### Down -/

/-- The links that the walk down may still follow. -/
def unseenLinks (p : Program) (seen : List ClassId) : Nat :=
  (p.linkTargets.filter fun c => c ∉ seen).length

theorem unseenLinks_nil (p : Program) : p.unseenLinks [] = p.linkCount := by
  rw [← length_linkTargets]
  simp [unseenLinks]

theorem unseenLinks_append (p : Program) {seen : List ClassId} (hc : c ∉ seen) :
    p.unseenLinks (seen ++ [c]) + (p.below c).length = p.unseenLinks seen := by
  rw [length_below]
  unfold unseenLinks
  induction p.linkTargets with
  | nil => rfl
  | cons d ds ih =>
    by_cases hd : d = c
    · subst hd
      simp only [List.filter_cons, List.count_cons_self]
      simp [hc] at ih ⊢
      omega
    · by_cases hseen : d ∈ seen
      · simpa [hseen, hd] using ih
      · simp [hseen, hd] at ih ⊢
        omega

/-- The walk down ends with all that is below what it has collected. -/
theorem walkDown_closed (fuel : Nat) {queue seen : List ClassId}
    (hseen : ∀ c ∈ seen, ∀ d ∈ p.below c, d ∈ queue ∨ d ∈ seen)
    (hfuel : queue.length + p.unseenLinks seen ≤ fuel) :
    (∀ c, c ∈ queue ∨ c ∈ seen → c ∈ walkDown p.below fuel queue seen) ∧
      ∀ c ∈ walkDown p.below fuel queue seen, ∀ d ∈ p.below c,
        d ∈ walkDown p.below fuel queue seen := by
  induction fuel generalizing queue seen with
  | zero =>
    have hnil : queue = [] := List.length_eq_zero_iff.mp (by omega)
    subst hnil
    exact ⟨fun c hc => hc.resolve_left nofun, fun c hc d hd => (hseen c hc d hd).resolve_left nofun⟩
  | succ fuel ih =>
    cases queue with
    | nil =>
      exact ⟨fun c hc => hc.resolve_left nofun,
        fun c hc d hd => (hseen c hc d hd).resolve_left nofun⟩
    | cons c queue =>
      rw [List.length_cons] at hfuel
      rw [walkDown]
      by_cases hc : c ∈ seen
      · rw [if_pos hc]
        have hseen' : ∀ e ∈ seen, ∀ d ∈ p.below e, d ∈ queue ∨ d ∈ seen := by
          intro e he d hd
          rcases hseen e he d hd with hq | hs
          · rcases List.mem_cons.mp hq with rfl | hq
            · exact .inr hc
            · exact .inl hq
          · exact .inr hs
        obtain ⟨hmem, hclosed⟩ := ih hseen' (by omega)
        refine ⟨fun e he => hmem e ?_, hclosed⟩
        rcases he with he | he
        · rcases List.mem_cons.mp he with rfl | he
          · exact .inr hc
          · exact .inl he
        · exact .inr he
      · rw [if_neg hc]
        have hlinks := p.unseenLinks_append hc
        have hseen' : ∀ e ∈ seen ++ [c], ∀ d ∈ p.below e,
            d ∈ queue ++ p.below c ∨ d ∈ seen ++ [c] := by
          intro e he d hd
          rcases List.mem_append.mp he with he | he
          · rcases hseen e he d hd with hq | hs
            · rcases List.mem_cons.mp hq with rfl | hq
              · exact .inr (by simp)
              · exact .inl (List.mem_append_left _ hq)
            · exact .inr (List.mem_append_left _ hs)
          · rw [List.mem_singleton.mp he] at hd
            exact .inl (List.mem_append_right _ hd)
        obtain ⟨hmem, hclosed⟩ := ih hseen' (by rw [List.length_append]; omega)
        refine ⟨fun e he => hmem e ?_, hclosed⟩
        rcases he with he | he
        · rcases List.mem_cons.mp he with rfl | he
          · exact .inr (by simp)
          · exact .inl (List.mem_append_left _ he)
        · exact .inr (List.mem_append_left _ he)

theorem mem_subtypes (h : Relation.ReflTransGen p.Inherits c d) : c ∈ p.subtypes d := by
  have hfuel : [d].length + p.unseenLinks [] ≤ p.linkCount + 2 := by
    rw [unseenLinks_nil, List.length_singleton]
    omega
  have hseen : ∀ c ∈ ([] : List ClassId), ∀ e ∈ p.below c, e ∈ [d] ∨ e ∈ [] := nofun
  obtain ⟨hmem, hclosed⟩ := walkDown_closed (p.linkCount + 2) hseen hfuel
  induction h using Relation.ReflTransGen.head_induction_on with
  | refl => exact hmem d (.inl List.mem_cons_self)
  | head hstep _ ih => exact hclosed _ ih _ (mem_below.mpr hstep)

/-- What is true of the start, and of every class below one that it is true of, is true of all
subtypes. -/
theorem walkDown_induction {P : ClassId → Prop} (hbelow : ∀ c d, P c → d ∈ p.below c → P d) (fuel : Nat)
    {queue seen : List ClassId} (hqueue : ∀ c ∈ queue, P c) (hseen : ∀ c ∈ seen, P c) :
    ∀ c ∈ walkDown p.below fuel queue seen, P c := by
  induction fuel generalizing queue seen with
  | zero => exact hseen
  | succ fuel ih =>
    cases queue with
    | nil => exact hseen
    | cons c queue =>
      have hrest : ∀ e ∈ queue, P e := fun e he => hqueue e (List.mem_cons_of_mem c he)
      rw [walkDown]
      split
      · exact ih hrest hseen
      · refine ih (fun e he => ?_) fun e he => ?_
        · exact (List.mem_append.mp he).elim (hrest e) (hbelow c e (hqueue c List.mem_cons_self))
        · rcases List.mem_append.mp he with he | he
          · exact hseen e he
          · rw [List.mem_singleton.mp he]
            exact hqueue c List.mem_cons_self

theorem hasClass_of_mem_subtypes (hd : p.HasClass d) (hc : c ∈ p.subtypes d) : p.HasClass c := by
  refine walkDown_induction (P := p.HasClass) (fun e c _ hc => ?_) _ (fun e he => ?_)
    (fun e he => absurd he List.not_mem_nil) c hc
  · obtain ⟨decl, hdecl, _⟩ := mem_below.mp hc
    exact (Array.getElem?_eq_some_iff.mp hdecl).1
  · exact List.mem_singleton.mp he ▸ hd

/-- The subtypes of a class are those that inherit from it, over any number of links. -/
theorem mem_subtypes_iff : c ∈ p.subtypes d ↔ Relation.ReflTransGen p.Inherits c d := by
  refine ⟨walkDown_induction (P := fun c => Relation.ReflTransGen p.Inherits c d)
    (fun e c he hc => .head (mem_below.mp hc) he) _ (fun e he => ?_)
    (fun e he => absurd he List.not_mem_nil) c, mem_subtypes⟩
  exact List.mem_singleton.mp he ▸ .refl

end ProgramAnalysis.Program
